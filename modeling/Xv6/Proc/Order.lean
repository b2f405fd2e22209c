import Xv6.Proc.Reachable

/-!
# The order of dispatches

`scheduler` dispatches a process of the highest priority.  Processes join `ready[MAXPRIO]` at its
end and leave it from its head, unless `setpriority` is applied to them, so a process that waits
there is overtaken by no process that was not ahead of it.
-/

namespace Xv6.Ptable

/-- The entries ahead of an entry that stays in a list. -/
theorem exists_ahead_of_sublist
    {α : Type*} {p : α} {l₁ l₂ k : List α} (hnd : (l₁ ++ p :: l₂).Nodup)
    (hk : k.Sublist (l₁ ++ p :: l₂)) (hp : p ∈ k) :
  ∃ k₁ k₂, k = k₁ ++ p :: k₂ ∧ k₁.Sublist l₁
  := by
  obtain ⟨k₁, k₂, rfl, h₁, h₂⟩ := List.sublist_append_iff.mp hk
  obtain ⟨-, hnd₂, hdisj⟩ := List.nodup_append.mp hnd
  have hp₁ : p ∉ k₁ := by
    intro h
    apply hdisj p (h₁.subset h) p List.mem_cons_self rfl
  rcases List.sublist_cons_iff.mp h₂ with h₂ | ⟨r, rfl, -⟩
  · have hp₂ := (List.mem_append.mp hp).resolve_left hp₁
    cases (List.nodup_cons.mp hnd₂).1 (h₂.subset hp₂)
  · exact ⟨k₁, r, rfl, h₁⟩

variable {s s' : Sys} {q : ListId → List Slot} {p : Slot}

/-! ### Runs -/

/-- A run from `s` to `s'` with `n` dispatches, in which `p` is not dispatched and `setpriority` is
not called with its pid. -/
inductive Waits (p : Slot) (s : Sys) : Nat → Sys → Prop where
  | refl : Waits p s 0 s
  | step {n : Nat} {s₁ s₂ : Sys} {l : Label} (h : Waits p s n s₁)
      (hstep : kernel.step s₁ l = some (.ok s₂)) (hp : s₁.dispatched l ≠ some p)
      (hset : ∀ pid priority, l = .setpriority pid priority →
        (s₁.pt.proc p).pid ≠ pid.toUInt32) :
      Waits p s (n + if (s₁.dispatched l).isSome then 1 else 0) s₂

theorem Waits.reachable {n : Nat} (h : Waits p s n s') (hs : kernel.Reachable s) :
  kernel.Reachable s'
  := by
  induction h with
  | refl => apply hs
  | step _ hstep _ _ ih => apply System.Reach.step ih trivial hstep

/-- One step of a process that waits in `ready[MAXPRIO]`. -/
theorem Queues.ahead
    {l : Label} {d : Option Slot} {next l₁ l₂ : List Slot}
    (h : Queues s l d (l₁ ++ p :: l₂) next) (hnd : (l₁ ++ p :: l₂).Nodup) (hp : d ≠ some p)
    (hset : ∀ pid priority, l = .setpriority pid priority →
      (s.pt.proc p).pid ≠ pid.toUInt32) :
  ∃ k₁ k₂, next = k₁ ++ p :: k₂ ∧ k₁.Sublist l₁ ∧
    (if d.isSome then 1 else 0) + k₁.length ≤ l₁.length
  := by
  obtain ⟨k, hk, hpre, hdisp, hleave⟩ := h
  have hmem : p ∈ k := by
    by_contra hnot
    rcases hleave p (by simp) hnot with hd | ⟨pid, priority, hl, hpid⟩
    · apply hp hd
    · apply hset pid priority hl hpid
  obtain ⟨r, rfl⟩ := hpre
  cases d with
  | none =>
    obtain ⟨k₁, k₂, rfl, hk₁⟩ := exists_ahead_of_sublist hnd hk hmem
    refine ⟨k₁, k₂ ++ r, by simp, hk₁, ?_⟩
    simpa using hk₁.length_le
  | some x =>
    have htail := hdisp (by simp)
    cases l₁ with
    | nil =>
      -- the head would be `p`
      cases (List.nodup_cons.mp hnd).1 (htail.subset hmem)
    | cons a l₁ =>
      obtain ⟨k₁, k₂, rfl, hk₁⟩ :=
        exists_ahead_of_sublist (List.nodup_cons.mp hnd).2 htail hmem
      refine ⟨k₁, k₂ ++ r, by simp, hk₁.trans (List.sublist_cons_self a l₁), ?_⟩
      have hle := hk₁.length_le
      simp only [Option.isSome_some, if_true, List.length_cons]
      omega

/-- A process that waits in `ready[MAXPRIO]` stays there, and the processes ahead of it were ahead
of it before. -/
theorem Waits.ahead
    {n : Nat} (h : Waits p s n s') (hs : kernel.Reachable s) (hq : Good s.pt q)
    {l₁ l₂ : List Slot} (htop : q top = l₁ ++ p :: l₂) :
  ∃ q' k₁ k₂, Good s'.pt q' ∧ q' top = k₁ ++ p :: k₂ ∧ k₁.Sublist l₁ ∧ n + k₁.length ≤ l₁.length
  := by
  induction h with
  | refl => exact ⟨q, l₁, l₂, hq, htop, List.Sublist.refl _, by omega⟩
  | step hw hstep hp hset ih =>
    obtain ⟨q₁, m₁, m₂, hq₁, htop₁, hsub₁, hle₁⟩ := ih
    have hinv := inv_of_reachable (hw.reachable hs)
    obtain ⟨q₂, hq₂, hqueues⟩ := (hinv.view_queued hstep hq₁).1
    rw [htop₁] at hqueues
    have hnd : (m₁ ++ p :: m₂).Nodup := htop₁ ▸ (hq₁.lists top).nodup
    obtain ⟨k₁, k₂, htop₂, hsub₂, hle₂⟩ := hqueues.ahead hnd hp hset
    exact ⟨q₂, k₁, k₂, hq₂, htop₂, hsub₂.trans hsub₁, by omega⟩

/-- In every reachable state: a process that `scheduler` dispatches has the highest priority of
all runnable processes; and in every run from there, a process in `ready[MAXPRIO]` with the
processes `l₁` ahead of it stays in the list as long as it is not dispatched and `setpriority` is
not called for it, only processes of `l₁` stay ahead of it, and each dispatch takes one of them,
so that there are at most as many dispatches as processes in `l₁`. -/
theorem dispatch_order {s : Sys} (h : kernel.Reachable s) :
  (∀ p t, scheduler s.pt = .ok (some p, t) →
    ∀ x, (t.proc x).state = .runnable → (t.proc x).priority ≤ (t.proc p).priority) ∧
  ∀ q p l₁ l₂, ListInvariant s.pt q → q top = l₁ ++ p :: l₂ → ∀ n s', Waits p s n s' →
    ∃ q' k₁ k₂, ListInvariant s'.pt q' ∧ q' top = k₁ ++ p :: k₂ ∧ k₁.Sublist l₁ ∧
      n + k₁.length ≤ l₁.length
  := by
  have hinv := inv_of_reachable h
  constructor
  · intro p t hsched x hx
    obtain ⟨q, hq⟩ := hinv.good
    obtain ⟨t₁, q₁, ht₁, hq₁, -, -⟩ := hq.promoteAll_view
    rw [scheduler, ht₁] at hsched
    simp only [bind, Except.bind] at hsched
    rcases dispatch_spec hq₁ readyDown with ⟨hd, -⟩ | ⟨t', p', j, hd, hj, hhead, -, hp, honly⟩
    · rw [hd] at hsched
      cases hsched
    · rw [hd] at hsched
      cases hsched
      have hne : x ≠ p := by
        rintro rfl
        rw [hp] at hx
        cases hx
      rw [honly.others x hne] at hx ⊢
      rw [hp]
      apply hq₁.priority_le hj hhead hx
  · intro q p l₁ l₂ hlist htop n s' hw
    obtain ⟨q₀, hq₀⟩ := hinv.good
    rw [(hlist.seg top).unique (hq₀.listInvariant.seg top)] at htop
    obtain ⟨q', k₁, k₂, hq', htop', hsub, hle⟩ := hw.ahead h hq₀ htop
    exact ⟨q', k₁, k₂, hq'.listInvariant, htop', hsub, hle⟩

/-- The first child is ahead of the second; when it has been dispatched, the second is the head. -/
theorem dispatch_order_of_two_children :
  ∃ s s', kernel.Reachable s ∧ Waits 2 s 1 s' ∧
    ∃ q' k₂, ListInvariant s'.pt q' ∧ q' top = 2 :: k₂
  := by
  obtain ⟨s, -, hreach, ⟨hhead, hone, htwo, hdisp⟩, hok⟩ :=
    System.exists_of_run kernel booted_firstSys twoForksRun (fun s =>
      ((s.pt.ready (Fin.last maxPrio)).head = some 1 ∧ s.pt.next 1 = some 2 ∧ s.pt.next 2 = none ∧
        s.dispatched (.schedule 1) = some 1) ∧
      (kernel.step s (.schedule 1)).map Except.isOk = some true) (by decide +kernel)
  obtain ⟨s', hstep⟩ : ∃ s', kernel.step s (.schedule 1) = some (.ok s') := by
    obtain ⟨r, hr, hr'⟩ := Option.map_eq_some_iff.mp hok
    cases r with
    | error f => cases hr'
    | ok s' => exact ⟨s', hr⟩
  obtain ⟨q, hq⟩ := (inv_of_reachable hreach).good
  have hseg : Seg s.pt.next (s.pt.ptrs top).head [1, 2] none := ⟨hhead, hone, htwo⟩
  have htop : q top = [1] ++ 2 :: [] := (hq.listInvariant.seg top).unique hseg
  have hwaits : Waits 2 s (0 + if (s.dispatched (.schedule 1)).isSome then 1 else 0) s' := by
    apply Waits.step .refl hstep
    · simp [hdisp]
    · intro pid priority hl
      cases hl
  rw [hdisp] at hwaits
  obtain ⟨q', k₁, k₂, hlist, htop', -, hle⟩ :=
    (dispatch_order hreach).2 q 2 [1] [] hq.listInvariant htop _ s' hwaits
  obtain rfl : k₁ = [] := by
    apply List.eq_nil_of_length_eq_zero
    simp only [Option.isSome_some, if_true, List.length_singleton] at hle
    omega
  exact ⟨s, s', hreach, hwaits, q', k₂, hlist, htop'⟩

end Xv6.Ptable
