import Xv6.Proc.Reachable

/-!
# What a promotion does to the table

A promotion moves every ready list up by one.  The slots on `list[SLEEPING]` and `list[RUNNING]`
get a higher priority and a fresh budget in place.  The slots on `ready[MAXPRIO]` are not visited:
they keep their budget, whatever is left of it.
-/

namespace Xv6.Ptable

variable {t : PTable} {q : ListId → List Slot}

/-! ### The slots -/

theorem promotion_of_not_active {x : Proc} (h : ¬ Active x.state) :
  promotion x = x
  := by
  rw [promotion, if_neg]
  rintro (hs | hs | ⟨hs, -⟩)
  · apply h (.inl hs)
  · apply h (.inr (.inr hs))
  · apply h (.inr (.inl hs))

/-- A promotion leaves an active slot with the budget `BUDGET`, unless it is runnable with the
highest priority. -/
theorem promotion_budget
    {x : Proc} (h : Active x.state) (hb : x.state = .runnable → x.priority ≤ maxPrio) :
  (promotion x).budget = BUDGET ↔
    (x.state = .runnable → x.priority = maxPrio → x.budget = BUDGET)
  := by
  by_cases hvisit : x.state = .sleeping ∨ x.state = .running ∨
      x.state = .runnable ∧ x.priority < maxPrio
  · rw [promotion, if_pos hvisit]
    constructor
    · intro _ hr hp
      rcases hvisit with hs | hs | ⟨-, hlt⟩
      · cases hr.symm.trans hs
      · cases hr.symm.trans hs
      · omega
    · intro _
      rfl
  · rw [promotion, if_neg hvisit]
    obtain ⟨hns, hnr, hnp⟩ := by simpa only [not_or] using hvisit
    have hr : x.state = .runnable := by
      rcases h with hs | hs | hs
      · exact absurd hs hns
      · exact hs
      · exact absurd hs hnr
    have hp : x.priority = maxPrio := by
      have := hb hr
      have : ¬ x.priority < maxPrio := fun hlt => hnp ⟨hr, hlt⟩
      omega
    exact ⟨fun hbudget _ _ => hbudget, fun himp => himp hr hp⟩

/-! ### The promotion of a table with the list invariant -/

theorem ListInvariant.promoteAll (h : ListInvariant t q) (ht : t.ticks ≥ t.promoteAtTime) :
  ∃ t', promoteAll t = .ok t' ∧ ListInvariant t' (raisedAll q promotedPrios) ∧
    ∀ p, t'.proc p = promotion (t.proc p)
  := by
  obtain ⟨t', hok, hl, hproc, -⟩ := h.linked.promoteAll ht
  refine ⟨t', hok, hl.listInvariant ?_, hproc⟩
  intro p hr
  rw [hproc, promotion_state] at hr
  have hle := h.homed hr
  rw [hproc, promotion_priority _ (.inr (.inl hr))]
  split <;> omega

/-- A promotion moves the ready lists up by one, in their order, and joins the two highest ones.
The priority of a runnable process becomes the next higher one up to `MAXPRIO`; so does that of a
sleeping or running process, unless it is above `MAXPRIO` already.  The other processes and the
lists of the other states do not change. -/
theorem promotion_one_level (h : ListInvariant t q) (ht : t.ticks ≥ t.promoteAtTime) :
  ∃ t' q', promoteAll t = .ok t' ∧ ListInvariant t' q' ∧
    q' (.ready 0) = [] ∧
    (∀ j : Fin (maxPrio + 1), (j : Nat) < maxPrio - 1 → q' (.ready (j + 1)) = q (.ready j)) ∧
    q' (.ready 6) = q (.ready 6) ++ q (.ready 5) ∧
    (∀ p, Active (t.proc p).state → (t'.proc p).state = (t.proc p).state ∧
      (t'.proc p).priority
        = max (t.proc p).priority (min ((t.proc p).priority + 1) maxPrio)) ∧
    (∀ p, (t.proc p).state = .runnable →
      (t'.proc p).priority = min ((t.proc p).priority + 1) maxPrio) ∧
    (∀ p, ¬ Active (t.proc p).state → t'.proc p = t.proc p) ∧
    ∀ s, q' (.list s) = q (.list s)
  := by
  obtain ⟨t', hok, hlists, hproc⟩ := h.promoteAll ht
  refine ⟨t', _, hok, hlists, rfl, ?_, rfl, ?_, ?_, ?_, fun _ => rfl⟩
  · intro j hj
    match j with
    | 0 | 1 | 2 | 3 | 4 => rfl
    | 5 | 6 => exact absurd hj (by decide)
  · intro p hp
    rw [hproc, promotion_state, promotion_priority _ hp]
    refine ⟨rfl, ?_⟩
    split <;> omega
  · intro p hr
    have hle := h.homed hr
    rw [hproc, promotion_priority _ (.inr (.inl hr))]
    split <;> omega
  · intro p hp
    rw [hproc, promotion_of_not_active hp]

/-- A table of the kernel with a promotion due. -/
theorem exists_due
    (ls : List Label) (P : PTable → Prop) [DecidablePred P]
    (h : (kernel.run firstSys ls).any
      (fun s => decide (P { s.pt with promoteAtTime := 0 })) = true) :
  ∃ t q, Good t q ∧ t.ticks ≥ t.promoteAtTime ∧ P t
  := by
  obtain ⟨t, q, hq, hP⟩ := exists_good ls (fun t => P { t with promoteAtTime := 0 }) h
  exact ⟨_, q, hq.setPromoteAtTime 0, UInt32.zero_le, hP⟩

/-- Two children of `init` wait on different ready lists below the highest, and the second has used
some of its budget. -/
theorem exists_due_two :
  ∃ t q, Good t q ∧ t.ticks ≥ t.promoteAtTime ∧ q (.ready 3) = [1] ∧ q (.ready 5) = [2] ∧
    (t.proc 2).budget < BUDGET ∧ ∀ p, (t.proc p).state = .runnable → (t.proc p).priority < maxPrio
  := by
  obtain ⟨t, q, hq, hdue, ⟨hone, hnone⟩, ⟨htwo, hnone'⟩, hbudget, hprio⟩ := exists_due
    (twoForksRun ++ [.setpriority 2 3, .setpriority 3 5, .schedule 1, .tick, .yield 1])
    (fun t => ((t.ready 3).head = some 1 ∧ t.next 1 = none) ∧
      ((t.ready 5).head = some 2 ∧ t.next 2 = none) ∧ (t.proc 2).budget < BUDGET ∧
      ∀ p, (t.proc p).state = .runnable → (t.proc p).priority < maxPrio) (by decide +kernel)
  have hseg : Seg t.next (t.ptrs (.ready 3)).head [1] none := ⟨hone, hnone⟩
  have hseg' : Seg t.next (t.ptrs (.ready 5)).head [2] none := ⟨htwo, hnone'⟩
  exact ⟨t, q, hq, hdue, (hq.listInvariant.seg _).unique hseg,
    (hq.listInvariant.seg _).unique hseg', hbudget, hprio⟩

theorem promotion_one_level_two :
  ∃ t q t' q', ListInvariant t q ∧ q (.ready 3) = [1] ∧ q (.ready 5) = [2] ∧
    promoteAll t = .ok t' ∧ ListInvariant t' q' ∧ q' (.ready 4) = [1] ∧
    q' (.ready 6) = q (.ready 6) ++ [2]
  := by
  obtain ⟨t, q, hq, hdue, hone, htwo, -⟩ := exists_due_two
  obtain ⟨t', q', hok, hlists, -, hnext, htop, -⟩ := promotion_one_level hq.listInvariant hdue
  refine ⟨t, q, t', q', hq.listInvariant, hone, htwo, hok, hlists, ?_, ?_⟩
  · rw [← hone]
    exact hnext 3 (by decide)
  · rw [htop, htwo]

/-- A running process with a priority above `MAXPRIO` keeps it. -/
theorem promotion_keeps_high :
  ∃ t q t', ListInvariant t q ∧ t.ticks ≥ t.promoteAtTime ∧ (t.proc 0).state = .running ∧
    (t.proc 0).priority = maxPrio + 1 ∧ promoteAll t = .ok t' ∧
    (t'.proc 0).priority ≠ min ((t.proc 0).priority + 1) maxPrio
  := by
  obtain ⟨t, q, hq, hdue, hstate⟩ := exists_due initRun
    (fun t => (t.proc 0).state = .running) (by decide +kernel)
  have hlists : ListInvariant (t.modify 0 ({ · with priority := maxPrio + 1 })) q :=
    hq.listInvariant_priority (by rw [hstate]; decide)
  have hself : (t.modify 0 ({ · with priority := maxPrio + 1 })).proc 0 =
      { t.proc 0 with priority := maxPrio + 1 } := PTable.modify_proc_self ..
  have hstate' : ((t.modify 0 ({ · with priority := maxPrio + 1 })).proc 0).state = .running := by
    rw [hself, hstate]
  obtain ⟨t', hok, -, hproc⟩ := hlists.promoteAll hdue
  refine ⟨_, q, t', hlists, hdue, hstate', by rw [hself], hok, ?_⟩
  rw [hproc, promotion_priority _ (.inr (.inr hstate')), hself]
  dsimp only
  rw [if_neg (by decide)]
  decide

/-- After a promotion every active process has the budget `BUDGET` exactly if every process on
`ready[MAXPRIO]` had it before. -/
theorem promotion_budgets_iff (h : ListInvariant t q) (ht : t.ticks ≥ t.promoteAtTime) :
  (∃ t', promoteAll t = .ok t' ∧
    ∀ p, Active (t'.proc p).state → (t'.proc p).budget = BUDGET) ↔
    ∀ p, (t.proc p).state = .runnable → (t.proc p).priority = maxPrio →
      (t.proc p).budget = BUDGET
  := by
  obtain ⟨t', hok, -, hproc⟩ := h.promoteAll ht
  constructor
  · rintro ⟨_, hok', hall⟩ p hr hp
    rw [hok, Except.ok.injEq] at hok'
    subst hok'
    have hactive : Active (t.proc p).state := .inr (.inl hr)
    have hbudget := hall p (by rwa [hproc, promotion_state])
    rw [hproc] at hbudget
    exact (promotion_budget hactive h.homed).mp hbudget hr hp
  · intro htop
    refine ⟨t', hok, ?_⟩
    intro p hp
    rw [hproc, promotion_state] at hp
    rw [hproc]
    exact (promotion_budget hp h.homed).mpr (htop p)

theorem promotion_budgets_two :
  ∃ t q t', ListInvariant t q ∧ q (.ready 3) = [1] ∧ q (.ready 5) = [2] ∧
    (t.proc 2).budget < BUDGET ∧ promoteAll t = .ok t' ∧
    ∀ p, Active (t'.proc p).state → (t'.proc p).budget = BUDGET
  := by
  obtain ⟨t, q, hq, hdue, hone, htwo, hbudget, hprio⟩ := exists_due_two
  obtain ⟨t', hok, hall⟩ := (promotion_budgets_iff hq.listInvariant hdue).mpr
    (fun p hr hp => absurd hp (hprio p hr).ne)
  exact ⟨t, q, t', hq.listInvariant, hone, htwo, hbudget, hok, hall⟩

/-- `init` has run for a tick and waits on `ready[MAXPRIO]` for its next turn.  The promotion does
not restore its budget. -/
theorem promotion_skips_highest :
  ∃ t q t', ListInvariant t q ∧ t.ticks ≥ t.promoteAtTime ∧ promoteAll t = .ok t' ∧
    (t'.proc 0).state = .runnable ∧ (t'.proc 0).budget = 124
  := by
  obtain ⟨t, q, hq, hdue, hstate, hprio, hbudget⟩ := exists_due (initRun ++ [.tick, .yield 0])
    (fun t => (t.proc 0).state = .runnable ∧ (t.proc 0).priority = maxPrio ∧
      (t.proc 0).budget = 124) (by decide +kernel)
  obtain ⟨t', hok, -, hproc, -⟩ := promoteAll_spec hq hdue
  have hkept : promotion (t.proc 0) = t.proc 0 := by
    rw [promotion, if_neg]
    simp [hstate, hprio]
  refine ⟨t, q, t', hq.listInvariant, hdue, hok, ?_, ?_⟩
  · rw [hproc, hkept, hstate]
  · rw [hproc, hkept, hbudget]

end Xv6.Ptable
