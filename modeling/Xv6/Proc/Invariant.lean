import Xv6.Proc.Lists
import Xv6.Proc.Operations

/-!
# The critical sections keep the lists

A table is `Good` for the list contents `q` when every slot is on the one list that its state and
priority call for, and every active slot has a priority in range.  Changing the state of a slot,
walking a list and `wakeup1` succeed on a good table and leave a good table; the results also say
which slots change and how, and what the lists hold afterwards.
-/

namespace Xv6.Ptable

variable {t : PTable} {q : ListId → List Slot} {p : Slot}

/-! ### Changing the state of a slot -/

/-- A state in which a slot has a priority that the scheduler uses. -/
def Active (s : ProcState) : Prop :=
  s = .sleeping ∨ s = .runnable ∨ s = .running

/-- Every slot is on the list that its state and priority call for, the lists hold `q`, and active
slots have a priority in range. -/
structure Good (t : PTable) (q : ListId → List Slot) : Prop extends Linked t q where
  bounded : ∀ p, Active (t.proc p).state → (t.proc p).priority ≤ maxPrio

theorem home_of_ne_runnable {x : Proc} (h : x.state ≠ .runnable) :
  home x = some (.list x.state)
  := if_neg h

theorem home_of_runnable {x : Proc} (h : x.state = .runnable) (hp : x.priority ≤ maxPrio) :
  home x = some (.ready ⟨x.priority, Nat.lt_succ_of_le hp⟩)
  := by
  rw [home, if_pos h, dif_pos]

/-- The block that changes the state of a slot succeeds when the source list is the one the slot
is on and the target list the one the change calls for. -/
theorem changeState_spec
    (src dst : Proc → Except Fault ListId) (f : Proc → Proc) {a b : ListId}
    (h : Linked t q) (ha : home (t.proc p) = some a) (hsrc : src (t.proc p) = .ok a)
    (hb : home (f (t.proc p)) = some b) (hdst : dst (f (t.proc p)) = .ok b) :
  ∃ t', changeState t p src (t.proc p).state f dst = .ok t' ∧ Relinked (t.modify p f) t' ∧
    Linked t' (move q p a b)
  := by
  obtain ⟨t₁, hrem, hrel, hl⟩ := h.remove ha
  obtain ⟨t₂, hadd, hrel', hl'⟩ := h.append_changed ha hrel hl f hb
  use t₂
  constructor
  · simp [changeState, hsrc, hrem, assertState, hrel.proc, hdst, hadd, bind, Except.bind]
  · exact ⟨hrel', hl'⟩

/-- A change of a slot that keeps its home keeps the lists. -/
theorem Linked.modify
    (h : Linked t q) {f : Proc → Proc} (hf : home (f (t.proc p)) = home (t.proc p)) :
  Linked (t.modify p f) q
  := by
  constructor
  · intro id
    rw [HoldsList, PTable.modify_ptrs]
    apply h.lists id
  · intro x id
    rcases eq_or_ne x p with rfl | hx
    · rw [PTable.modify_proc_self, hf]
      apply h.mem_iff
    · rw [PTable.modify_proc_of_ne _ _ hx]
      apply h.mem_iff

/-- The lists do not depend on the variables beside the table. -/
theorem Linked.of_eq
    {t' : PTable} (h : Linked t q) (hproc : t'.proc = t.proc) (hnext : t'.next = t.next)
    (hptrs : ∀ id, t'.ptrs id = t.ptrs id) :
  Linked t' q
  := by
  constructor
  · intro id
    rw [HoldsList, hptrs, hnext]
    apply h.lists id
  · intro x id
    rw [hproc]
    apply h.mem_iff

/-- A change that keeps state and priority keeps the home. -/
theorem home_congr {x y : Proc} (hs : y.state = x.state) (hp : y.priority = x.priority) :
  home y = home x
  := by
  simp only [home, hs, hp]

section

variable (h : Good t q)

include h

/-- A change of a slot that keeps its state, and its priority or the bound on it, keeps the table
good. -/
theorem Good.modify
    {f : Proc → Proc} (hs : (f (t.proc p)).state = (t.proc p).state)
    (hp : (t.proc p).state = .runnable → (f (t.proc p)).priority = (t.proc p).priority)
    (hb : Active (t.proc p).state → (f (t.proc p)).priority ≤ maxPrio) :
  Good (t.modify p f) q
  := by
  constructor
  · apply h.toLinked.modify
    by_cases hr : (t.proc p).state = .runnable
    · apply home_congr hs (hp hr)
    · rw [home_of_ne_runnable hr, home_of_ne_runnable (hs ▸ hr), hs]
  · intro x hx
    rcases eq_or_ne x p with rfl | hne
    · rw [PTable.modify_proc_self] at hx ⊢
      apply hb (hs ▸ hx)
    · rw [PTable.modify_proc_of_ne _ _ hne] at hx ⊢
      apply h.bounded x hx

/-- A change of a slot that keeps its state and its priority keeps the table good. -/
theorem Good.modify_same
    {f : Proc → Proc} (hs : (f (t.proc p)).state = (t.proc p).state)
    (hp : (f (t.proc p)).priority = (t.proc p).priority) :
  Good (t.modify p f) q
  := by
  apply h.modify hs
  · intro _
    apply hp
  · intro ha
    rw [hp]
    apply h.bounded p ha

/-- A table stays good when only the variables beside the lists change. -/
theorem Good.of_eq
    (t' : PTable) (hproc : t'.proc = t.proc) (hnext : t'.next = t.next)
    (hptrs : ∀ id, t'.ptrs id = t.ptrs id) :
  Good t' q
  := by
  use h.toLinked.of_eq hproc hnext hptrs
  rw [hproc]
  apply h.bounded

omit h in
theorem Linked.setPromoteAtTime (h : Linked t q) (time : UInt32) :
  Linked { t with promoteAtTime := time } q
  := by
  refine h.of_eq ?_ ?_ ?_
  · rfl
  · rfl
  · intro id
    cases id <;> rfl

theorem Good.setPromoteAtTime (time : UInt32) :
  Good { t with promoteAtTime := time } q
  := ⟨h.toLinked.setPromoteAtTime time, h.bounded⟩

/-- The block that changes the state of a slot keeps the table good when the changed slot has a
priority in range. -/
theorem Good.changeState
    (src dst : Proc → Except Fault ListId) (f : Proc → Proc) {a b : ListId}
    (ha : home (t.proc p) = some a) (hsrc : src (t.proc p) = .ok a)
    (hb : home (f (t.proc p)) = some b) (hdst : dst (f (t.proc p)) = .ok b)
    (hbd : Active (f (t.proc p)).state → (f (t.proc p)).priority ≤ maxPrio) :
  ∃ t', Ptable.changeState t p src (t.proc p).state f dst = .ok t' ∧
    Relinked (t.modify p f) t' ∧ Good t' (move q p a b)
  := by
  obtain ⟨t', ht', hrel, hl⟩ := changeState_spec src dst f h.toLinked ha hsrc hb hdst
  use t', ht', hrel, hl
  intro x hx
  rw [hrel.proc] at hx ⊢
  rcases eq_or_ne x p with rfl | hne
  · rw [PTable.modify_proc_self] at hx ⊢
    apply hbd hx
  · rw [PTable.modify_proc_of_ne _ _ hne] at hx ⊢
    apply h.bounded x hx

/-- Moving a slot between two state lists, neither of them that of the runnable slots. -/
theorem Good.toState
    (f : Proc → Proc) (ha : (t.proc p).state ≠ .runnable) (hb : (f (t.proc p)).state ≠ .runnable)
    (hbd : Active (f (t.proc p)).state → (f (t.proc p)).priority ≤ maxPrio) :
  ∃ t', Ptable.changeState t p stateList (t.proc p).state f stateList = .ok t' ∧
    Relinked (t.modify p f) t' ∧
    Good t' (move q p (.list (t.proc p).state) (.list (f (t.proc p)).state))
  := h.changeState stateList stateList f (home_of_ne_runnable ha) rfl (home_of_ne_runnable hb) rfl
    hbd

/-- Moving a slot from a state list to the ready list of its priority. -/
theorem Good.toReady
    (f : Proc → Proc) (dst : Proc → Except Fault ListId) (ha : (t.proc p).state ≠ .runnable)
    (hb : (f (t.proc p)).state = .runnable) (hbd : (f (t.proc p)).priority ≤ maxPrio)
    (hdst : dst (f (t.proc p)) = priorityList (f (t.proc p))) :
  ∃ t', Ptable.changeState t p stateList (t.proc p).state f dst = .ok t' ∧
    Relinked (t.modify p f) t' ∧
    Good t' (move q p (.list (t.proc p).state)
      (.ready ⟨(f (t.proc p)).priority, Nat.lt_succ_of_le hbd⟩))
  := h.changeState stateList dst f (home_of_ne_runnable ha) rfl (home_of_runnable hb hbd)
    (hdst.trans (dif_pos (Nat.lt_succ_of_le hbd))) (fun _ => hbd)

end

/-! ### Walking the lists -/

section

variable {body : PTable → Slot → Except Fault PTable} {I : List Slot → PTable → Prop}
  {l : List Slot} {t : PTable} {fuel : Nat}

/-- A walk that saves the next link first keeps an invariant of the slots still to visit. -/
theorem walkSaved_rule
    (hstep : ∀ p l t, I (p :: l) t → t.next p = l.head? ∧ ∃ t', body t p = .ok t' ∧ I l t')
    (h : I l t) (hf : l.length < fuel) :
  ∃ t', walkSaved body fuel t l.head? = .ok t' ∧ I [] t'
  := by
  induction l generalizing t fuel with
  | nil =>
    obtain _ | fuel := fuel
    · cases hf
    use t, rfl
  | cons p l ih =>
    obtain _ | fuel := fuel
    · cases hf
    obtain ⟨hnext, t₁, ht₁, hI⟩ := hstep p l t h
    obtain ⟨t₂, ht₂, hI₂⟩ := ih hI (by simpa using hf)
    use t₂
    constructor
    · simp [walkSaved, hnext, ht₁, ht₂, bind, Except.bind]
    · apply hI₂

/-- A walk keeps an invariant of the slots still to visit. -/
theorem walk_rule
    (hstep : ∀ p l t, I (p :: l) t → ∃ t', body t p = .ok t' ∧ t'.next p = l.head? ∧ I l t')
    (h : I l t) (hf : l.length < fuel) :
  ∃ t', walk body fuel t l.head? = .ok t' ∧ I [] t'
  := by
  induction l generalizing t fuel with
  | nil =>
    obtain _ | fuel := fuel
    · cases hf
    use t, rfl
  | cons p l ih =>
    obtain _ | fuel := fuel
    · cases hf
    obtain ⟨t₁, ht₁, hnext, hI⟩ := hstep p l t h
    obtain ⟨t₂, ht₂, hI₂⟩ := ih hI (by simpa using hf)
    use t₂
    constructor
    · simp [walk, hnext, ht₁, ht₂, bind, Except.bind]
    · apply hI₂

end

section

variable (h : Linked t q)

include h

/-- The head of a list. -/
theorem Linked.head_eq (id : ListId) :
  (t.ptrs id).head = (q id).head?
  := (h.lists id).head_eq

theorem Linked.length_lt (id : ListId) :
  (q id).length < NPROC + 1
  := Nat.lt_succ_of_le (length_le_NPROC (h.lists id).nodup)

/-- The search along a list finds the first slot with the property. -/
theorem Linked.findFirst_eq (P : Proc → Bool) (id : ListId) :
  findFirst t P (NPROC + 1) (t.ptrs id).head = .ok ((q id).find? fun x => P (t.proc x))
  := by
  have hs := (h.lists id).seg
  have hf := h.length_lt id
  generalize (t.ptrs id).head = current at hs ⊢
  generalize NPROC + 1 = fuel at hf ⊢
  generalize q id = l at hs hf ⊢
  induction l generalizing current fuel with
  | nil =>
    obtain _ | fuel := fuel
    · cases hf
    obtain rfl := hs
    rfl
  | cons p l ih =>
    obtain _ | fuel := fuel
    · cases hf
    obtain ⟨rfl, hs⟩ := hs
    rw [findFirst, List.find?_cons]
    cases hP : P (t.proc p) with
    | true => simp
    | false =>
      simp only [Bool.false_eq_true, if_false]
      apply ih _ _ hs (by simpa using hf)

/-- The list of the runnable slots is empty: runnable slots are on the ready lists. -/
theorem Linked.runnable_nil :
  q (.list .runnable) = []
  := by
  apply List.eq_nil_iff_forall_not_mem.mpr
  intro p hp
  have := (h.mem_iff p _).mp hp
  simp only [home] at this
  split at this
  · split at this <;> simp at this
  · rename_i hne
    simp only [Option.some.injEq, ListId.list.injEq] at this
    apply hne this

theorem Linked.checkRunnableEmpty :
  checkRunnableEmpty t = .ok ()
  := by
  have := h.head_eq (.list .runnable)
  rw [h.runnable_nil] at this
  simp only [PTable.ptrs, List.head?_nil] at this
  simp [Ptable.checkRunnableEmpty, this]

/-- A slot on a state list has that state, and it is not runnable. -/
theorem Linked.state_of_mem_list {s : ProcState} (hp : p ∈ q (.list s)) :
  (t.proc p).state = s ∧ s ≠ .runnable
  := by
  have hhome := (h.mem_iff p _).mp hp
  simp only [home] at hhome
  split at hhome
  · split at hhome <;> simp at hhome
  · rename_i hne
    simp only [Option.some.injEq, ListId.list.injEq] at hhome
    exact ⟨hhome, hhome ▸ hne⟩

/-- A slot on a ready list is runnable and has the priority of the list. -/
theorem Linked.of_mem_ready {j : Fin (maxPrio + 1)} (hp : p ∈ q (.ready j)) :
  (t.proc p).state = .runnable ∧ (t.proc p).priority = j
  := by
  have hhome := (h.mem_iff p _).mp hp
  simp only [home] at hhome
  split at hhome
  · rename_i hr
    split at hhome
    · simp only [Option.some.injEq, ListId.ready.injEq] at hhome
      use hr
      rw [← hhome]
    · cases hhome
  · simp at hhome

end

/-! ### Waking up -/

/-- What `wakeup1` does to a slot. -/
def woken (chan : Chan) (x : Proc) : Proc :=
  if x.state = .sleeping ∧ x.chan = chan then { x with state := .runnable } else x

/-- What the lists hold when the loop of `wakeup1` has visited the sleeping slots `done` and has
the slots `l` to visit. -/
def wokenLists (t : PTable) (chan : Chan) (q : ListId → List Slot) (done l : List Slot) :
    ListId → List Slot
  | .list s =>
      if s = .sleeping then done.filter (fun x => (t.proc x).chan ≠ chan) ++ l else q (.list s)
  | .ready j =>
      q (.ready j) ++ done.filter (fun x => (t.proc x).chan = chan ∧ (t.proc x).priority = j)

/-- The invariant of the loop of `wakeup1` started on `t₀`: the slots `l` are still to visit, and
the slots `done` have been visited. -/
structure WakeupLoop (t₀ : PTable) (q₀ : ListId → List Slot) (chan : Chan) (l : List Slot)
    (t : PTable) : Prop where
  lists : ∃ done, q₀ (.list .sleeping) = done ++ l ∧ Good t (wokenLists t₀ chan q₀ done l)
  proc : ∀ x, t.proc x = if x ∈ l then t₀.proc x else woken chan (t₀.proc x)
  vars : SameVars t₀ t

/-- Moving a visited slot to its ready list, in terms of the lists at the start. -/
theorem move_wokenLists
    {chan : Chan} {done l : List Slot} (hp : p ∉ done) (hc : (t.proc p).chan = chan)
    {j : Fin (maxPrio + 1)} (hj : (t.proc p).priority = j) :
  move (wokenLists t chan q done (p :: l)) p (.list .sleeping) (.ready j)
    = wokenLists t chan q (done ++ [p]) l
  := by
  funext id
  cases id with
  | list s =>
    rcases eq_or_ne s .sleeping with rfl | hs
    · have hp' : p ∉ done.filter (fun x => (t.proc x).chan ≠ chan) := by
        intro h
        apply hp (List.mem_of_mem_filter h)
      simp only [move, wokenLists, if_true]
      rw [List.erase_append_right _ hp', List.erase_cons_head]
      simp [hc]
    · simp [move, wokenLists, hs]
  | ready i =>
    rcases eq_or_ne i j with rfl | hi
    · simp [move, wokenLists, hc, hj]
    · have : ¬ (j : Nat) = i := by
        intro h
        apply hi (Fin.ext h.symm)
      simp [move, wokenLists, hc, hj, hi, this]

theorem wakeupOne_step
    {t₀ t : PTable} {q₀ : ListId → List Slot} {chan : Chan} {l : List Slot}
    (h : WakeupLoop t₀ q₀ chan (p :: l) t) (hnd : (q₀ (.list .sleeping)).Nodup) :
  t.next p = l.head? ∧ ∃ t', wakeupOne chan t p = .ok t' ∧ WakeupLoop t₀ q₀ chan l t'
  := by
  obtain ⟨⟨done, hdone, hq⟩, hproc, hvars⟩ := h
  rw [hdone, List.nodup_middle, List.nodup_cons, List.mem_append, not_or] at hnd
  obtain ⟨⟨hpd, hpl⟩, -⟩ := hnd
  have hp₀ : t.proc p = t₀.proc p := by
    rw [hproc p, if_pos List.mem_cons_self]
  have hmem : p ∈ wokenLists t₀ chan q₀ done (p :: l) (.list .sleeping) := by
    simp [wokenLists]
  obtain ⟨hst, -⟩ := hq.state_of_mem_list hmem
  have hproc' : ∀ x, x ≠ p → t.proc x = if x ∈ l then t₀.proc x else woken chan (t₀.proc x) := by
    intro x hx
    rw [hproc x]
    simp [hx]
  constructor
  · have hqueue := hq.lists (.list .sleeping)
    simp only [wokenLists, if_true] at hqueue
    apply hqueue.next_eq
  by_cases hc : (t.proc p).chan = chan
  · -- the slot wakes up and moves to the ready list of its priority
    have hprio := hq.bounded p (by simp [hst, Active])
    obtain ⟨t', ht', hrel, hq'⟩ := hq.toReady ({ · with state := .runnable }) priorityList
      (by simp [hst]) rfl hprio rfl
    rw [hst] at ht' hq'
    rw [move_wokenLists hpd (hp₀ ▸ hc) (by rw [← hp₀])] at hq'
    use t'
    constructor
    · rw [wakeupOne, if_pos hc, ht']
    · constructor
      · exact ⟨done ++ [p], by simp [hdone], hq'⟩
      · intro x
        rw [hrel.proc]
        rcases eq_or_ne x p with rfl | hx
        · rw [PTable.modify_proc_self, if_neg hpl, hp₀, woken, if_pos ⟨hp₀ ▸ hst, hp₀ ▸ hc⟩]
        · rw [PTable.modify_proc_of_ne _ _ hx]
          apply hproc' x hx
      · apply hvars.trans ((SameVars.modify _ _ _).trans hrel.toSameVars)
  · use t
    constructor
    · rw [wakeupOne, if_neg hc]
    · constructor
      · use done ++ [p], by simp [hdone]
        convert hq using 1
        funext id
        rw [hp₀] at hc
        cases id
        · simp [wokenLists, hc]
        · simp [wokenLists, hc]
      · intro x
        rcases eq_or_ne x p with rfl | hx
        · rw [if_neg hpl, hp₀, woken, if_neg]
          rintro ⟨-, h⟩
          apply hc (hp₀ ▸ h)
        · apply hproc' x hx
      · apply hvars

/-- `wakeup1` wakes exactly the slots that sleep on the channel, and appends them to the ready
lists of their priorities in the order of the list of the sleeping slots. -/
theorem wakeup1_spec (h : Good t q) (chan : Chan) :
  ∃ t', wakeup1 t chan = .ok t' ∧ Good t' (wokenLists t chan q (q (.list .sleeping)) []) ∧
    (∀ x, t'.proc x = woken chan (t.proc x)) ∧ SameVars t t'
  := by
  have hinit : WakeupLoop t q chan (q (.list .sleeping)) t := by
    constructor
    · use [], rfl
      convert h using 1
      funext id
      cases id with
      | list s =>
        rcases eq_or_ne s .sleeping with rfl | hs
        · simp [wokenLists]
        · simp [wokenLists, hs]
      | ready j => simp [wokenLists]
    · intro x
      split
      · rfl
      · rename_i hx
        rw [woken, if_neg]
        rintro ⟨hs, -⟩
        apply hx
        rw [h.mem_iff, home_of_ne_runnable (by simp [hs]), hs]
    · apply SameVars.refl
  obtain ⟨t', ht', ⟨⟨done, hdone, hq'⟩, hproc, hvars⟩⟩ :=
    walkSaved_rule (fun p l t hI => wakeupOne_step hI (h.lists _).nodup) hinit (h.length_lt _)
  rw [← h.head_eq] at ht'
  rw [List.append_nil] at hdone
  rw [← hdone] at hq'
  use t', ht', hq'
  constructor
  · intro x
    simpa using hproc x
  · apply hvars

/-! ### The list invariant -/

/-- The lists of the table: `q id` are the slots on the list `id`, in order. -/
structure ListInvariant (t : PTable) (q : ListId → List Slot) : Prop where
  /-- Following the links from the head visits the slots of the list and ends at null. -/
  seg : ∀ id, Seg t.next (t.ptrs id).head (q id) none
  /-- No list has a cycle. -/
  acyclic : ∀ id, (q id).Nodup
  /-- The tail is the last slot. -/
  tail : ∀ id, (t.ptrs id).tail = (q id).getLast?
  head_iff_tail : ∀ id, (t.ptrs id).head = none ↔ (t.ptrs id).tail = none
  /-- Every slot is on exactly one list. -/
  unique : ∀ p, ∃! id, p ∈ q id
  list : ∀ s, s ≠ .runnable → ∀ p, p ∈ q (.list s) ↔ (t.proc p).state = s
  runnable : q (.list .runnable) = []
  ready : ∀ j p, p ∈ q (.ready j) ↔ (t.proc p).state = .runnable ∧ (t.proc p).priority = j

theorem Good.homed (h : Good t q) (hr : (t.proc p).state = .runnable) :
  (t.proc p).priority ≤ maxPrio
  := h.bounded p (by simp [Active, hr])

theorem home_eq_list_iff {x : Proc} {s : ProcState} (hs : s ≠ .runnable) :
  home x = some (.list s) ↔ x.state = s
  := by
  constructor
  · intro h
    simp only [home] at h
    split at h
    · split at h <;> simp at h
    · simpa using h
  · rintro rfl
    apply home_of_ne_runnable hs

theorem Linked.listInvariant
    (h : Linked t q) (hb : ∀ p, (t.proc p).state = .runnable → (t.proc p).priority ≤ maxPrio) :
  ListInvariant t q
  := by
  have hhome : ∀ p, ∃ id, home (t.proc p) = some id := by
    intro p
    by_cases hr : (t.proc p).state = .runnable
    · exact ⟨_, home_of_runnable hr (hb p hr)⟩
    · exact ⟨_, home_of_ne_runnable hr⟩
  refine ⟨fun id => (h.lists id).seg, fun id => (h.lists id).nodup, fun id => (h.lists id).last,
    fun id => (h.lists id).head_none_iff_tail_none, ?_, ?_, h.runnable_nil, ?_⟩
  · intro p
    obtain ⟨id, hid⟩ := hhome p
    refine ⟨id, (h.mem_iff p id).mpr hid, ?_⟩
    intro id' hid'
    apply Option.some.inj
    rw [← hid, ← (h.mem_iff p id').mp hid']
  · intro s hs p
    rw [h.mem_iff, home_eq_list_iff hs]
  · intro j p
    constructor
    · apply h.of_mem_ready
    · rintro ⟨hs, hp⟩
      rw [h.mem_iff, home_of_runnable hs (by omega)]
      simp [hp]

theorem Good.listInvariant (h : Good t q) :
  ListInvariant t q
  := h.toLinked.listInvariant (fun _ => h.homed)

/-- The list invariant does not bound the priority of a slot that is not runnable. -/
theorem Good.listInvariant_priority
    {k : Nat} (h : Good t q) (hne : (t.proc p).state ≠ .runnable) :
  ListInvariant (t.modify p ({ · with priority := k })) q
  := by
  apply (h.toLinked.modify _).listInvariant
  · intro x hx
    rcases eq_or_ne x p with rfl | hxp
    · rw [PTable.modify_proc_self] at hx
      exact absurd hx hne
    · rw [PTable.modify_proc_of_ne _ _ hxp] at hx ⊢
      exact h.homed hx
  · rw [home_of_ne_runnable hne]
    exact if_neg hne

/-- A runnable slot has a priority in range, as it is on some list. -/
theorem ListInvariant.homed
    (h : ListInvariant t q) {p : Slot} (hr : (t.proc p).state = .runnable) :
  (t.proc p).priority ≤ maxPrio
  := by
  obtain ⟨id, hid, -⟩ := h.unique p
  cases id with
  | list s =>
    rcases eq_or_ne s .runnable with rfl | hs
    · rw [h.runnable] at hid
      cases hid
    · rw [h.list s hs p, hr] at hid
      exact absurd hid.symm hs
  | ready j =>
    rw [((h.ready j p).mp hid).2]
    omega

/-- Under the list invariant every slot is on the list that its state and priority call for. -/
theorem ListInvariant.linked (h : ListInvariant t q) :
  Linked t q
  := by
  refine ⟨fun id => ⟨h.seg id, h.tail id⟩, ?_⟩
  intro p id
  by_cases hr : (t.proc p).state = .runnable
  · rw [home_of_runnable hr (h.homed hr), Option.some.injEq]
    cases id with
    | list s =>
      rcases eq_or_ne s .runnable with rfl | hs
      · simp [h.runnable]
      · simp [h.list s hs p, hr, hs.symm]
    | ready j => simp [h.ready j p, hr, Fin.ext_iff]
  · rw [home_of_ne_runnable hr, Option.some.injEq]
    cases id with
    | list s =>
      rcases eq_or_ne s .runnable with rfl | hs
      · simp [h.runnable, hr]
      · simp [h.list s hs p]
    | ready j => simp [h.ready j p, hr]

end Xv6.Ptable
