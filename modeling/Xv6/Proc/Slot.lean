import Xv6.Proc.Invariant

/-!
# The critical sections that change one slot

`allocproc`, the ends of `userinit` and `fork`, the rollbacks, `yield`, `sleep`, the reaping of
`wait` and the dispatch of `scheduler` each move one slot from one list to another.  On a good
table they succeed, leave a good table and change no other slot.
-/

namespace Xv6.Ptable

variable {t t' t'' : PTable} {q : ListId → List Slot} {p : Slot}

/-- No slot but `p` changes, and no variable beside the slots. -/
structure ChangesOnly (p : Slot) (t t' : PTable) : Prop extends SameVars t t' where
  others : ∀ x, x ≠ p → t'.proc x = t.proc x

theorem ChangesOnly.modify (t : PTable) (p : Slot) (f : Proc → Proc) :
  ChangesOnly p t (t.modify p f)
  := ⟨SameVars.modify t p f, fun _ hx => PTable.modify_proc_of_ne t f hx⟩

theorem ChangesOnly.trans (h : ChangesOnly p t t') (h' : ChangesOnly p t' t'') :
  ChangesOnly p t t''
  := ⟨h.toSameVars.trans h'.toSameVars, fun x hx => (h'.others x hx).trans (h.others x hx)⟩

theorem Relinked.changesOnly {f : Proc → Proc} (h : Relinked (t.modify p f) t') :
  ChangesOnly p t t'
  := by
  constructor
  · apply (SameVars.modify t p f).trans h.toSameVars
  · intro x hx
    rw [h.proc, PTable.modify_proc_of_ne _ _ hx]

theorem Relinked.proc_self {f : Proc → Proc} (h : Relinked (t.modify p f) t') :
  t'.proc p = f (t.proc p)
  := by
  rw [h.proc, PTable.modify_proc_self]

/-! ### Creating a process -/

section

variable (h : Good t q)

include h

/-- `allocproc` takes an unused slot and gives it the next pid. -/
theorem allocLocked_spec (hp : (t.proc p).state = .unused) :
  ∃ t', allocLocked t p = .ok t' ∧
    Good t' (move q p (.list .unused) (.list .embryo)) ∧
    t'.proc p = { t.proc p with state := .embryo, pid := t.nextpid } ∧
    (∀ x, x ≠ p → t'.proc x = t.proc x) ∧ t'.nextpid = t.nextpid + 1 ∧
    t'.initproc = t.initproc ∧ t'.ticks = t.ticks ∧ t'.promoteAtTime = t.promoteAtTime
  := by
  obtain ⟨t₁, ht₁, hrel, hq₁⟩ := h.toState (p := p)
    (fun x => { x with state := .embryo, pid := t.nextpid }) (by simp [hp]) (by simp)
    (by simp [Active])
  rw [hp] at ht₁ hq₁
  refine ⟨{ t₁ with nextpid := t.nextpid + 1 }, ?_, hq₁.of_eq _ rfl rfl ?_, hrel.proc_self,
    hrel.changesOnly.others, rfl, hrel.changesOnly.initproc, hrel.changesOnly.ticks,
    hrel.changesOnly.promoteAtTime⟩
  · simp [allocLocked, ht₁, bind, Except.bind]
  · intro id
    cases id <;> rfl

section

variable (hp : (t.proc p).state = .embryo)

include hp

/-- The end of `allocproc` gives an embryo the highest priority. -/
theorem allocSetup_spec :
  Good (allocSetup t p) q ∧ ((allocSetup t p).proc p).state = .embryo ∧
    ((allocSetup t p).proc p).priority = maxPrio ∧ ChangesOnly p t (allocSetup t p)
  := by
  refine ⟨h.modify rfl ?_ (fun _ => le_refl _), ?_, ?_, ChangesOnly.modify t p _⟩
  · intro hr
    cases hp.symm.trans hr
  · rw [allocSetup, PTable.modify_proc_self]
    apply hp
  · rw [allocSetup, PTable.modify_proc_self]

omit hp in
/-- The assignments of `fork` keep the state and the priority of the child. -/
theorem forkFill_spec (curproc np : Slot) :
  Good (forkFill t curproc np) q ∧
    ((forkFill t curproc np).proc np).state = (t.proc np).state ∧
    ((forkFill t curproc np).proc np).priority = (t.proc np).priority ∧
    ChangesOnly np t (forkFill t curproc np)
  := by
  rw [forkFill]
  refine ⟨?_, ?_, ?_, ChangesOnly.modify t np _⟩
  · apply h.modify_same rfl rfl
  · rw [PTable.modify_proc_self]
  · rw [PTable.modify_proc_self]

omit hp in
/-- The assignments of `userinit` keep the states and the priorities. -/
theorem userinitFill_spec (p : Slot) (root : Nat) :
  Good (userinitFill t p root) q ∧
    ((userinitFill t p root).proc p).state = (t.proc p).state ∧
    ((userinitFill t p root).proc p).priority = (t.proc p).priority ∧
    ∀ x, x ≠ p → (userinitFill t p root).proc x = t.proc x
  := by
  have h₁ : Good (t.modify p ({ · with sz := PGSIZE, cwd := some root })) q :=
    h.modify_same rfl rfl
  rw [userinitFill]
  refine ⟨h₁.of_eq _ ?_ ?_ ?_, ?_, ?_, ?_⟩
  · rfl
  · rfl
  · intro id
    cases id <;> rfl
  · rw [PTable.modify_proc_self]
  · rw [PTable.modify_proc_self]
  · intro x hx
    rw [PTable.modify_proc_of_ne _ _ hx]

/-- A slot that is rolled back becomes unused again. -/
theorem rollback_spec :
  ∃ t', rollback t p = .ok t' ∧ Good t' (move q p (.list .embryo) (.list .unused)) ∧
    t'.proc p = { t.proc p with kstack := false, state := .unused } ∧ ChangesOnly p t t'
  := by
  have h₁ : Good (t.modify p ({ · with kstack := false })) q := h.modify_same rfl rfl
  obtain ⟨t', ht', hrel, hq'⟩ := h₁.toState (p := p) ({ · with state := .unused })
    (by simp [hp]) (by simp) (by simp [Active])
  simp only [PTable.modify_proc_self, hp] at ht' hq'
  refine ⟨t', ht', hq', ?_, (ChangesOnly.modify t p _).trans hrel.changesOnly⟩
  rw [hrel.proc_self, PTable.modify_proc_self]

/-- The last critical section of `userinit` makes the first process runnable. -/
theorem userinitEnqueue_spec (hprio : (t.proc p).priority = maxPrio) :
  ∃ t', userinitEnqueue t p = .ok t' ∧
    Good t' (move q p (.list .embryo) (.ready (Fin.last maxPrio))) ∧
    t'.proc p = { t.proc p with state := .runnable, uid := DEFAULT_UID, gid := DEFAULT_GID } ∧
    ChangesOnly p { t with promoteAtTime := t.ticks + TICKS_TO_PROMOTE } t'
  := by
  obtain ⟨t', ht', hrel, hq'⟩ := (h.setPromoteAtTime (t.ticks + TICKS_TO_PROMOTE)).toReady (p := p)
    ({ · with state := .runnable, uid := DEFAULT_UID, gid := DEFAULT_GID }) priorityList
    (by simp [hp]) rfl (by simp [hprio]) rfl
  simp only [hp, hprio] at ht' hq'
  exact ⟨t', ht', hq', hrel.proc_self, hrel.changesOnly⟩

/-- The last critical section of `fork` makes the child runnable. -/
theorem forkEnqueue_spec (hprio : (t.proc p).priority = maxPrio) :
  ∃ t', forkEnqueue t p = .ok t' ∧
    Good t' (move q p (.list .embryo) (.ready (Fin.last maxPrio))) ∧
    t'.proc p = { t.proc p with state := .runnable } ∧ ChangesOnly p t t'
  := by
  obtain ⟨t', ht', hrel, hq'⟩ := h.toReady (p := p) ({ · with state := .runnable })
    (fun _ => readyList maxPrio) (by simp [hp]) rfl (by simp [hprio])
    (by simp [priorityList, hprio])
  simp only [hp, hprio] at ht' hq'
  exact ⟨t', ht', hq', hrel.proc_self, hrel.changesOnly⟩

end

end

/-! ### Giving up the processor -/

/-- What `sched` does to the slot that gives up the processor. -/
def tallied (ticks : UInt32) (x : Proc) : Proc :=
  { x with cpuTicksTotal := x.cpuTicksTotal + (ticks - x.cpuTicksIn) }

theorem sched_eq (h : (t.proc p).state ≠ .running) :
  sched t p = .ok (t.modify p (tallied t.ticks))
  := if_neg h

@[simp]
theorem charge_state (ticks : UInt32) (x : Proc) :
  (charge ticks x).state = x.state
  := by
  simp only [charge]
  split <;> rfl

theorem charge_chan (ticks : UInt32) (x : Proc) :
  (charge ticks x).chan = x.chan
  := by
  simp only [charge]
  split <;> rfl

/-- The charge does not depend on the state and the channel. -/
theorem charge_sleeping (ticks : UInt32) (x : Proc) (chan : Chan) :
  charge ticks { x with chan := chan, state := .sleeping }
    = { charge ticks x with chan := chan, state := .sleeping }
  := by
  simp only [charge]
  split <;> rfl

/-- A charge never raises the priority. -/
theorem charge_priority_le (ticks : UInt32) (x : Proc) :
  (charge ticks x).priority ≤ x.priority
  := by
  simp only [charge]
  split
  · simp only
    split
    · omega
    · rfl
  · rfl

/-- `yield` charges the slot and appends it to the ready list of its new priority. -/
theorem yield_spec (h : Good t q) (hp : (t.proc p).state = .running) :
  ∃ t' j, yield t p = .ok t' ∧ Good t' (move q p (.list .running) (.ready j)) ∧
    j = (charge t.ticks (t.proc p)).priority ∧
    t'.proc p = tallied t.ticks { charge t.ticks (t.proc p) with state := .runnable } ∧
    ChangesOnly p t t'
  := by
  have hprio : (charge t.ticks (t.proc p)).priority ≤ maxPrio :=
    (charge_priority_le _ _).trans (h.bounded p (by simp [Active, hp]))
  have h₁ : Good (t.modify p (charge t.ticks)) q :=
    h.modify (charge_state _ _) (by simp [hp]) (fun _ => hprio)
  obtain ⟨t₂, ht₂, hrel, hq₂⟩ := h₁.toReady (p := p) ({ · with state := .runnable }) priorityList
    (by simp [hp]) rfl (by simpa using hprio) rfl
  simp only [PTable.modify_proc_self, charge_state, hp] at ht₂ hq₂
  have honly := (ChangesOnly.modify t p (charge t.ticks)).trans hrel.changesOnly
  have hsched : sched t₂ p = .ok (t₂.modify p (tallied t.ticks)) := by
    rw [sched_eq (by simp [hrel.proc]), honly.ticks]
  refine ⟨t₂.modify p (tallied t.ticks), _, ?_, hq₂.modify_same rfl rfl, rfl, ?_,
    honly.trans (ChangesOnly.modify _ _ _)⟩
  · simp [yield, ht₂, hsched, bind, Except.bind]
  · rw [PTable.modify_proc_self, hrel.proc_self, PTable.modify_proc_self]

/-- `sleep` moves the slot to the list of the sleeping slots and charges it. -/
theorem sleep_spec (h : Good t q) (hp : (t.proc p).state = .running) (chan : Chan) :
  ∃ t', sleep t p chan = .ok t' ∧ Good t' (move q p (.list .running) (.list .sleeping)) ∧
    t'.proc p
      = tallied t.ticks (charge t.ticks { t.proc p with chan := chan, state := .sleeping }) ∧
    ChangesOnly p t t'
  := by
  have hbound := h.bounded p (by simp [Active, hp])
  obtain ⟨t₁, ht₁, hrel, hq₁⟩ := h.toState (p := p)
    (fun x => { x with chan := chan, state := .sleeping }) (by simp [hp]) (by simp)
    (fun _ => hbound)
  simp only [hp] at ht₁ hq₁
  have hst : (t₁.proc p).state = .sleeping := by
    rw [hrel.proc_self]
  have hprio : (charge t.ticks (t₁.proc p)).priority ≤ maxPrio :=
    (charge_priority_le _ _).trans (hq₁.bounded p (by simp [Active, hst]))
  have h₂ : Good (t₁.modify p (charge t.ticks)) (move q p (.list .running) (.list .sleeping)) :=
    hq₁.modify (charge_state _ _) (by simp [hst]) (fun _ => hprio)
  have hsched : sched (t₁.modify p (charge t.ticks)) p
      = .ok ((t₁.modify p (charge t.ticks)).modify p (tallied t.ticks)) := by
    rw [sched_eq (by simp [hst])]
    rw [← hrel.changesOnly.ticks]
    rfl
  refine ⟨_, ?_, h₂.modify_same (f := tallied t.ticks) rfl rfl, ?_,
    hrel.changesOnly.trans ((ChangesOnly.modify _ _ _).trans (ChangesOnly.modify _ _ _))⟩
  · simp [sleep, ht₁, hrel.changesOnly.ticks, hsched, bind, Except.bind]
  · rw [PTable.modify_proc_self, PTable.modify_proc_self, hrel.proc_self]

/-! ### Reaping and dispatching -/

/-- `wait` frees the slot of a zombie. -/
theorem reap_spec (h : Good t q) (hp : (t.proc p).state = .zombie) :
  ∃ t', reap t p = .ok t' ∧ Good t' (move q p (.list .zombie) (.list .unused)) ∧
    t'.proc p = { t.proc p with kstack := false, pid := 0, parent := none, killed := false,
                                state := .unused } ∧
    ChangesOnly p t t'
  := by
  have h₁ : Good (t.modify p fun x =>
      { x with kstack := false, pid := 0, parent := none, killed := false }) q :=
    h.modify_same rfl rfl
  obtain ⟨t', ht', hrel, hq'⟩ := h₁.toState (p := p) ({ · with state := .unused })
    (by simp [hp]) (by simp) (by simp [Active])
  simp only [PTable.modify_proc_self, hp] at ht' hq'
  refine ⟨t', ht', hq', ?_, (ChangesOnly.modify t p _).trans hrel.changesOnly⟩
  rw [hrel.proc_self, PTable.modify_proc_self]

/-- What `scheduler` does to the slot it switches to. -/
def dispatched (ticks : UInt32) (x : Proc) : Proc :=
  { x with state := .running, cpuTicksIn := ticks }

/-- The head of a ready list is dispatched. -/
theorem dispatch_head
    (h : Good t q) {j : Fin (maxPrio + 1)} (hp : p ∈ q (.ready j)) :
  ∃ t', changeState t p (fun _ => .ok (.ready j)) .runnable ({ · with state := .running })
      stateList = .ok t' ∧
    Good (t'.modify p ({ · with cpuTicksIn := t'.ticks }))
      (move q p (.ready j) (.list .running)) ∧
    (t'.modify p ({ · with cpuTicksIn := t'.ticks })).proc p = dispatched t.ticks (t.proc p) ∧
    ChangesOnly p t (t'.modify p ({ · with cpuTicksIn := t'.ticks }))
  := by
  obtain ⟨hst, hprio⟩ := h.of_mem_ready hp
  obtain ⟨t', ht', hrel, hq'⟩ := h.changeState (p := p) (fun _ => .ok (.ready j)) stateList
    ({ · with state := .running }) ((h.mem_iff p _).mp hp) rfl
    (home_of_ne_runnable (by simp)) rfl (fun _ => h.bounded p (by simp [Active, hst]))
  rw [hst] at ht'
  refine ⟨t', ht', hq'.modify_same rfl rfl, ?_, hrel.changesOnly.trans (ChangesOnly.modify _ _ _)⟩
  rw [PTable.modify_proc_self, hrel.proc_self, hrel.changesOnly.ticks]
  rfl

/-- `scheduler` switches to the head of the first ready list that is not empty, if there is
one. -/
theorem dispatch_spec (h : Good t q) (js : List (Fin (maxPrio + 1))) :
  (dispatch t js = .ok (none, t) ∧ ∀ j ∈ js, q (.ready j) = []) ∨
  ∃ t' p j, dispatch t js = .ok (some p, t') ∧
    js.find? (fun i => q (.ready i) ≠ []) = some j ∧ (q (.ready j)).head? = some p ∧
    Good t' (move q p (.ready j) (.list .running)) ∧
    t'.proc p = dispatched t.ticks (t.proc p) ∧ ChangesOnly p t t'
  := by
  induction js with
  | nil =>
    left
    exact ⟨rfl, by simp⟩
  | cons j js ih =>
    have hhead : (t.ready j).head = (q (.ready j)).head? := h.head_eq (.ready j)
    cases hq : q (.ready j) with
    | nil =>
      rw [hq, List.head?_nil] at hhead
      rcases ih with ⟨hd, hnil⟩ | ⟨t', p, i, hd, hfind, hrest⟩
      · left
        constructor
        · rw [dispatch, hhead]
          apply hd
        · intro i hi
          rcases List.mem_cons.mp hi with rfl | hi
          · apply hq
          · apply hnil i hi
      · right
        refine ⟨t', p, i, ?_, ?_, hrest⟩
        · rw [dispatch, hhead]
          apply hd
        · rw [List.find?_cons_of_neg (by simp [hq]), hfind]
    | cons p l =>
      right
      rw [hq, List.head?_cons] at hhead
      obtain ⟨t', ht', hgood, hproc, honly⟩ := dispatch_head h (p := p) (j := j) (by simp [hq])
      refine ⟨_, p, j, ?_, ?_, ?_, hgood, hproc, honly⟩
      · rw [dispatch, hhead]
        simp [ht', bind, Except.bind]
      · rw [List.find?_cons_of_pos (by simp [hq])]
      · rw [hq, List.head?_cons]

end Xv6.Ptable
