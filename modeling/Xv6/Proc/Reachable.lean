import Xv6.Proc.Refine

/-!
# The reachable states of the kernel

The initial states satisfy the invariant and every step keeps it, and no step fails in the list
code, as long as `allocproc` enters its critical section with a slot that is still free.
-/

namespace Xv6.Ptable

/-- A step keeps the invariant, or it fails with a fault that does not come from the list code. -/
abbrev Fine : Option (Except Fault Sys) → Prop :=
  System.Outcome (fun f => f.outsideLists = false) Inv

/-- Every step keeps the invariant when `allocproc` enters its critical section with a free
slot. -/
theorem Inv.fine_step {s : Sys} (h : Inv s) {l : Label} (hl : AllocFresh s l) :
  Fine (s.step l)
  := by
  obtain ⟨q, hq⟩ := h.good
  apply (h.refines_step hq hl).mono
  rintro s' ⟨⟨q', hq', -⟩, hstep⟩
  apply (h.owned.step hstep).inv hq'

/-! ### The initial states -/

/-- What the lists hold when the slots `done` have been freed. -/
def freed (done : List Slot) : ListId → List Slot :=
  fun id => if id = .list .unused then done else []

/-- The loop of `initFreeList`. -/
theorem freeSlots_spec
    {t : PTable} {done ps : List Slot} (hnd : (done ++ ps).Nodup) (h : Lists t (freed done)) :
  ∃ t', freeSlots t ps = .ok t' ∧ Lists t' (freed (done ++ ps)) ∧
    (∀ p, t'.proc p = if p ∈ ps then { t.proc p with state := .unused } else t.proc p) ∧
    SameVars t t'
  := by
  induction ps generalizing t done with
  | nil => exact ⟨t, rfl, by simpa using h, by simp, .refl t⟩
  | cons p ps ih =>
    have hpd : p ∉ done := by
      intro hp
      apply (List.nodup_append.mp hnd).2.2 p hp p List.mem_cons_self rfl
    have hpps : p ∉ ps := (List.nodup_cons.mp (List.nodup_append.mp hnd).2.1).1
    have h₁ : Lists (t.modify p ({ · with state := .unused })) (freed done) := by
      intro id
      rw [HoldsList, PTable.modify_ptrs]
      apply h id
    obtain ⟨t₂, ht₂, hrel, h₂⟩ := h₁.add (p := p) (by
        intro x id id' hx hx'
        simp only [freed, List.mem_ite_nil_right] at hx hx'
        rw [hx.1, hx'.1]) (by
        intro id hp
        simp only [freed, List.mem_ite_nil_right] at hp
        apply hpd hp.2) (.list .unused)
    have hfreed : (fun id => if id = .list .unused then freed done (.list .unused) ++ [p]
        else freed done id) = freed (done ++ [p]) := by
      funext id
      simp only [freed, if_true]
      split
      · rfl
      · rfl
    rw [hfreed] at h₂
    obtain ⟨t₃, ht₃, h₃, hproc, hvars⟩ := ih (by simpa using hnd) h₂
    refine ⟨t₃, ?_, by simpa using h₃, ?_, hrel.changesOnly.toSameVars.trans hvars⟩
    · simp [freeSlots, ht₂, ht₃, bind, Except.bind]
    · intro x
      rw [hproc]
      rcases eq_or_ne x p with rfl | hx
      · simp [hpps, hrel.proc_self]
      · simp [hx, hrel.changesOnly.others x hx]

/-- `initProcessLists` and `initFreeList` leave a good table with all slots free. -/
theorem initFreeList_spec (t : PTable) :
  ∃ t', initFreeList (initProcessLists t) = .ok t' ∧ Good t' (freed (List.finRange NPROC)) ∧
    (∀ p, t'.proc p = { t.proc p with state := .unused }) ∧ SameVars t t'
  := by
  have h : Lists (initProcessLists t) (freed []) := by
    intro id
    have : freed [] id = [] := by
      simp [freed]
    rw [HoldsList, this]
    cases id <;> exact ⟨rfl, rfl⟩
  obtain ⟨t', ht', hl, hmem, hvars⟩ := freeSlots_spec (List.nodup_finRange NPROC) h
  have hproc : ∀ p, t'.proc p = { t.proc p with state := .unused } := by
    intro p
    apply (hmem p).trans (if_pos (List.mem_finRange p))
  have hun : ∀ p, (t'.proc p).state = .unused := by
    intro p
    rw [hproc]
  refine ⟨t', ht', ⟨⟨hl, ?_⟩, ?_⟩, hproc, ?_⟩
  · intro p id
    rw [home_of_ne_runnable (by simp [hun]), hun]
    simp [freed, eq_comm]
  · intro p hp
    simp [hun, Active] at hp
  · exact ⟨hvars.promoteAtTime, hvars.nextpid, hvars.initproc, hvars.ticks⟩

section

variable {s : Sys} (h : Booted s)

include h

/-- The table in the initial states. -/
theorem Booted.table :
  ∃ ticks time, Good s.pt (freed (List.finRange NPROC)) ∧ (∀ p, s.pt.proc p = zeroProc) ∧
    SameVars (bootTable ticks time) s.pt
  := by
  obtain ⟨⟨ticks, time, ht⟩, -⟩ := h
  obtain ⟨t', ht', hgood, hproc, hvars⟩ := initFreeList_spec (bootTable ticks time)
  rw [ht, Except.ok.injEq] at ht'
  subst ht'
  exact ⟨ticks, time, hgood, hproc, hvars⟩

/-- In the initial states all slots are zero. -/
theorem Booted.proc_eq (p : Slot) :
  s.pt.proc p = zeroProc
  := by
  obtain ⟨ticks, time, -, hproc, -⟩ := h.table
  apply hproc

theorem inv_of_booted :
  Inv s
  := by
  obtain ⟨ticks, time, hgood, -⟩ := h.table
  obtain ⟨-, hcpu, hthread, hboot⟩ := h
  have hpend : ∀ o, s.pending o = none := by
    intro o
    cases o with
    | boot =>
      rw [Sys.pending, hboot]
      rfl
    | proc p =>
      rw [Sys.pending, hthread]
      rfl
  refine ⟨⟨_, hgood⟩, ?_, ?_, ?_, ?_, ?_⟩
  · simp [hcpu]
  · simp [hcpu]
  · simp [hpend]
  · simp [hpend]
  · simp [hpend]

end

/-- The table after the first critical section of `userinit`, at tick `0`. -/
def firstTable : PTable :=
  match initFreeList (initProcessLists (bootTable 0 TICKS_TO_PROMOTE)) with
  | .ok t => t
  | .error _ => bootTable 0 TICKS_TO_PROMOTE

/-- An initial state of the kernel. -/
def firstSys : Sys where
  pt := firstTable
  cpu := fun _ => none
  thread := fun _ => ⟨.user, false⟩
  boot := .alloc

theorem booted_firstSys :
  Booted firstSys
  := by
  obtain ⟨t', ht', -⟩ := initFreeList_spec (bootTable 0 TICKS_TO_PROMOTE)
  refine ⟨⟨0, TICKS_TO_PROMOTE, ?_⟩, rfl, rfl, rfl⟩
  rw [ht']
  simp [firstSys, firstTable, ht']

/-! ### The list operations -/

/-- The lists other than `id` are as before, and so are all that have no slot of `l`. -/
def OthersKept (t t' : PTable) (id : ListId) (l : List Slot) : Prop :=
  (∀ id', id' ≠ id → t'.ptrs id' = t.ptrs id') ∧
  ∀ head tail l', IsQueue t.next head tail l' → (∀ x ∈ l', x ∉ l) → IsQueue t'.next head tail l'

theorem OthersKept.setPtrs
    {t : PTable} {l : List Slot} {nx : Slot → Option Slot} (hnx : ∀ x ∉ l, nx x = t.next x)
    (id : ListId) (e : Ptrs) :
  OthersKept t ({ t with next := nx }.setPtrs id e) id l
  := by
  constructor
  · intro id' hid
    rw [PTable.ptrs_setPtrs_of_ne _ _ hid]
    cases id' <;> rfl
  · intro head tail l' hq hl
    rw [PTable.setPtrs_next]
    apply hq.congr
    intro x hx
    apply hnx x (hl x hx)

/-- On a list that holds the slots `l`, `stateListAdd` appends a slot that is not there;
`stateListRemove` takes a slot out and returns `0`, or returns `-1` and changes nothing.  Both keep
the other lists. -/
theorem stateList_operations
    {t : PTable} {id : ListId} {l : List Slot} (h : HoldsList t id l) (p : Slot) :
  (p ∉ l → ∃ t', stateListAdd t id p = .ok t' ∧ HoldsList t' id (l ++ [p]) ∧
    OthersKept t t' id (p :: l)) ∧
  (p ∈ l → ∃ t', stateListRemove t id p = .ok (0, t') ∧ HoldsList t' id (l.erase p) ∧
    OthersKept t t' id l) ∧
  (p ∉ l → stateListRemove t id p = .ok (-1, t))
  := by
  refine ⟨?_, ?_, stateListRemove_of_notMem h⟩
  · intro hp
    obtain ⟨nx, e, hadd, hq, hnx⟩ := stateListAdd_of_notMem h hp
    refine ⟨_, hadd, by simpa [HoldsList] using hq, .setPtrs ?_ id e⟩
    intro x hx
    rw [List.mem_cons, not_or] at hx
    apply hnx x hx.1 hx.2
  · intro hp
    obtain ⟨nx, e, hremove, hq, hnx⟩ := stateListRemove_of_mem h hp
    exact ⟨_, hremove, by simpa [HoldsList] using hq, .setPtrs hnx id e⟩

/-- A slot is taken out of the middle of the free list. -/
theorem stateList_operations_free :
  HoldsList firstTable (.list .unused) (List.finRange NPROC) ∧
  ∃ t', stateListRemove firstTable (.list .unused) 5 = .ok (0, t') ∧
    HoldsList t' (.list .unused) ((List.finRange NPROC).erase 5) ∧
    OthersKept firstTable t' (.list .unused) (List.finRange NPROC)
  := by
  obtain ⟨ticks, time, hgood, -⟩ := booted_firstSys.table
  have h : HoldsList firstTable (.list .unused) (List.finRange NPROC) :=
    hgood.lists (.list .unused)
  exact ⟨h, (stateList_operations h 5).2.1 (List.mem_finRange 5)⟩

/-! ### Runs -/

/-- The labels of a run that starts `init`. -/
def initRun : List Label :=
  [.bootAlloc, .bootKalloc true, .bootSetup true 1, .bootEnqueue, .schedule 0]

/-- The labels of a `fork` on the first processor. -/
def forkSteps : List Label :=
  [.allocproc 0, .kalloc 0 true, .copyuvm 0 true, .forkEnqueue 0]

/-- The labels of a run that starts `init`, forks, and runs parent and child on two processors. -/
def forkRun : List Label :=
  initRun ++ forkSteps ++ [.schedule 1]

/-- `init` forks twice. -/
def twoForksRun : List Label :=
  initRun ++ forkSteps ++ forkSteps

/-- The invariant holds in every state reached by steps in which `allocproc` enters its critical
section with a free slot, and there no such step fails in the list code. -/
theorem reach_inv {s : Sys} (h : kernel.Reach AllocFresh s) :
  Inv s ∧ ∀ l, AllocFresh s l → ∀ f, kernel.step s l = some (.error f) →
    ¬ f.outsideLists = false
  := h.outcome (fun _ => inv_of_booted) (fun _ _ hs hl => hs.fine_step hl)

/-- In every state that the kernel reaches by critical sections that are atomic, that of `allocproc`
with its read of the free list, every slot is on exactly the list that its state and priority call
for and all lists are well formed.  No such step panics, except that `init` exits or there is no
memory for it. -/
theorem process_lists {s : Sys} (h : kernel.Reach (fun _ l => l.allocAtomic) s) :
  (∃ q, ListInvariant s.pt q) ∧
  ∀ l f, l.allocAtomic → kernel.step s l = some (.error f) →
    f = .initExiting ∨ f = .userinitMemory ∨ f = .userinitNull
  := by
  obtain ⟨hinv, hfault⟩ := reach_inv (h.mono AllocFresh.of_atomic)
  obtain ⟨q, hq⟩ := hinv.good
  refine ⟨⟨q, hq.listInvariant⟩, ?_⟩
  intro l f hl hf
  have hout := hfault l (.of_atomic s l hl) f hf
  cases f <;> simp_all [Fault.outsideLists]

theorem process_lists_after_fork :
  ∃ s, kernel.run firstSys forkRun = some s ∧ ∃ q, ListInvariant s.pt q
  := by
  have hrun : (kernel.run firstSys forkRun).isSome := by decide +kernel
  obtain ⟨s, hs⟩ := Option.isSome_iff_exists.mp hrun
  refine ⟨s, hs, (process_lists (.run (.init booted_firstSys) ?_ hs)).1⟩
  intro l hl _
  revert l
  decide

/-!
### Concurrent calls of `allocproc`

`allocproc` reads the head of the free list before it acquires `ptable.lock`.  Its critical section
panics exactly when the slot it read has been taken in the meantime, and two processes that fork
at the same time reach such a state.
-/

/-- The critical section of `allocproc` panics on a slot that is not free. -/
theorem allocLocked_of_ne_unused
    {t : PTable} {q : ListId → List Slot} (h : Good t q) {np : Slot}
    (hnp : (t.proc np).state ≠ .unused) :
  allocLocked t np = .error .emptyList ∨ allocLocked t np = .error .assertState
  := by
  by_cases hr : (t.proc np).state = .runnable
  · -- a runnable slot is not on `list[RUNNABLE]`
    left
    have hholds := h.lists (.list .runnable)
    rw [h.toLinked.runnable_nil] at hholds
    have hrem := stateListRemove_of_notMem hholds (p := np) (by simp)
    simp [allocLocked, changeState, stateList, hr, removeOrPanic, hrem, bind, Except.bind]
  · right
    obtain ⟨t₁, hrem, hrel, -⟩ := h.toLinked.remove (home_of_ne_runnable hr)
    simp [allocLocked, changeState, stateList, hrem, assertState, hrel.proc, hnp, bind,
      Except.bind]

/-- The critical section of `allocproc` panics exactly when the slot it works on is not free. -/
theorem Inv.allocLock_fails_iff {s : Sys} (h : Inv s) (c : Cpu) :
  (∃ f, kernel.step s (.allocLock c) = some (.error f)) ↔ ¬ AllocFresh s (.allocLock c)
  := by
  obtain ⟨q, hq⟩ := h.good
  have hstep : ∀ p np, s.cpu c = some p → (s.thread p).call = .allocRead np →
      kernel.step s (.allocLock c) = some (s.allocLock p np) := by
    intro p np hc hcall
    simp only [kernel, Sys.step, hc, Sys.stepOn, hcall]
  constructor
  · rintro ⟨f, hf⟩ hfresh
    cases hc : s.cpu c with
    | none => simp [kernel, Sys.step, hc] at hf
    | some p =>
      cases hcall : (s.thread p).call with
      | allocRead np =>
        obtain ⟨t', ht', -⟩ := allocLocked_spec hq (hfresh p np hc hcall)
        rw [hstep p np hc hcall] at hf
        simp [Sys.allocLock, ht', bind, Except.bind] at hf
      | _ => simp [kernel, Sys.step, hc, Sys.stepOn, hcall] at hf
  · intro hnot
    simp only [AllocFresh, not_forall] at hnot
    obtain ⟨p, np, hc, hcall, hnp⟩ := hnot
    rw [hstep p np hc hcall]
    rcases allocLocked_of_ne_unused hq hnp with hfail | hfail
    · use .emptyList
      simp only [Sys.allocLock, hfail, bind, Except.bind]
    · use .assertState
      simp only [Sys.allocLock, hfail, bind, Except.bind]

section

variable {s s' : Sys} {l : Label} (h : Inv s) (hstep : kernel.step s l = some (.ok s'))

include h hstep

/-- A step that leads to a state satisfies the condition on `allocproc`. -/
theorem Inv.allocFresh :
  AllocFresh s l
  := by
  cases l with
  | allocLock c =>
    by_contra hnot
    obtain ⟨f, hf⟩ := (h.allocLock_fails_iff c).mpr hnot
    rw [hstep] at hf
    cases hf
  | _ => trivial

/-- A step of the kernel that leads to a state is a step of the view, with a change of
`ready[MAXPRIO]`. -/
theorem Inv.view_queued {q : ListId → List Slot} (hq : Good s.pt q) :
  Queued s l (q top) s'.pt ∧ View.Step s.view l (s.dispatched l) s'.view
  := by
  have hrefines : Refines _ _ (kernel.step s l) := h.refines_step hq (h.allocFresh hstep)
  rw [hstep] at hrefines
  apply hrefines

theorem Inv.view_step :
  View.Step s.view l (s.dispatched l) s'.view
  := by
  obtain ⟨q, hq⟩ := h.good
  apply (h.view_queued hstep hq).2

end

/-- The invariant holds in every reachable state: a call of `allocproc` that lost the race for
its slot ends the run. -/
theorem inv_of_reachable {s : Sys} (h : kernel.Reachable s) :
  Inv s
  := by
  apply h.invariant (fun _ => inv_of_booted)
  intro s l s' hs _ hstep
  have hfine : Fine (kernel.step s l) := hs.fine_step (hs.allocFresh hstep)
  rw [hstep] at hfine
  apply hfine

/-- A table of the kernel after a run. -/
theorem exists_good
    (ls : List Label) (P : PTable → Prop) [DecidablePred P]
    (h : (kernel.run firstSys ls).any (fun s => decide (P s.pt)) = true) :
  ∃ t q, Good t q ∧ P t
  := by
  obtain ⟨s, -, hreach, hP⟩ := System.exists_of_run kernel booted_firstSys ls (P ·.pt) h
  obtain ⟨q, hq⟩ := (inv_of_reachable hreach).good
  exact ⟨s.pt, q, hq, hP⟩

/-- In every run in which `allocproc` enters its critical section only while the slot it read is
still free, the critical section of `allocproc` panics exactly when the slot it read is no longer
free, no other step fails in the list code, and no slot is handed to two callers. -/
theorem concurrent_allocproc {s : Sys} (h : kernel.Reach AllocFresh s) :
  (∀ c, (∃ f, kernel.step s (.allocLock c) = some (.error f)) ↔ ¬ AllocFresh s (.allocLock c)) ∧
  (∀ l f, AllocFresh s l → kernel.step s l = some (.error f) →
    f = .initExiting ∨ f = .userinitMemory ∨ f = .userinitNull) ∧
  ∀ o o' np, s.pending o = some np → s.pending o' = some np → o = o'
  := by
  obtain ⟨hinv, hfault⟩ := reach_inv h
  refine ⟨hinv.allocLock_fails_iff, ?_, hinv.owner⟩
  intro l f hl hf
  have hout := hfault l hl f hf
  cases f <;> simp_all [Fault.outsideLists]

/-- Two processes have read the head of the free list, and neither has taken the slot. -/
theorem concurrent_allocproc_after_reads :
  ∃ s, kernel.run firstSys (forkRun ++ [.allocRead 0, .allocRead 1]) = some s ∧
    ∀ o o' np, s.pending o = some np → s.pending o' = some np → o = o'
  := by
  have hrun : (kernel.run firstSys (forkRun ++ [.allocRead 0, .allocRead 1])).isSome := by
    decide +kernel
  obtain ⟨s, hs⟩ := Option.isSome_iff_exists.mp hrun
  refine ⟨s, hs, (concurrent_allocproc (.run (.init booted_firstSys) ?_ hs)).2.2⟩
  intro l hl s
  simp only [forkRun, initRun, forkSteps, List.cons_append, List.nil_append, List.mem_cons,
    List.not_mem_nil, or_false] at hl
  rcases hl with rfl | rfl | rfl | rfl | rfl | rfl | rfl | rfl | rfl | rfl | rfl | rfl <;> trivial

/-- Two processes read the head of the free list; when the first has taken the slot, the critical
section of the second panics. -/
theorem allocproc_race :
  ∃ s, kernel.Reachable s ∧
    kernel.run firstSys (forkRun ++ [.allocRead 0, .allocRead 1, .allocLock 0]) = some s ∧
    kernel.step s (.allocLock 1) = some (.error .assertState)
  := by
  apply System.exists_of_runFails booted_firstSys
  decide +kernel

end Xv6.Ptable
