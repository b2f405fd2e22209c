import Mathlib.Algebra.BigOperators.Fin
import Xv6.Lib.LinkedQueue

/-!
# The process table

`struct proc`, `ptable` and the list management functions of `proc.c`, in the build with
`CS333_P3` and `CS333_P4`.  A pointer to a process is the index of its slot in `ptable.proc`,
and `none` is `NULL`.  The field `next` of the slots is the map `PTable.next`; the other fields
form the record `Proc`.  A function that can panic, follow a null pointer, index outside an array
or walk a cyclic list returns in `Except Fault`.
-/

namespace Xv6.Ptable

/-- `NPROC`, the number of slots. -/
abbrev NPROC : Nat := 64

/-- `NOFILE`, the number of open files of a process. -/
abbrev NOFILE : Nat := 16

/-- `MAXPRIO`, the highest priority. -/
abbrev maxPrio : Nat := 6

/-- `BUDGET`, the ticks a process may run before its priority drops. -/
def BUDGET : Int32 := 125

/-- `TICKS_TO_PROMOTE`, the ticks between two promotions. -/
def TICKS_TO_PROMOTE : UInt32 := 4 * 1000

/-- `DEFAULT_UID`. -/
def DEFAULT_UID : UInt32 := 67

/-- `DEFAULT_GID`. -/
def DEFAULT_GID : UInt32 := 76

/-- `PGSIZE`. -/
def PGSIZE : UInt32 := 4096

/-- The index of a slot of `ptable.proc`. -/
abbrev Slot : Type := Fin NPROC

instance : NeZero NPROC := ⟨by decide⟩

/-- `enum procstate`. -/
inductive ProcState where
  | unused
  | embryo
  | sleeping
  | runnable
  | running
  | zombie
  deriving DecidableEq, Repr

/-- A channel a process sleeps on: the address of a slot, the address of some other object, or
null. -/
inductive Chan where
  | null
  | proc (p : Slot)
  | other (address : Nat)
  deriving DecidableEq, Repr

/-- The channel with the address of a possibly null pointer to a slot. -/
def Chan.ofPtr : Option Slot → Chan
  | none => .null
  | some p => .proc p

/-- `struct proc` without `next`. Files and inodes are named by their positions in the file table
and the inode cache. -/
structure Proc where
  sz : UInt32
  kstack : Bool
  state : ProcState
  pid : UInt32
  parent : Option Slot
  chan : Chan
  killed : Bool
  ofile : Fin NOFILE → Option Nat
  cwd : Option Nat
  startTicks : UInt32
  uid : UInt32
  gid : UInt32
  cpuTicksTotal : UInt32
  cpuTicksIn : UInt32
  priority : Nat
  budget : Int32

/-- `struct ptrs`. -/
structure Ptrs where
  head : Option Slot
  tail : Option Slot
  deriving DecidableEq, Repr

/-- The lists of `ptable`: `list[s]` for a state `s`, and `ready[j]` for a priority `j`. -/
inductive ListId where
  | list (s : ProcState)
  | ready (j : Fin (maxPrio + 1))
  deriving DecidableEq, Repr

/-- `ptable`, with the variables `nextpid`, `initproc` and `ticks`. -/
structure PTable where
  proc : Slot → Proc
  next : Slot → Option Slot
  list : ProcState → Ptrs
  ready : Fin (maxPrio + 1) → Ptrs
  promoteAtTime : UInt32
  nextpid : UInt32
  initproc : Option Slot
  ticks : UInt32

/-- What stops the kernel: a panic of `proc.c`, or an operation without defined behaviour. -/
inductive Fault where
  /-- `Empty list or process not in list`, in any of its three spellings. -/
  | emptyList
  /-- `process state not same as asserted state.` -/
  | assertState
  /-- `Runnable list should be empty`, in `exit` and `wait` with a leading `The`. -/
  | runnableList
  /-- `p->priority not same as in ready list` -/
  | priorityList
  /-- `sched running` -/
  | schedRunning
  /-- `init exiting` -/
  | initExiting
  /-- `userinit: out of memory?` -/
  | userinitMemory
  /-- `userinit` follows the null pointer that `allocproc` returned. -/
  | userinitNull
  /-- A null pointer is followed. -/
  | nullPointer
  /-- An array is indexed outside its bounds. -/
  | outOfRange
  /-- A list walk does not end. -/
  | diverges
  deriving DecidableEq, Repr

/-- The faults that do not come from the list code: `init` exits, or there is no memory for it. -/
def Fault.outsideLists : Fault → Bool
  | .initExiting | .userinitMemory | .userinitNull => true
  | _ => false

namespace PTable

/-- The head and tail of a list. -/
def ptrs (t : PTable) : ListId → Ptrs
  | .list s => t.list s
  | .ready j => t.ready j

/-- Set the head and tail of a list. -/
def setPtrs (t : PTable) (id : ListId) (e : Ptrs) : PTable :=
  match id with
  | .list s => { t with list := Function.update t.list s e }
  | .ready j => { t with ready := Function.update t.ready j e }

/-- Change the fields of a slot. -/
def modify (t : PTable) (p : Slot) (f : Proc → Proc) : PTable :=
  { t with proc := Function.update t.proc p (f (t.proc p)) }

@[simp]
theorem ptrs_setPtrs_self (t : PTable) (id : ListId) (e : Ptrs) :
  (t.setPtrs id e).ptrs id = e
  := by
  cases id
  · simp [setPtrs, ptrs]
  · simp [setPtrs, ptrs]

theorem ptrs_setPtrs_of_ne (t : PTable) {id id' : ListId} (e : Ptrs) (h : id' ≠ id) :
  (t.setPtrs id e).ptrs id' = t.ptrs id'
  := by
  cases id <;> cases id' <;> simp_all [setPtrs, ptrs]

@[simp]
theorem setPtrs_next (t : PTable) (id : ListId) (e : Ptrs) :
  (t.setPtrs id e).next = t.next
  := by cases id <;> rfl

@[simp]
theorem modify_next (t : PTable) (p : Slot) (f : Proc → Proc) :
  (t.modify p f).next = t.next
  := rfl

@[simp]
theorem modify_ptrs (t : PTable) (p : Slot) (f : Proc → Proc) (id : ListId) :
  (t.modify p f).ptrs id = t.ptrs id
  := by cases id <;> rfl

@[simp]
theorem modify_proc_self (t : PTable) (p : Slot) (f : Proc → Proc) :
  (t.modify p f).proc p = f (t.proc p)
  := Function.update_self ..

theorem modify_proc_of_ne (t : PTable) {p x : Slot} (f : Proc → Proc) (h : x ≠ p) :
  (t.modify p f).proc x = t.proc x
  := Function.update_of_ne h ..

end PTable

/-! ### List management -/

/-- `stateListAdd`: append `p` to a list. -/
def stateListAdd (t : PTable) (id : ListId) (p : Slot) : Except Fault PTable :=
  match (t.ptrs id).head with
  | none =>
      .ok ({ t with next := Function.update t.next p none }.setPtrs id ⟨some p, some p⟩)
  | some h =>
      match (t.ptrs id).tail with
      | none => .error .nullPointer
      | some l =>
          -- `tail->next = p; tail = tail->next; tail->next = NULL`
          .ok ({ t with next := Function.update (Function.update t.next l (some p)) p none }.setPtrs
            id ⟨some h, some p⟩)

/-- The search loop of `stateListRemove`: the links `previous` and `current` when it stops, with
`current` null if `p` was not found. -/
def findLoop (next : Slot → Option Slot) (p : Slot) :
    Nat → Option Slot → Option Slot → Except Fault (Option Slot × Option Slot)
  | 0, _, _ => .error .diverges
  | _ + 1, previous, none => .ok (previous, none)
  | fuel + 1, previous, some current =>
      if current = p then .ok (previous, some current)
      else findLoop next p fuel (some current) (next current)

/-- `stateListRemove`: remove `p` from a list.  The result is `0`, or `-1` if `p` is not on the
list. -/
def stateListRemove (t : PTable) (id : ListId) (p : Slot) : Except Fault (Int × PTable) :=
  match (t.ptrs id).head, (t.ptrs id).tail with
  | some h, some l =>
      if h = p then
        .ok (0, t.setPtrs id ⟨t.next h, if l = p then none else some l⟩)
      else do
        let (previous, current) ← findLoop t.next p (NPROC + 1) none (some h)
        match current with
        | none => .ok (-1, t)
        | some c =>
            match previous with
            | none => .error .nullPointer
            | some v =>
                if c = l then
                  .ok (0, { t with
                    next := Function.update (Function.update t.next v none) p none }.setPtrs
                      id ⟨some h, some v⟩)
                else
                  .ok (0, { t with
                    next := Function.update (Function.update t.next v (t.next c)) p none })
  | _, _ => .ok (-1, t)

/-- `assertState`. -/
def assertState (t : PTable) (p : Slot) (s : ProcState) : Except Fault Unit :=
  if (t.proc p).state ≠ s then .error .assertState else .ok ()

/-- `if(stateListRemove(..) == -1) panic(..)`, as every caller has it. -/
def removeOrPanic (t : PTable) (id : ListId) (p : Slot) : Except Fault PTable := do
  let (r, t) ← stateListRemove t id p
  if r = -1 then .error .emptyList else .ok t

/-- `initProcessLists`: every list becomes empty. -/
def initProcessLists (t : PTable) : PTable :=
  { t with list := fun _ => ⟨none, none⟩, ready := fun _ => ⟨none, none⟩ }

/-- The loop of `initFreeList` over the slots of a list. -/
def freeSlots (t : PTable) : List Slot → Except Fault PTable
  | [] => .ok t
  | p :: ps => do
      let t ← stateListAdd (t.modify p ({ · with state := .unused })) (.list .unused) p
      freeSlots t ps

/-- `initFreeList`: every slot becomes unused and goes to the free list, in slot order. -/
def initFreeList (t : PTable) : Except Fault PTable :=
  freeSlots t (List.finRange NPROC)

/-- `&ptable.ready[priority]`. -/
def readyList (priority : Nat) : Except Fault ListId :=
  if h : priority < maxPrio + 1 then .ok (.ready ⟨priority, h⟩) else .error .outOfRange

end Xv6.Ptable
