import Xv6.Lib.Transition
import Xv6.Proc.Operations

/-!
# The process table under all interleavings

The states of the kernel between critical sections of `ptable.lock`: the process table, the
process each processor runs, where each process is in the kernel, and how far `userinit` has come.
The labels are the critical sections, on any processor and in any order, and the steps outside the
lock that other steps depend on.
-/

namespace Xv6.Ptable

/-- `NCPU`. -/
abbrev NCPU : Nat := 8

/-- A processor. -/
abbrev Cpu : Type := Fin NCPU

instance : NeZero NCPU := ⟨by decide⟩

/-- Where a process is between two critical sections. -/
inductive Call where
  /-- In user mode, or in a system call without unfinished work on the table. -/
  | user
  /-- In `allocproc`, after reading the head of the free list without the lock. -/
  | allocRead (np : Slot)
  /-- In `allocproc`, before `kalloc`. -/
  | alloc (np : Slot)
  /-- In `fork`, after `allocproc` returned. -/
  | setup (np : Slot)
  /-- In `fork`, before its last critical section. -/
  | filled (np : Slot)
  /-- In `exit`, after closing the files. -/
  | exiting
  /-- In `wait`, asleep. -/
  | waiting
  deriving DecidableEq, Repr

/-- The kernel thread of a slot: the call it executes, and whether it gave up the processor in
`sleep`. -/
structure Thread where
  call : Call
  asleep : Bool
  deriving DecidableEq, Repr

/-- How far `userinit` has come, with the slot of the first process. -/
inductive Boot where
  | alloc
  | kalloc (p : Slot)
  | setup (p : Slot)
  | filled (p : Slot)
  | done
  deriving DecidableEq, Repr

/-- The state of the kernel between critical sections. -/
structure Sys where
  pt : PTable
  cpu : Cpu → Option Slot
  thread : Slot → Thread
  boot : Boot

/-- The steps of the kernel. -/
inductive Label where
  /-- The timer interrupt counts a tick. -/
  | tick
  /-- A pass of `scheduler` on an idle processor. -/
  | schedule (c : Cpu)
  | yield (c : Cpu)
  | sleep (c : Cpu) (chan : Chan)
  | wakeup (chan : Chan)
  /-- `exit` up to its critical section: closing the files. -/
  | exitClose (c : Cpu)
  | exit (c : Cpu)
  | wait (c : Cpu)
  | kill (pid : Int32)
  | setpriority (pid priority : Int32)
  /-- `allocproc` in `fork`, the read of the free list and the critical section in one step. -/
  | allocproc (c : Cpu)
  /-- `allocproc` in `fork` reading the head of the free list. -/
  | allocRead (c : Cpu)
  /-- `allocproc` in `fork` entering its critical section. -/
  | allocLock (c : Cpu)
  /-- `kalloc` in `allocproc`, and the rollback if it fails. -/
  | kalloc (c : Cpu) (ok : Bool)
  /-- `copyuvm` in `fork`, and the rollback if it fails. -/
  | copyuvm (c : Cpu) (ok : Bool)
  | forkEnqueue (c : Cpu)
  | bootAlloc
  | bootKalloc (ok : Bool)
  | bootSetup (ok : Bool) (root : Nat)
  | bootEnqueue
  deriving DecidableEq, Repr

/-- The labels that take `allocproc` as one step. -/
def Label.allocAtomic : Label → Bool
  | .allocRead _ | .allocLock _ => false
  | _ => true

namespace Sys

/-- Set where a process is. -/
def setCall (s : Sys) (p : Slot) (call : Call) : Sys :=
  { s with thread := Function.update s.thread p ⟨call, false⟩ }

/-- The process `p` gives up the processor `c`. -/
def leave (s : Sys) (c : Cpu) (p : Slot) (t : PTable) (th : Thread) : Sys :=
  { s with pt := t, cpu := Function.update s.cpu c none,
           thread := Function.update s.thread p th }

/-- The critical section of `wait`, from its start or from the return of `sleep`. -/
def wait (s : Sys) (c : Cpu) (p : Slot) : Except Fault Sys := do
  match ← Ptable.wait s.pt p with
  | (.asleep, t) => .ok (s.leave c p t ⟨.waiting, true⟩)
  | (_, t) => .ok ({ s with pt := t }.setCall p .user)

/-- The process `p`, just dispatched, leaves the critical section it is in: `sleep` clears the
channel, and `wait` runs its loop again. -/
def resume (s : Sys) (c : Cpu) (p : Slot) : Except Fault Sys :=
  let s' := if (s.thread p).asleep then
      { s with pt := sleepTidy s.pt p }.setCall p (s.thread p).call else s
  if (s.thread p).call = .waiting then s'.wait c p else .ok s'

/-- A pass of `scheduler` on the processor `c`. -/
def schedule (s : Sys) (c : Cpu) : Except Fault Sys := do
  match ← scheduler s.pt with
  | (none, t) => .ok { s with pt := t }
  | (some p, t) => resume { s with pt := t, cpu := Function.update s.cpu c (some p) } c p

/-- The critical section of `allocproc` in `fork`, on the slot `np`. -/
def allocLock (s : Sys) (p np : Slot) : Except Fault Sys := do
  let t ← allocLocked s.pt np
  .ok ({ s with pt := t }.setCall p (.alloc np))

/-- `fork` after `kalloc`. -/
def kalloc (s : Sys) (p np : Slot) (ok : Bool) : Except Fault Sys :=
  if ok then
    .ok (({ s with pt := allocSetup s.pt np }.setCall np .user).setCall p (.setup np))
  else do
    let t ← rollback s.pt np
    .ok ({ s with pt := t }.setCall p .user)

/-- `fork` after `copyuvm`. -/
def copyuvm (s : Sys) (p np : Slot) (ok : Bool) : Except Fault Sys :=
  if ok then .ok ({ s with pt := forkFill s.pt p np }.setCall p (.filled np))
  else do
    let t ← rollback s.pt np
    .ok ({ s with pt := t }.setCall p .user)

/-- The step of a process `p` on the processor `c`. -/
def stepOn (s : Sys) (c : Cpu) (p : Slot) : Label → Option (Except Fault Sys)
  | .yield _ => some do
      let t ← Ptable.yield s.pt p
      .ok (s.leave c p t (s.thread p))
  | .sleep _ chan => some do
      let t ← Ptable.sleep s.pt p chan
      .ok (s.leave c p t ⟨(s.thread p).call, true⟩)
  | .exitClose _ =>
      if (s.thread p).call = .user then
        if s.pt.initproc = some p then some (.error .initExiting)
        else some (.ok (Sys.setCall
          { s with pt := s.pt.modify p ({ · with ofile := fun _ => none, cwd := none }) }
          p .exiting))
      else none
  | .exit _ =>
      if (s.thread p).call = .exiting then some do
        let t ← Ptable.exit s.pt p
        .ok (s.leave c p t ⟨.user, false⟩)
      else none
  | .wait _ => if (s.thread p).call = .user then some (s.wait c p) else none
  | .allocproc _ =>
      if (s.thread p).call = .user then
        match (s.pt.list .unused).head with
        | none => some (.ok s)
        | some np => some (s.allocLock p np)
      else none
  | .allocRead _ =>
      if (s.thread p).call = .user then
        match (s.pt.list .unused).head with
        | none => some (.ok s)
        | some np => some (.ok (s.setCall p (.allocRead np)))
      else none
  | .allocLock _ =>
      match (s.thread p).call with
      | .allocRead np => some (s.allocLock p np)
      | _ => none
  | .kalloc _ ok =>
      match (s.thread p).call with
      | .alloc np => some (s.kalloc p np ok)
      | _ => none
  | .copyuvm _ ok =>
      match (s.thread p).call with
      | .setup np => some (s.copyuvm p np ok)
      | _ => none
  | .forkEnqueue _ =>
      match (s.thread p).call with
      | .filled np => some do
          let t ← Ptable.forkEnqueue s.pt np
          .ok ({ s with pt := t }.setCall p .user)
      | _ => none
  | _ => none

/-- `userinit` after its first critical section. A null result of `allocproc` is followed. -/
def stepBoot (s : Sys) : Label → Option (Except Fault Sys)
  | .bootAlloc =>
      match s.boot with
      | .alloc =>
          match (s.pt.list .unused).head with
          | none => some (.error .userinitNull)
          | some p => some do
              let t ← allocLocked s.pt p
              .ok { s with pt := t, boot := .kalloc p }
      | _ => none
  | .bootKalloc ok =>
      match s.boot with
      | .kalloc p =>
          if ok then
            some (.ok ({ s with pt := allocSetup s.pt p, boot := .setup p }.setCall p .user))
          else some do
            let _ ← rollback s.pt p
            .error .userinitNull
      | _ => none
  | .bootSetup ok root =>
      match s.boot with
      | .setup p =>
          if ok then some (.ok { s with pt := userinitFill s.pt p root, boot := .filled p })
          else some (.error .userinitMemory)
      | _ => none
  | .bootEnqueue =>
      match s.boot with
      | .filled p => some do
          let t ← userinitEnqueue s.pt p
          .ok { s with pt := t, boot := .done }
      | _ => none
  | _ => none

/-- One step of the kernel. -/
def step (s : Sys) (l : Label) : Option (Except Fault Sys) :=
  match l with
  | .tick => some (.ok { s with pt := { s.pt with ticks := s.pt.ticks + 1 } })
  | .schedule c => if (s.cpu c).isSome then none else some (s.schedule c)
  | .wakeup chan => some do
      let t ← wakeup1 s.pt chan
      .ok { s with pt := t }
  | .kill pid => some do
      let (_, t) ← Ptable.kill s.pt pid
      .ok { s with pt := t }
  | .setpriority pid priority => some do
      let (_, t) ← Ptable.setpriority s.pt pid priority
      .ok { s with pt := t }
  | .bootAlloc | .bootKalloc _ | .bootSetup _ _ | .bootEnqueue => s.stepBoot l
  | .yield c | .sleep c _ | .exitClose c | .exit c | .wait c | .allocproc c | .allocRead c
  | .allocLock c | .kalloc c _ | .copyuvm c _ | .forkEnqueue c =>
      match s.cpu c with
      | none => none
      | some p => s.stepOn c p l

end Sys

/-- `struct proc` with all bytes zero. -/
def zeroProc : Proc where
  sz := 0
  kstack := false
  state := .unused
  pid := 0
  parent := none
  chan := .null
  killed := false
  ofile := fun _ => none
  cwd := none
  startTicks := 0
  uid := 0
  gid := 0
  cpuTicksTotal := 0
  cpuTicksIn := 0
  priority := 0
  budget := 0

/-- The table when `userinit` starts. Other processors may have run `scheduler` before. -/
def bootTable (ticks promoteAtTime : UInt32) : PTable where
  proc := fun _ => zeroProc
  next := fun _ => none
  list := fun _ => ⟨none, none⟩
  ready := fun _ => ⟨none, none⟩
  promoteAtTime := promoteAtTime
  nextpid := 1
  initproc := none
  ticks := ticks

/-- The state after the first critical section of `userinit`. -/
def Booted (s : Sys) : Prop :=
  (∃ ticks time, initFreeList (initProcessLists (bootTable ticks time)) = .ok s.pt) ∧
    s.cpu = (fun _ => none) ∧ s.thread = (fun _ => ⟨.user, false⟩) ∧ s.boot = .alloc

/-- The kernel as a transition system. -/
def kernel : System Sys Label Fault where
  init := Booted
  step := Sys.step

end Xv6.Ptable
