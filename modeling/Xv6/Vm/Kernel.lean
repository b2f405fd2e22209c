import Xv6.Lib.Transition
import Xv6.Proc.Table
import Xv6.Vm.Copy
import Xv6.Vm.Exec

/-!
# The owners of physical pages

The processes, the open files and the pipes, as far as physical pages are concerned, and the
functions of `main.c`, `proc.c`, `exec.c`, `file.c` and `pipe.c` that take pages and give them
back.  A call runs as one step.

A file is closed here when its last reference is dropped.  The counts of references are left out:
the last one may be dropped at any time.  Likewise `wait` may find any zombie.
-/

namespace Xv6.Vm

open Ptable (NPROC Slot ProcState)

/-- `NFILE`, the number of open files of the system. -/
abbrev NFILE : Nat := 100

/-- The fields of `struct proc` that concern the memory of the process, and `tf->eip` and
`tf->esp`. -/
structure Proc where
  state : ProcState
  kstack : Nat
  pgdir : Nat
  sz : Nat
  eip : Nat
  esp : Nat
  name : List UInt8

/-- The slot of a process as it is in the zeroed `ptable`. -/
def Proc.zero : Proc where
  state := .unused
  kstack := 0
  pgdir := 0
  sz := 0
  eip := 0
  esp := 0
  name := []

/-- `struct file`: not in use, in use for something else than a pipe, or one end of the pipe in a
page. -/
inductive File where
  | closed
  | other
  | pipe (page : Nat) (writable : Bool)
  deriving DecidableEq

/-- The fields of `struct pipe` that `pipeclose` looks at. -/
structure Pipe where
  readopen : Bool
  writeopen : Bool

/-- Whether an end of a pipe is open. -/
def Pipe.isOpen (p : Pipe) (writable : Bool) : Bool :=
  if writable then p.writeopen else p.readopen

/-- The pipe with one end closed. -/
def Pipe.close (p : Pipe) (writable : Bool) : Pipe :=
  if writable then { p with writeopen := false } else { p with readopen := false }

/-- The state of the kernel.  `cpustack` are the stacks that the other processors start on,
`unused` is `ptable.list[UNUSED]`, and `pipe f` are the contents of the page `f` seen as a
`struct pipe`. -/
structure Kernel where
  mem : Memory
  kpgdir : Option Nat
  cpustack : List Nat
  proc : Slot → Proc
  unused : List Slot
  initproc : Option Slot
  file : Fin NFILE → File
  pipe : Nat → Pipe

/-- A computation of the kernel. -/
abbrev Krn (α : Type) : Type := StateT Kernel (Except Fault) α

/-- A computation on the memory, as one of the kernel. -/
def onMemory {α : Type} (x : Mem α) : Krn α := fun s => do
  let (a, m) ← x s.mem
  return (a, { s with mem := m })

/-- Change the slot of a process. -/
def setProc (p : Slot) (f : Proc → Proc) : Krn Unit :=
  modify fun s => { s with proc := Function.update s.proc p (f (s.proc p)) }

/-- Change an open file. -/
def setFile (i : Fin NFILE) (f : File) : Krn Unit :=
  modify fun s => { s with file := Function.update s.file i f }

/-- Change a pipe. -/
def setPipe (f : Nat) (p : Pipe) : Krn Unit :=
  modify fun s => { s with pipe := Function.update s.pipe f p }

/-! ### `proc.c` and `exec.c` -/

/-- A slot goes back to `ptable.list[UNUSED]`. -/
def retire (p : Slot) : Krn Unit := do
  setProc p ({ · with state := .unused })
  modify fun s => { s with unused := s.unused ++ [p] }

/-- `allocproc`; `none` is the null pointer. -/
def allocproc : Krn (Option Slot) := do
  match (← get).unused with
  | [] => return none
  | p :: unused =>
    modify ({ · with unused })
    setProc p ({ · with state := .embryo })
    match ← onMemory kalloc with
    | none =>
      setProc p ({ · with kstack := 0 })
      retire p
      return none
    | some kstack =>
      setProc p ({ · with kstack })
      return some p

/-- `switchuvm` -/
def switchuvm (p : Slot) : Krn Unit := do
  if ((← get).proc p).kstack = 0 then
    throw (.panic "switchuvm: no kstack")
  if ((← get).proc p).pgdir = 0 then
    throw (.panic "switchuvm: no pgdir")

/-- The conditional statement of `growproc`: the new size; `none` is the result `-1`. -/
def growuvm (L : Layout) (pgdir sz : Nat) (n : Int32) : Mem (Option Nat) := do
  if 0 < n then
    let sz ← allocuvm L pgdir sz ((sz + n.toUInt32.toNat) % 2 ^ 32)
    return if sz = 0 then none else some sz
  else if n < 0 then
    let sz ← deallocuvm L pgdir sz ((sz + n.toUInt32.toNat) % 2 ^ 32)
    return if sz = 0 then none else some sz
  else
    return some sz

/-- `growproc` of the process `p`; `false` is the result `-1`. -/
def growproc (L : Layout) (p : Slot) (n : Int32) : Krn Bool := do
  let curproc := (← get).proc p
  match ← onMemory (growuvm L curproc.pgdir curproc.sz n) with
  | none => return false
  | some sz =>
    setProc p ({ · with sz })
    switchuvm p
    return true

/-- `fork` of the process `p` once the slot `np` has its kernel stack. -/
def forkCopy (L : Layout) (p np : Slot) : Krn (Option Slot) := do
  let curproc := (← get).proc p
  match ← onMemory (copyuvm L curproc.pgdir curproc.sz) with
  | none =>
    onMemory (kfree L ((← get).proc np).kstack)
    setProc np ({ · with pgdir := 0, kstack := 0 })
    retire np
    return none
  | some pgdir =>
    setProc np fun np =>
      { curproc with state := .runnable, kstack := np.kstack, pgdir }
    return some np

/-- `fork` of the process `p`: the new process; `none` is the result `-1`. -/
def fork (L : Layout) (p : Slot) : Krn (Option Slot) := do
  match ← allocproc with
  | none => return none
  | some np => forkCopy L p np

/-- The loop of `exec` that finds the last element of the path. -/
def lastElem : (last s : List UInt8) → List UInt8
  | last, [] => last
  | last, c :: s => if c = '/'.toUInt8 then lastElem s s else lastElem last s

/-- The slot of a process that has a new image.  The name is cut by `safestrcpy`. -/
def Proc.withImage (pr : Proc) (path : List UInt8) (img : Image) : Proc :=
  { pr with
    name := (lastElem path path).take 15
    pgdir := img.pgdir
    sz := img.sz
    eip := img.entry
    esp := img.sp }

/-- `exec` by the process `p`; `false` is the result `-1`.  There is no inode when `namei` fails.
The processor uses the page directory of the process. -/
def exec (L : Layout) (null : NullRead) (p : Slot) (path : List UInt8) (ip : Option Inode)
    (argv : List (List UInt8)) : Krn Bool := do
  match ip with
  | none => return false
  | some ip =>
    let oldpgdir := ((← get).proc p).pgdir
    match ← onMemory (execImage L (null oldpgdir) ip argv) with
    | none => return false
    | some img =>
      setProc p (·.withImage path img)
      switchuvm p
      onMemory (freevm L oldpgdir)
      return true

/-- `exit` of the process `p`, after it has closed its files. -/
def exit (p : Slot) : Krn Unit := do
  if (← get).initproc = some p then
    throw (.panic "init exiting")
  setProc p ({ · with state := .zombie })

/-- The part of `wait` that frees the zombie it has found. -/
def wait (L : Layout) (p : Slot) : Krn Unit := do
  onMemory (kfree L ((← get).proc p).kstack)
  setProc p ({ · with kstack := 0 })
  onMemory (freevm L ((← get).proc p).pgdir)
  setProc p ({ · with name := [] })
  retire p

/-! ### `file.c` and `pipe.c` -/

/-- `filealloc`; `none` is the null pointer. -/
def filealloc : Krn (Option (Fin NFILE)) := do
  let s ← get
  match (List.finRange NFILE).find? (s.file · = .closed) with
  | none => return none
  | some i =>
    setFile i .other
    return some i

/-- `pipeclose` -/
def pipeclose (L : Layout) (f : Nat) (writable : Bool) : Krn Unit := do
  let p := ((← get).pipe f).close writable
  setPipe f p
  if p.readopen = false ∧ p.writeopen = false then
    onMemory (kfree L f)

/-- `fileclose`, with the last reference to the file. -/
def fileclose (L : Layout) (i : Fin NFILE) : Krn Unit := do
  match (← get).file i with
  | .closed => throw (.panic "fileclose")
  | .other => setFile i .closed
  | .pipe f writable =>
    setFile i .closed
    pipeclose L f writable

/-- `pipealloc`; `false` is the result `-1`.  At `bad` there is no page yet that could be
freed. -/
def pipealloc (L : Layout) : Krn Bool := do
  match ← filealloc with
  | none => return false
  | some f0 =>
    match ← filealloc with
    | none =>
      fileclose L f0
      return false
    | some f1 =>
      match ← onMemory kalloc with
      | none =>
        fileclose L f0
        fileclose L f1
        return false
      | some f =>
        setPipe f { readopen := true, writeopen := true }
        setFile f0 (.pipe f false)
        setFile f1 (.pipe f true)
        return true

/-! ### `main.c` -/

/-- `inituvm`; what `mappages` returns is not looked at. -/
def inituvm (pgdir : Nat) (init : List UInt8) : Mem Unit := do
  if init.length ≥ PGSIZE then
    throw (.panic "inituvm: more than a page")
  match ← kalloc with
  | none => throw .nullDeref
  | some mem =>
    modify (·.setPage mem (.fill 0))
    let _ ← mappages pgdir 0 PGSIZE (PGSIZE * mem) (PTE_W ||| PTE_U)
    modify fun m => m.setPage mem ((m.page mem).store 0 init)

/-- `userinit` with the given `initcode`. -/
def userinit (L : Layout) (initcode : List UInt8) : Krn Unit := do
  match ← allocproc with
  | none => throw .nullDeref
  | some p =>
    modify ({ · with initproc := some p })
    match ← onMemory (setupkvm L) with
    | none => throw (.panic "userinit: out of memory?")
    | some pgdir =>
      onMemory (inituvm pgdir initcode)
      setProc p fun np =>
        { np with
          state := .runnable
          pgdir
          sz := PGSIZE
          eip := 0
          esp := PGSIZE
          name := "initcode".toUTF8.toList }

/-- `kvmalloc`.  The processor cannot go on without a page directory. -/
def kvmalloc (L : Layout) : Krn Unit := do
  match ← onMemory (setupkvm L) with
  | none => throw .nullDeref
  | some kpgdir => modify ({ · with kpgdir := some kpgdir })

/-- `startothers`, with `n` other processors. -/
def startothers : (n : Nat) → Krn Unit
  | 0 => return ()
  | n + 1 => do
    match ← onMemory kalloc with
    | none => startothers n
    | some stack =>
      modify fun s => { s with cpustack := stack :: s.cpustack }
      startothers n

/-- `main`, with `n` other processors. -/
@[irreducible]
def main (L : Layout) (n : Nat) (initcode : List UInt8) : Krn Unit := do
  onMemory (freerange L L.kend (4 * 1024 * 1024))
  kvmalloc L
  startothers n
  onMemory (freerange L (4 * 1024 * 1024) PHYSTOP)
  userinit L initcode

/-- The kernel before `main`: any memory, and the tables that are zero.  `initFreeList` puts all
slots on `ptable.list[UNUSED]`. -/
def Kernel.zero (page : Nat → Page) (pipe : Nat → Pipe) : Kernel where
  mem := { page, freelist := [], refreed := [] }
  kpgdir := none
  cpustack := []
  proc := fun _ => .zero
  unused := List.finRange NPROC
  initproc := none
  file := fun _ => .closed
  pipe := pipe

/-! ### The system -/

/-- A step of the system. -/
inductive Label where
  | allocproc
  | fork (p : Slot)
  | exec (p : Slot) (path : List UInt8) (ip : Option Inode) (argv : List (List UInt8))
  | growproc (p : Slot) (n : Int32)
  | exit (p : Slot)
  | wait (p : Slot)
  | filealloc
  | fileclose (i : Fin NFILE)
  | pipealloc
  /-- The process is suspended, woken up or run. -/
  | sched (p : Slot) (state : ProcState)
  /-- The process writes to a page of its memory. -/
  | write (p : Slot) (e : Entry) (c : Page)

/-- A process that runs, or will run again. -/
def Live (st : ProcState) : Prop :=
  st = .sleeping ∨ st = .runnable ∨ st = .running

instance (st : ProcState) : Decidable (Live st) :=
  inferInstanceAs (Decidable (_ ∨ _))

/-- When a step may be taken.  What the process that runs does, it does for itself. -/
def Enabled (s : Kernel) : Label → Prop
  | .allocproc | .filealloc | .pipealloc => True
  | .fork p | .exec p _ _ _ | .growproc p _ | .exit p => (s.proc p).state = .running
  | .wait p => (s.proc p).state = .zombie
  | .fileclose i => s.file i ≠ .closed
  | .sched p st => Live (s.proc p).state ∧ Live st
  | .write p e _ =>
    (s.proc p).state = .running ∧ isP (s.mem.entry (s.proc p).pgdir e) ∧
      isU (s.mem.entry (s.proc p).pgdir e)

instance (s : Kernel) : (l : Label) → Decidable (Enabled s l)
  | .allocproc | .filealloc | .pipealloc => inferInstanceAs (Decidable True)
  | .fork _ | .exec _ _ _ _ | .growproc _ _ | .exit _ | .wait _ =>
    inferInstanceAs (Decidable (_ = _))
  | .fileclose _ => inferInstanceAs (Decidable (_ ≠ _))
  | .sched _ _ | .write _ _ _ => inferInstanceAs (Decidable (_ ∧ _))

/-- What a step does. -/
def perform (L : Layout) (null : NullRead) : Label → Krn Unit
  | .allocproc => do let _ ← allocproc
  | .fork p => do let _ ← fork L p
  | .exec p path ip argv => do let _ ← exec L null p path ip argv
  | .growproc p n => do let _ ← growproc L p n
  | .exit p => exit p
  | .wait p => wait L p
  | .filealloc => do let _ ← filealloc
  | .fileclose i => fileclose L i
  | .pipealloc => do let _ ← pipealloc L
  | .sched p state => setProc p ({ · with state })
  | .write p e c => modify fun s =>
      { s with mem := s.mem.setPage (pteAddr (s.mem.entry (s.proc p).pgdir e)) c }

/-- The system: it starts when `main` is done, whatever the memory contained before. -/
def systemOf (L : Layout) (null : NullRead) : System Kernel Label Fault where
  init s := ∃ page pipe n initcode, main L n initcode (.zero page pipe) = .ok ((), s)
  step s l := if Enabled s l then some ((perform L null l s).map Prod.snd) else none

/-- The system in which a null pointer that is followed ends the run. -/
def kernelSys (L : Layout) : System Kernel Label Fault :=
  systemOf L nullFault

/-- The system on the machine. -/
def machineSys (L : Layout) : System Kernel Label Fault :=
  systemOf L readNull

/-- The step is no `exec`. -/
def Label.NoExec : Label → Prop
  | .exec _ _ _ _ => False
  | _ => True

end Xv6.Vm
