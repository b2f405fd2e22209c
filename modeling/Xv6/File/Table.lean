import Xv6.Lib.Transition
import Xv6.Proc.Table

/-!
# The table of open files

`struct file`, `ftable`, the functions of `file.c` that count references, and the system calls that
create and drop them: `sys_open`, `sys_dup`, `sys_close`, `sys_pipe` with `pipealloc` and
`pipeclose`, and the loops over the descriptors in `fork` and `exit`.  Every critical section of
`ftable.lock` and of a pipe's lock, every assignment to a descriptor and every call of the memory
allocator is a step of its own.  Assignments to a file or a pipe that no other process can reach
yet are made in one step.  Where an operation depends on the rest of the kernel (path lookup, the
memory allocator, which free slot `allocproc` takes) every answer is possible.
-/

namespace Xv6.Ftable

open Ptable (Slot NOFILE)

/-- `NFILE`. -/
abbrev NFILE : Nat := 100

/-- A pointer into `ftable.file`. -/
abbrev FileId : Type := Fin NFILE

/-- The type of a file. -/
inductive FileType where
  /-- `FD_NONE`. -/
  | none
  /-- `FD_PIPE`. -/
  | pipe
  /-- `FD_INODE`. -/
  | inode
  deriving DecidableEq, Repr

/-- `struct file`. A pipe is named by the address of its page, an inode by its position in the
inode cache. -/
structure File where
  type : FileType
  ref : Nat
  readable : Bool
  writable : Bool
  pipe : Nat
  ip : Nat
  off : UInt32
  deriving DecidableEq, Repr

/-- `struct pipe`, without its lock and its data. -/
structure Pipe where
  readopen : Bool
  writeopen : Bool
  deriving DecidableEq, Repr

/-- The state of a slot of `ptable.proc`: `SLEEPING`, `RUNNABLE` and `RUNNING` are `active`. -/
inductive Life where
  | unused
  | embryo
  | active
  | zombie
  deriving DecidableEq, Repr

/-- What follows a call of `fileclose`. -/
inductive After where
  /-- The system call returns. -/
  | ret
  /-- Another call of `fileclose`. -/
  | close (f : FileId)
  /-- `exit` clears the descriptor `i`, which pointed to `f`. -/
  | exit (i : Fin NOFILE) (f : FileId)
  deriving DecidableEq, Repr

/-- Where a process is in the calls. -/
inductive Pc where
  /-- In none of them. -/
  | user
  /-- Before the critical section of `fileclose`. -/
  | closing (f : FileId) (k : After)
  /-- In `fileclose`, after its critical section, with the copy `ff` of the closed file. -/
  | dropped (ff : File) (k : After)
  /-- In `sys_open`, before `filealloc`. -/
  | openAlloc (ip : Nat) (omode : UInt32)
  /-- In `sys_open`, before `fdalloc`. -/
  | openFd (f : FileId) (ip : Nat) (omode : UInt32)
  /-- In `sys_open`, before the assignments to the file. -/
  | openSet (f : FileId) (ip : Nat) (omode : UInt32)
  /-- In `sys_dup`, before `filedup`. -/
  | dup (f : FileId)
  /-- In `pipealloc`, before the first `filealloc`. -/
  | pipeAlloc
  /-- In `pipealloc`, before the second `filealloc`. -/
  | pipeAlloc₂ (f₀ : FileId)
  /-- In `pipealloc`, before `kalloc`. -/
  | pipeKalloc (f₀ f₁ : FileId)
  /-- In `sys_pipe`, before the first `fdalloc`. -/
  | pipeFd (f₀ f₁ : FileId)
  /-- In `sys_pipe`, before the second `fdalloc`. -/
  | pipeFd₂ (f₀ f₁ : FileId) (fd₀ : Fin NOFILE)
  /-- In `fork`, before `copyuvm`. -/
  | forkCopy (np : Slot)
  /-- In `fork`, before the descriptor `i`. -/
  | forkDup (np : Slot) (i : Nat)
  /-- In `fork`, before the assignment to the descriptor `i` of the child. -/
  | forkStore (np : Slot) (i : Fin NOFILE) (f : FileId)
  /-- In `exit`, before the descriptor `i`. -/
  | exitScan (i : Nat)
  /-- In `exit`, before clearing the descriptor `i`, which pointed to `f`. -/
  | exitStore (i : Fin NOFILE) (f : FileId)
  deriving DecidableEq, Repr

/-- Where a process is after `fileclose` returned. -/
def After.next : After → Pc
  | .ret => .user
  | .close f => .closing f .ret
  | .exit i f => .exitStore i f

/-- The open files and the processes. -/
structure St where
  file : FileId → File
  /-- The pages that hold a pipe. -/
  pipe : Nat → Option Pipe
  life : Slot → Life
  ofile : Slot → Fin NOFILE → Option FileId
  pc : Slot → Pc

/-- What stops the kernel. -/
inductive Fault where
  /-- `panic("filedup")` -/
  | filedup
  /-- `panic("fileclose")` -/
  | fileclose
  /-- `pipeclose` works on a page that was freed. -/
  | pipeFreed
  deriving DecidableEq, Repr

namespace St

/-- The process `p` goes to `k`. -/
def goto (s : St) (p : Slot) (k : Pc) : St :=
  { s with pc := Function.update s.pc p k }

/-- Assign to a file. -/
def setFile (s : St) (f : FileId) (x : File) : St :=
  { s with file := Function.update s.file f x }

/-- Assign to a descriptor. -/
def setFd (s : St) (p : Slot) (fd : Fin NOFILE) (x : Option FileId) : St :=
  { s with ofile := Function.update s.ofile p (Function.update (s.ofile p) fd x) }

/-- Assign to the page of a pipe. -/
def setPipe (s : St) (a : Nat) (x : Option Pipe) : St :=
  { s with pipe := Function.update s.pipe a x }

/-- Change the state of a slot. -/
def setLife (s : St) (p : Slot) (x : Life) : St :=
  { s with life := Function.update s.life p x }

/-- The file that `filealloc` takes. -/
def filealloc (s : St) : Option FileId :=
  (List.finRange NFILE).find? fun f => (s.file f).ref = 0

/-- The descriptor that `fdalloc` takes. -/
def fdalloc (s : St) (p : Slot) : Option (Fin NOFILE) :=
  (List.finRange NOFILE).find? fun fd => (s.ofile p fd).isNone

/-- `argfd`: the file of a descriptor that the user names. -/
def argfd (s : St) (p : Slot) (fd : Int) : Option (Fin NOFILE × FileId) :=
  if h : 0 ≤ fd ∧ fd < NOFILE then
    let i : Fin NOFILE := ⟨fd.toNat, by omega⟩
    (s.ofile p i).map fun f => (i, f)
  else none

/-- The critical section of `filedup`. -/
def filedup (s : St) (f : FileId) : Except Fault St :=
  if (s.file f).ref < 1 then .error .filedup
  else .ok (s.setFile f { s.file f with ref := (s.file f).ref + 1 })

/-- The critical section of `fileclose`, on its way to `k`. -/
def fileclose (s : St) (p : Slot) (f : FileId) (k : After) : Except Fault St :=
  if (s.file f).ref < 1 then .error .fileclose
  else if (s.file f).ref - 1 > 0 then
    .ok ((s.setFile f { s.file f with ref := (s.file f).ref - 1 }).goto p k.next)
  else
    .ok ((s.setFile f { s.file f with ref := 0, type := .none }).goto p (.dropped (s.file f) k))

/-- The critical section of `pipeclose`, and `kfree`. -/
def pipeclose (s : St) (a : Nat) (writable : Bool) : Except Fault St :=
  match s.pipe a with
  | none => .error .pipeFreed
  | some b =>
      let b := if writable then { b with writeopen := false } else { b with readopen := false }
      if b.readopen = false ∧ b.writeopen = false then .ok (s.setPipe a none)
      else .ok (s.setPipe a (some b))

/-- `O_WRONLY`. -/
def O_WRONLY : UInt32 := 0x001

/-- `O_RDWR`. -/
def O_RDWR : UInt32 := 0x002

/-- The next step of the process `p` in a call. `page` is what the memory allocator answers. -/
def stepProc (s : St) (p : Slot) (page : Option Nat) : Option (Except Fault St) :=
  match s.pc p with
  | .user => none
  | .closing f k => some (s.fileclose p f k)
  | .dropped ff k =>
      if ff.type = .pipe then
        some ((s.pipeclose ff.pipe ff.writable).map fun s => s.goto p k.next)
      else some (.ok (s.goto p k.next))
  | .openAlloc ip omode =>
      match s.filealloc with
      | none => some (.ok (s.goto p .user))
      | some f =>
          some (.ok ((s.setFile f { s.file f with ref := 1 }).goto p (.openFd f ip omode)))
  | .openFd f ip omode =>
      match s.fdalloc p with
      | none => some (.ok (s.goto p (.closing f .ret)))
      | some fd => some (.ok ((s.setFd p fd (some f)).goto p (.openSet f ip omode)))
  | .openSet f ip omode =>
      some (.ok ((s.setFile f { s.file f with
        type := .inode, ip := ip, off := 0, readable := omode &&& O_WRONLY = 0,
        writable := omode &&& O_WRONLY ≠ 0 ∨ omode &&& O_RDWR ≠ 0 }).goto p .user))
  | .dup f => some ((s.filedup f).map fun s => s.goto p .user)
  | .pipeAlloc =>
      match s.filealloc with
      | none => some (.ok (s.goto p .user))
      | some f => some (.ok ((s.setFile f { s.file f with ref := 1 }).goto p (.pipeAlloc₂ f)))
  | .pipeAlloc₂ f₀ =>
      match s.filealloc with
      | none => some (.ok (s.goto p (.closing f₀ .ret)))
      | some f => some (.ok ((s.setFile f { s.file f with ref := 1 }).goto p (.pipeKalloc f₀ f)))
  | .pipeKalloc f₀ f₁ =>
      match page with
      | none => some (.ok (s.goto p (.closing f₀ (.close f₁))))
      | some a =>
          if s.pipe a = none then
            some (.ok ((((s.setPipe a (some ⟨true, true⟩)).setFile f₀
              { s.file f₀ with type := .pipe, readable := true, writable := false, pipe := a }
              ).setFile f₁
              { s.file f₁ with type := .pipe, readable := false, writable := true, pipe := a }
              ).goto p (.pipeFd f₀ f₁)))
          else none
  | .pipeFd f₀ f₁ =>
      match s.fdalloc p with
      | none => some (.ok (s.goto p (.closing f₀ (.close f₁))))
      | some fd => some (.ok ((s.setFd p fd (some f₀)).goto p (.pipeFd₂ f₀ f₁ fd)))
  | .pipeFd₂ f₀ f₁ fd₀ =>
      match s.fdalloc p with
      | none => some (.ok ((s.setFd p fd₀ none).goto p (.closing f₀ (.close f₁))))
      | some fd => some (.ok ((s.setFd p fd (some f₁)).goto p .user))
  | .forkCopy np =>
      match page with
      | none => some (.ok ((s.setLife np .unused).goto p .user))
      | some _ => some (.ok (s.goto p (.forkDup np 0)))
  | .forkDup np i =>
      if h : i < NOFILE then
        match s.ofile p ⟨i, h⟩ with
        | none => some (.ok (s.goto p (.forkDup np (i + 1))))
        | some f => some ((s.filedup f).map fun s => s.goto p (.forkStore np ⟨i, h⟩ f))
      else some (.ok ((s.setLife np .active).goto p .user))
  | .forkStore np i f => some (.ok ((s.setFd np i (some f)).goto p (.forkDup np (i + 1))))
  | .exitScan i =>
      if h : i < NOFILE then
        match s.ofile p ⟨i, h⟩ with
        | none => some (.ok (s.goto p (.exitScan (i + 1))))
        | some f => some (.ok (s.goto p (.closing f (.exit ⟨i, h⟩ f))))
      else some (.ok ((s.setLife p .zombie).goto p .user))
  | .exitStore i _ => some (.ok ((s.setFd p i none).goto p (.exitScan (i + 1))))

end St

/-- The steps of the system. -/
inductive Label where
  /-- `sys_open`, with the inode that the lookup of the path gives. -/
  | sysOpen (p : Slot) (ip : Option Nat) (omode : UInt32)
  | sysDup (p : Slot) (fd : Int)
  | sysClose (p : Slot) (fd : Int)
  /-- `sys_pipe`, with whether its argument is valid. -/
  | sysPipe (p : Slot) (valid : Bool)
  /-- `fork`, with the slot that `allocproc` gives. -/
  | fork (p np : Slot)
  | exit (p : Slot)
  /-- `wait`, with the zombie it finds. -/
  | wait (p z : Slot)
  /-- The next step of a process in one of the calls. -/
  | step (p : Slot) (page : Option Nat)
  deriving DecidableEq, Repr

/-- The process may start a system call. -/
def St.ready (s : St) (p : Slot) : Bool :=
  s.life p = .active ∧ s.pc p = .user

/-- One step of the system. -/
def St.next (s : St) : Label → Option (Except Fault St)
  | .sysOpen p ip omode =>
      if s.ready p then
        match ip with
        | none => some (.ok s)
        | some ip => some (.ok (s.goto p (.openAlloc ip omode)))
      else none
  | .sysDup p fd =>
      if s.ready p then
        match s.argfd p fd with
        | none => some (.ok s)
        | some (_, f) =>
            match s.fdalloc p with
            | none => some (.ok s)
            | some fd => some (.ok ((s.setFd p fd (some f)).goto p (.dup f)))
      else none
  | .sysClose p fd =>
      if s.ready p then
        match s.argfd p fd with
        | none => some (.ok s)
        | some (i, f) => some (.ok ((s.setFd p i none).goto p (.closing f .ret)))
      else none
  | .sysPipe p valid =>
      if s.ready p then some (.ok (if valid then s.goto p .pipeAlloc else s)) else none
  | .fork p np =>
      if s.ready p ∧ s.life np = .unused then
        some (.ok ((s.setLife np .embryo).goto p (.forkCopy np)))
      else none
  | .exit p => if s.ready p then some (.ok (s.goto p (.exitScan 0))) else none
  | .wait p z =>
      if s.ready p ∧ s.life z = .zombie then some (.ok (s.setLife z .unused)) else none
  | .step p page => s.stepProc p page

/-- No file is open, and only `init` is in use. -/
def Initial (s : St) : Prop :=
  (∀ f, (s.file f).ref = 0 ∧ (s.file f).type = .none) ∧ (∀ a, s.pipe a = none) ∧
    (∃ i, ∀ p, s.life p = if p = i then .active else .unused) ∧
    (∀ p fd, s.ofile p fd = none) ∧ ∀ p, s.pc p = .user

/-- The open files under all interleavings of the calls. -/
def files : System St Label Fault where
  init := Initial
  step := St.next

end Xv6.Ftable
