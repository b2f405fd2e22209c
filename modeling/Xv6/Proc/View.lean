import Xv6.Proc.Priority
import Xv6.Proc.System

/-!
# The kernel without its lists

A `View` is a state of the kernel without the links and the heads of the lists.  `View.Step` says
what the steps of the kernel do to the slots: which slots change, how, and when.
-/

namespace Xv6.Ptable

open Function (update update_self update_of_ne)

/-- The state of the kernel without the lists. -/
structure View where
  proc : Slot → Proc
  cpu : Cpu → Option Slot
  thread : Slot → Thread
  boot : Boot
  promoteAtTime : UInt32
  nextpid : UInt32
  initproc : Option Slot
  ticks : UInt32

/-- The state without the lists. -/
def Sys.view (s : Sys) : View where
  proc := s.pt.proc
  cpu := s.cpu
  thread := s.thread
  boot := s.boot
  promoteAtTime := s.pt.promoteAtTime
  nextpid := s.pt.nextpid
  initproc := s.pt.initproc
  ticks := s.pt.ticks

namespace View

/-! ### Changes of a view -/

/-- Change one slot. -/
def modify (v : View) (p : Slot) (f : Proc → Proc) : View :=
  { v with proc := Function.update v.proc p (f (v.proc p)) }

@[simp]
theorem modify_proc_self (v : View) (p : Slot) (f : Proc → Proc) :
  (v.modify p f).proc p = f (v.proc p)
  := update_self ..

theorem modify_proc_of_ne (v : View) {p x : Slot} (f : Proc → Proc) (hx : x ≠ p) :
  (v.modify p f).proc x = v.proc x
  := update_of_ne hx ..

/-- Set the thread of a slot. -/
def setThread (v : View) (p : Slot) (th : Thread) : View :=
  { v with thread := Function.update v.thread p th }

@[simp]
theorem setThread_thread_self (v : View) (p : Slot) (th : Thread) :
  (v.setThread p th).thread p = th
  := update_self ..

theorem setThread_thread_of_ne (v : View) {p x : Slot} (th : Thread) (hx : x ≠ p) :
  (v.setThread p th).thread x = v.thread x
  := update_of_ne hx ..

/-- Set where a process is. -/
def setCall (v : View) (p : Slot) (call : Call) : View :=
  v.setThread p ⟨call, false⟩

@[simp]
theorem setCall_proc (v : View) (p : Slot) (call : Call) :
  (v.setCall p call).proc = v.proc
  := rfl

/-- Set what a processor runs. -/
def setCpu (v : View) (c : Cpu) (p : Option Slot) : View :=
  { v with cpu := Function.update v.cpu c p }

/-- The time for a promotion has come. -/
abbrev Due (v : View) : Prop := v.ticks ≥ v.promoteAtTime

/-- The promotion at the start of a pass of `scheduler`. -/
def promote (v : View) : View :=
  if v.Due then
    { v with proc := fun x => promotion (v.proc x), promoteAtTime := v.ticks + TICKS_TO_PROMOTE }
  else v

@[simp]
theorem promote_state (v : View) (x : Slot) :
  (v.promote.proc x).state = (v.proc x).state
  := by
  rw [promote]
  split
  · apply promotion_state
  · rfl

/-- `scheduler` switches to a process. -/
def dispatch (v : View) (c : Cpu) (p : Slot) : View :=
  (v.modify p (dispatched v.ticks)).setCpu c (some p)

@[simp]
theorem dispatch_proc_self (v : View) (c : Cpu) (p : Slot) :
  (v.dispatch c p).proc p = dispatched v.ticks (v.proc p)
  := modify_proc_self v p _

theorem dispatch_proc_of_ne (v : View) (c : Cpu) {p x : Slot} (hx : x ≠ p) :
  (v.dispatch c p).proc x = v.proc x
  := modify_proc_of_ne v _ hx

@[simp]
theorem dispatch_cpu_self (v : View) (c : Cpu) (p : Slot) :
  (v.dispatch c p).cpu c = some p
  := update_self ..

/-- A process gives up the processor. -/
def leave (v : View) (c : Cpu) (p : Slot) (th : Thread) (f : Proc → Proc) : View :=
  ((v.modify p f).setThread p th).setCpu c none

@[simp]
theorem leave_proc_self (v : View) (c : Cpu) (p : Slot) (th : Thread) (f : Proc → Proc) :
  (v.leave c p th f).proc p = f (v.proc p)
  := modify_proc_self v p f

theorem leave_proc_of_ne (v : View) (c : Cpu) {p x : Slot} (th : Thread) (f : Proc → Proc)
    (hx : x ≠ p) :
  (v.leave c p th f).proc x = v.proc x
  := modify_proc_of_ne v f hx

/-- `yield` -/
def yield (v : View) (c : Cpu) (p : Slot) : View :=
  v.leave c p (v.thread p)
    fun x => tallied v.ticks { charge v.ticks x with state := .runnable }

/-- `sleep` of a process in a call. -/
def sleep (v : View) (c : Cpu) (p : Slot) (chan : Chan) (call : Call) : View :=
  v.leave c p ⟨call, true⟩
    fun x => tallied v.ticks (charge v.ticks { x with chan := chan, state := .sleeping })

/-- `wakeup1` -/
def wake (v : View) (chan : Chan) : View :=
  { v with proc := fun x => woken chan (v.proc x) }

/-- Whether a process has a zombie child. -/
def zombieChild (v : View) (curproc : Slot) : Bool :=
  (List.finRange NPROC).any fun x =>
    (v.proc x).state = .zombie ∧ (v.proc x).parent = some curproc

/-- What the loops of `exit` do to a slot. -/
def bereaved (v : View) (curproc : Slot) (x : Proc) : Proc :=
  let y := woken (Chan.ofPtr (v.proc curproc).parent) x
  let z := if y.state ≠ .unused then adopted curproc v.initproc y else y
  if v.zombieChild curproc then woken (Chan.ofPtr v.initproc) z else z

/-- `exit` -/
def exit (v : View) (c : Cpu) (p : Slot) : View :=
  { v with proc := fun x => v.bereaved p (v.proc x) }.leave c p ⟨.user, false⟩
    fun x => tallied v.ticks { x with state := .zombie }

/-- `sleep` gets the processor back. -/
def tidy (v : View) (p : Slot) : View :=
  if (v.thread p).asleep then
    (v.modify p ({ · with chan := .null })).setCall p (v.thread p).call
  else v

section

variable (v : View)

include v

@[simp]
theorem tidy_boot (p : Slot) :
  (v.tidy p).boot = v.boot
  := by
  rw [tidy]
  split <;> rfl

/-- A process that gets the processor back changes its channel only. -/
theorem tidy_proc (p x : Slot) :
  ∃ chan, (v.tidy p).proc x = { v.proc x with chan := chan }
  := by
  rw [tidy]
  split
  · rcases eq_or_ne x p with rfl | hx
    · use .null
      rw [setCall_proc, modify_proc_self]
    · use (v.proc x).chan
      rw [setCall_proc, modify_proc_of_ne v _ hx]
  · use (v.proc x).chan

theorem tidy_proc_of_ne {p x : Slot} (hx : x ≠ p) :
  (v.tidy p).proc x = v.proc x
  := by
  rw [tidy]
  split
  · rw [setCall_proc, modify_proc_of_ne v _ hx]
  · rfl

@[simp]
theorem tidy_state (p x : Slot) :
  ((v.tidy p).proc x).state = (v.proc x).state
  := by
  obtain ⟨chan, hx⟩ := v.tidy_proc p x
  rw [hx]

@[simp]
theorem tidy_priority (p x : Slot) :
  ((v.tidy p).proc x).priority = (v.proc x).priority
  := by
  obtain ⟨chan, hx⟩ := v.tidy_proc p x
  rw [hx]

@[simp]
theorem tidy_cpu (p : Slot) :
  (v.tidy p).cpu = v.cpu
  := by
  rw [tidy]
  split <;> rfl

/-- A process stays in its call when it gets the processor back. -/
@[simp]
theorem tidy_call (p x : Slot) :
  ((v.tidy p).thread x).call = (v.thread x).call
  := by
  rw [tidy]
  split
  · rcases eq_or_ne x p with rfl | hx
    · rw [setCall, setThread_thread_self]
    · rw [setCall, setThread_thread_of_ne _ _ hx]
      rfl
  · rfl

end

/-- What `wait` does to the zombie that it reaps. -/
def reaped (x : Proc) : Proc :=
  { x with kstack := false, pid := 0, parent := none, killed := false, state := .unused }

/-- What a rollback does to a slot. -/
def rolledBack (x : Proc) : Proc := { x with kstack := false, state := .unused }

/-- The critical section of `allocproc`. -/
def alloc (v : View) (np : Slot) : View :=
  { v.modify np (fun x => { x with state := .embryo, pid := v.nextpid }) with
    nextpid := v.nextpid + 1 }

@[simp]
theorem alloc_proc_self (v : View) (np : Slot) :
  (v.alloc np).proc np = { v.proc np with state := .embryo, pid := v.nextpid }
  := update_self ..

theorem alloc_proc_of_ne (v : View) {np x : Slot} (hx : x ≠ np) :
  (v.alloc np).proc x = v.proc x
  := update_of_ne hx ..

/-- What the end of `allocproc` does to a slot. -/
def preparedProc (x : Proc) : Proc :=
  { x with kstack := true, cpuTicksTotal := 0, cpuTicksIn := 0, budget := BUDGET,
           priority := maxPrio }

/-- What `fork` of a process with the slot `c` does to its child. -/
def filledProc (curproc : Slot) (c x : Proc) : Proc :=
  { x with uid := c.uid, gid := c.gid, sz := c.sz, parent := some curproc,
           ofile := fun i => (c.ofile i).or (x.ofile i), cwd := c.cwd }

/-- `wakeup1` changes the state of sleeping slots only. -/
theorem woken_eq (chan : Chan) (x : Proc) :
  ∃ st, woken chan x = { x with state := st } ∧
    (st = x.state ∨ x.state = .sleeping ∧ st = .runnable)
  := by
  rw [woken]
  split
  · rename_i hs
    exact ⟨.runnable, rfl, Or.inr ⟨hs.1, rfl⟩⟩
  · exact ⟨x.state, rfl, Or.inl rfl⟩

/-- The loops of `exit` change parents, and the state of sleeping slots. -/
theorem bereaved_eq (v : View) (curproc : Slot) (x : Proc) :
  ∃ st parent, v.bereaved curproc x = { x with state := st, parent := parent } ∧
    (st = x.state ∨ x.state = .sleeping ∧ st = .runnable) ∧
    (parent = x.parent ∨ x.parent = some curproc ∧ parent = v.initproc)
  := by
  obtain ⟨st, hst, hcases⟩ := woken_eq (Chan.ofPtr (v.proc curproc).parent) x
  obtain ⟨parent, hpar, hcases'⟩ : ∃ parent,
      (if st ≠ .unused then adopted curproc v.initproc { x with state := st }
        else { x with state := st }) = { x with state := st, parent := parent } ∧
      (parent = x.parent ∨ x.parent = some curproc ∧ parent = v.initproc) := by
    simp only [adopted]
    split
    · split
      · rename_i hp
        exact ⟨v.initproc, rfl, Or.inr ⟨hp, rfl⟩⟩
      · exact ⟨x.parent, rfl, Or.inl rfl⟩
    · exact ⟨x.parent, rfl, Or.inl rfl⟩
  simp only [bereaved, hst, hpar]
  split
  · obtain ⟨st', hst', hcases''⟩ := woken_eq (Chan.ofPtr v.initproc)
      { x with state := st, parent := parent }
    refine ⟨st', parent, hst', ?_, hcases'⟩
    rcases hcases'' with rfl | ⟨hs, rfl⟩
    · apply hcases
    · rcases hcases with rfl | ⟨hs', -⟩
      · exact Or.inr ⟨hs, rfl⟩
      · exact Or.inr ⟨hs', rfl⟩
  · exact ⟨st, parent, rfl, hcases, hcases'⟩

/-! ### Steps -/

/-- A pass of the loop of `wait`. -/
inductive Waited (v : View) (c : Cpu) (p : Slot) : View → Prop where
  | reaped (x : Slot) (hstate : (v.proc x).state = .zombie)
      (hparent : (v.proc x).parent = some p) :
      Waited v c p ((v.modify x View.reaped).setCall p .user)
  | failed (hzombie : ∀ x, (v.proc x).state = .zombie → (v.proc x).parent ≠ some p)
      (hno : (∀ x, (v.proc x).state ≠ .unused → (v.proc x).parent ≠ some p) ∨
        (v.proc p).killed = true) :
      Waited v c p (v.setCall p .user)
  | asleep (hzombie : ∀ x, (v.proc x).state = .zombie → (v.proc x).parent ≠ some p)
      (hkid : ∃ x, (v.proc x).state ≠ .unused ∧ (v.proc x).parent = some p)
      (hkilled : (v.proc p).killed = false) :
      Waited v c p (v.sleep c p (.proc p) .waiting)

/-- A process that was just dispatched leaves its critical section. -/
def Resumed (v : View) (c : Cpu) (p : Slot) (v' : View) : Prop :=
  if (v.thread p).call = .waiting then Waited (v.tidy p) c p v' else v' = v.tidy p

/-- The steps of a process `p` on the processor `c`. -/
inductive StepOn (v : View) (c : Cpu) (p : Slot) : Label → View → Prop where
  | yield : StepOn v c p (.yield c) (v.yield c p)
  | sleep (chan : Chan) : StepOn v c p (.sleep c chan) (v.sleep c p chan (v.thread p).call)
  | exitClose (hcall : (v.thread p).call = .user) (hinit : v.initproc ≠ some p) :
      StepOn v c p (.exitClose c)
        ((v.modify p ({ · with ofile := fun _ => none, cwd := none })).setCall p .exiting)
  | exit (hcall : (v.thread p).call = .exiting) : StepOn v c p (.exit c) (v.exit c p)
  | wait {v' : View} (hcall : (v.thread p).call = .user) (h : Waited v c p v') :
      StepOn v c p (.wait c) v'
  | allocNone {l : Label} (hl : l = .allocproc c ∨ l = .allocRead c)
      (hcall : (v.thread p).call = .user) (hno : ∀ x, (v.proc x).state ≠ .unused) :
      StepOn v c p l v
  | allocRead {np : Slot} (hcall : (v.thread p).call = .user)
      (hnp : (v.proc np).state = .unused) :
      StepOn v c p (.allocRead c) (v.setCall p (.allocRead np))
  | alloc {l : Label} {np : Slot}
      (hl : l = .allocproc c ∧ (v.thread p).call = .user ∨
        l = .allocLock c ∧ (v.thread p).call = .allocRead np)
      (hnp : (v.proc np).state = .unused) :
      StepOn v c p l ((v.alloc np).setCall p (.alloc np))
  | kalloc {np : Slot} (hcall : (v.thread p).call = .alloc np) :
      StepOn v c p (.kalloc c true)
        (((v.modify np preparedProc).setCall np .user).setCall p (.setup np))
  | copyuvm {np : Slot} (hcall : (v.thread p).call = .setup np) :
      StepOn v c p (.copyuvm c true)
        ((v.modify np (filledProc p (v.proc p))).setCall p (.filled np))
  | rollback {l : Label} {np : Slot}
      (hl : l = .kalloc c false ∧ (v.thread p).call = .alloc np ∨
        l = .copyuvm c false ∧ (v.thread p).call = .setup np) :
      StepOn v c p l ((v.modify np rolledBack).setCall p .user)
  | forkEnqueue {np : Slot} (hcall : (v.thread p).call = .filled np) :
      StepOn v c p (.forkEnqueue c)
        ((v.modify np ({ · with state := .runnable })).setCall p .user)

/-- The steps of `userinit`. -/
inductive StepBoot (v : View) : Label → View → Prop where
  | alloc {np : Slot} (hboot : v.boot = .alloc) (hnp : (v.proc np).state = .unused) :
      StepBoot v .bootAlloc { v.alloc np with boot := .kalloc np }
  | kalloc {np : Slot} (hboot : v.boot = .kalloc np) :
      StepBoot v (.bootKalloc true)
        { (v.modify np preparedProc).setCall np .user with boot := .setup np }
  | setup {np : Slot} (hboot : v.boot = .setup np) (root : Nat) :
      StepBoot v (.bootSetup true root)
        { v.modify np ({ · with sz := PGSIZE, cwd := some root }) with
          initproc := some np, boot := .filled np }
  | enqueue {np : Slot} (hboot : v.boot = .filled np) :
      StepBoot v .bootEnqueue
        { v.modify np ({ · with state := .runnable, uid := DEFAULT_UID, gid := DEFAULT_GID }) with
          promoteAtTime := v.ticks + TICKS_TO_PROMOTE, boot := .done }

/-- The steps of the kernel, with the slot that is dispatched. -/
inductive Step (v : View) : Label → Option Slot → View → Prop where
  | tick : Step v .tick none { v with ticks := v.ticks + 1 }
  | idle {c : Cpu} (hc : v.cpu c = none) (hno : ∀ x, (v.proc x).state ≠ .runnable) :
      Step v (.schedule c) none v.promote
  | dispatch {c : Cpu} {p : Slot} {v' : View} (hc : v.cpu c = none)
      (hp : (v.proc p).state = .runnable)
      (hmax : ∀ x, (v.proc x).state = .runnable →
        (v.promote.proc x).priority ≤ (v.promote.proc p).priority)
      (hres : Resumed (v.promote.dispatch c p) c p v') :
      Step v (.schedule c) (some p) v'
  | wakeup (chan : Chan) : Step v (.wakeup chan) none (v.wake chan)
  | killNone {pid : Int32}
      (hno : ∀ x, (v.proc x).state ≠ .unused → (v.proc x).pid ≠ pid.toUInt32) :
      Step v (.kill pid) none v
  | kill {pid : Int32} {p : Slot} (hp : (v.proc p).state ≠ .unused)
      (hpid : (v.proc p).pid = pid.toUInt32) :
      Step v (.kill pid) none (v.modify p killed)
  | setpriorityNone {pid priority : Int32}
      (hno : ValidPriority pid priority →
        ∀ x, Active (v.proc x).state → (v.proc x).pid ≠ pid.toUInt32) :
      Step v (.setpriority pid priority) none v
  | setpriority {pid priority : Int32} {p : Slot} (hvalid : ValidPriority pid priority)
      (hp : Active (v.proc p).state) (hpid : (v.proc p).pid = pid.toUInt32) :
      Step v (.setpriority pid priority) none (v.modify p (reprioritized priority.toInt.toNat))
  | boot {l : Label} {v' : View} (h : StepBoot v l v') : Step v l none v'
  | on {c : Cpu} {p : Slot} {l : Label} {v' : View} (hc : v.cpu c = some p)
      (h : StepOn v c p l v') :
      Step v l none v'

end View

/-- The slot that a step dispatches. -/
def Sys.dispatched (s : Sys) : Label → Option Slot
  | .schedule _ =>
      match scheduler s.pt with
      | .ok (p, _) => p
      | .error _ => none
  | _ => none

/-- The processor whose process makes a step. -/
def Label.cpu : Label → Option Cpu
  | .yield c | .sleep c _ | .exitClose c | .exit c | .wait c | .allocproc c | .allocRead c
  | .allocLock c | .kalloc c _ | .copyuvm c _ | .forkEnqueue c => some c
  | _ => none

/-! ### Inversion -/

section

variable {v v' : View} {l : Label} {d : Option Slot} {c : Cpu} {p : Slot}

theorem View.StepOn.cpu (h : View.StepOn v c p l v') :
  l.cpu = some c
  := by
  cases h with
  | allocNone hl => rcases hl with rfl | rfl <;> rfl
  | alloc hl | rollback hl => rcases hl with ⟨rfl, -⟩ | ⟨rfl, -⟩ <;> rfl
  | _ => rfl

theorem View.StepOn.yield_eq (h : View.StepOn v c p (.yield c) v') :
  v' = v.yield c p
  := by
  cases h with
  | yield => rfl
  | allocNone hl | alloc hl | rollback hl => simp at hl

theorem View.StepOn.sleep_eq {chan : Chan} (h : View.StepOn v c p (.sleep c chan) v') :
  v' = v.sleep c p chan (v.thread p).call
  := by
  cases h with
  | sleep => rfl
  | allocNone hl | alloc hl | rollback hl => simp at hl

theorem View.StepOn.exit_eq (h : View.StepOn v c p (.exit c) v') :
  v' = v.exit c p ∧ (v.thread p).call = .exiting
  := by
  cases h with
  | exit hcall => exact ⟨rfl, hcall⟩
  | allocNone hl | alloc hl | rollback hl => simp at hl

theorem View.StepOn.waited (h : View.StepOn v c p (.wait c) v') :
  View.Waited v c p v'
  := by
  cases h with
  | wait hcall hw => apply hw
  | allocNone hl | alloc hl | rollback hl => simp at hl

/-- A step with the label of a process is a step of the process on the processor. -/
theorem View.Step.stepOn (h : View.Step v l d v') (hl : l.cpu = some c) (hc : v.cpu c = some p) :
  View.StepOn v c p l v'
  := by
  cases h with
  | on hc' ho =>
    cases ho.cpu.symm.trans hl
    cases hc'.symm.trans hc
    apply ho
  | boot hb => cases hb <;> cases hl
  | _ => cases hl

end

end Xv6.Ptable
