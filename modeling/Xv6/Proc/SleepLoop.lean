import Xv6.Lib.Mutex
import Xv6.Proc.Stepwise
import Xv6.Proc.System

/-!
# Processes that sleep and wake each other up

Processes run `acquire(lk); while(!cond) sleep(chan, lk); ...; release(lk)` and
`acquire(lk); cond = 1; wakeup(chan); release(lk)`, where `lk` is `ptable.lock` or another lock; if
it is `ptable.lock` then the second one calls `wakeup1`.  Acquiring a lock, releasing one, testing
`cond`, setting it, and each step of the programs of `Xv6.Proc.Stepwise` is a step of the system,
on any processor.  A process outside its locks may lose the processor to `yield`, other processes
may be killed at any time, and the idle processors run `scheduler`.  The lock `ptable.lock` is
passed on at a context switch.
-/

namespace Xv6.Ptable.SleepLoop

/-- The spinlocks of the system. -/
inductive LockName where
  | ptable
  /-- A lock other than `ptable.lock`. -/
  | own
  deriving DecidableEq, Repr

/-- The critical sections of a process on the table. The flag of `yield` tells whether it
interrupted `sleep` before its last `acquire(lk)`. -/
inductive Section where
  | sleep
  | wakeup
  | yield (mid : Bool)
  deriving DecidableEq, Repr

/-- The steps of a section. -/
def Section.prog (chan : Chan) (p : Slot) : Section → Prog
  | .sleep => Stepwise.sleep p chan
  | .wakeup => Stepwise.wakeup1 chan
  | .yield _ => Stepwise.yield p

/-- Where a process is. -/
inductive Pc where
  /-- Outside of both pieces of code. -/
  | idle
  /-- Before the test of `cond`. -/
  | test
  /-- In `sleep`, before `acquire(&ptable.lock)`. -/
  | sleepAcquire
  /-- In `sleep`, before `release(lk)`. -/
  | sleepRelease
  /-- In a critical section on the table, with what is left of it. -/
  | inside (k : Section) (m : Prog)
  /-- In `sleep`, without a processor. -/
  | switched
  /-- In `sleep`, before `p->chan = 0`. -/
  | tidy
  /-- In `sleep`, before `release(&ptable.lock)`. -/
  | sleepUnlock
  /-- In `sleep`, before `acquire(lk)`. -/
  | reacquire
  /-- After the loop. -/
  | body
  /-- Before `cond = 1`. -/
  | set
  /-- In `wakeup`, before `acquire(&ptable.lock)`. -/
  | wakeAcquire
  /-- Before the release of `ptable.lock` after `wakeup1`. -/
  | wakeUnlock
  /-- After `wakeup`, before `release(lk)`. -/
  | wakeDone
  /-- In `yield`, or not started yet, without a processor. -/
  | yielded (mid : Bool)
  /-- In `yield` or `forkret`, before `release(&ptable.lock)`. -/
  | yieldUnlock (mid : Bool)
  /-- In a call of `sleep` elsewhere, without a processor. -/
  | dozing
  /-- In a call of `sleep` elsewhere, before `p->chan = 0`. -/
  | dozed

namespace Pc

/-- The process has no processor. -/
def parked : Pc → Bool
  | .switched | .yielded _ | .dozing => true
  | _ => false

/-- Where a process goes on when it gets a processor. -/
def resume : Pc → Pc
  | .switched => .tidy
  | .yielded mid => .yieldUnlock mid
  | .dozing => .dozed
  | k => k

/-- The locks that a process holds. -/
def holds (lk : LockName) : Pc → LockName → Prop
  | .test, l | .body, l | .set, l | .sleepAcquire, l | .wakeAcquire, l | .wakeDone, l => l = lk
  | .sleepRelease, l | .inside .wakeup _, l | .wakeUnlock, l => l = lk ∨ l = .ptable
  | .inside .sleep _, l | .inside (.yield _) _, l | .tidy, l | .sleepUnlock, l
  | .yieldUnlock _, l | .dozed, l => l = .ptable
  | .idle, _ | .switched, _ | .reacquire, _ | .yielded _, _ | .dozing, _ => False

/-- The process tested `cond` as false and did not test it since. -/
def tested : Pc → Bool
  | .sleepAcquire | .sleepRelease | .inside .sleep _ | .switched | .tidy | .sleepUnlock
  | .reacquire | .inside (.yield true) _ | .yielded true | .yieldUnlock true => true
  | _ => false

/-- The process set `cond` and did not finish its `wakeup` yet. -/
def waking : Pc → Bool
  | .wakeAcquire | .inside .wakeup _ => true
  | _ => false

end Pc

/-- The start of a critical section of the process `p`. -/
def enter (chan : Chan) (p : Slot) (k : Section) : Pc :=
  .inside k (k.prog chan p)

/-- What a process may choose to do next. -/
inductive Choice where
  /-- To start the loop. -/
  | wait
  /-- To start waking the others up. -/
  | wake
  /-- To lose the processor. -/
  | preempt
  /-- To reset `cond` after the loop. -/
  | reset
  /-- To leave the code after the loop. -/
  | leave
  /-- To go on. -/
  | go
  deriving DecidableEq, Repr

/-- The operations of a process outside the critical sections on the table. -/
inductive Op where
  | skip
  | acquire (l : LockName)
  | release (l : LockName)
  | setCond (b : Bool)
  /-- `p->chan = 0`. -/
  | clearChan
  deriving DecidableEq, Repr

/-- The next operation of a process and where it leads. -/
def move (lk : LockName) (chan : Chan) (p : Slot) (cond : Bool) : Pc → Choice → Option (Op × Pc)
  | .idle, .wait => some (.acquire lk, .test)
  | .idle, .wake => some (.acquire lk, .set)
  | .idle, .preempt => some (.acquire .ptable, enter chan p (.yield false))
  | .test, .go =>
      if cond then some (.skip, .body)
      else if lk = .ptable then some (.skip, enter chan p .sleep)
      else some (.skip, .sleepAcquire)
  | .sleepAcquire, .go => some (.acquire .ptable, .sleepRelease)
  | .sleepRelease, .go =>
      if lk = .ptable then none
      else some (.release lk, enter chan p .sleep)
  | .tidy, .go => some (.clearChan, if lk = .ptable then .test else .sleepUnlock)
  | .sleepUnlock, .go => some (.release .ptable, .reacquire)
  | .reacquire, .go => some (.acquire lk, .test)
  | .reacquire, .preempt => some (.acquire .ptable, enter chan p (.yield true))
  | .body, .reset => some (.setCond false, .body)
  | .body, .leave => some (.release lk, .idle)
  | .set, .go =>
      some (.setCond true,
        if lk = .ptable then enter chan p .wakeup else .wakeAcquire)
  | .wakeAcquire, .go => some (.acquire .ptable, enter chan p .wakeup)
  | .wakeUnlock, .go => some (.release .ptable, if lk = .ptable then .idle else .wakeDone)
  | .wakeDone, .go => some (.release lk, .idle)
  | .yieldUnlock mid, .go => some (.release .ptable, if mid then .reacquire else .idle)
  | .dozed, .go => some (.clearChan, .yieldUnlock false)
  | _, _ => none

/-- Who can hold a lock. -/
inductive Agent where
  | proc (p : Slot)
  /-- The scheduler of a processor. -/
  | scheduler (c : Cpu)
  /-- A call of `kill`. -/
  | killer
  deriving DecidableEq, Repr

/-- Where the scheduler of a processor is. -/
inductive SchedPc where
  | idle
  /-- Between `acquire(&ptable.lock)` and the context switch. -/
  | inside (m : Micro PTable Fault (Option Slot))
  /-- A process has the processor. -/
  | away
  /-- Before `release(&ptable.lock)`. -/
  | back

/-- The state of the system. -/
structure St where
  pt : PTable
  cond : Bool
  lock : LockName → Option Agent
  cpu : Cpu → Option Slot
  pc : Slot → Pc
  sched : Cpu → SchedPc
  /-- What is left of the critical section of `kill`, if a process is in it. -/
  killer : Option (Micro PTable Fault Int)

namespace St

/-- The process `p` goes to `k`. -/
def goto (s : St) (p : Slot) (k : Pc) : St :=
  { s with pc := Function.update s.pc p k }

/-- Set the holder of a lock. -/
def setLock (s : St) (l : LockName) (a : Option Agent) : St :=
  { s with lock := Function.update s.lock l a }

/-- The scheduler of `c` goes to `k`. -/
def setSched (s : St) (c : Cpu) (k : SchedPc) : St :=
  { s with sched := Function.update s.sched c k }

/-- The process `p` performs an operation. -/
def perform (s : St) (p : Slot) : Op → Option St
  | .skip => some s
  | .acquire l => if s.lock l = none then some (s.setLock l (some (.proc p))) else none
  | .release l => some (s.setLock l none)
  | .setCond b => some { s with cond := b }
  | .clearChan => some { s with pt := sleepTidy s.pt p }

/-- The process `p` switches from the processor `c` to its scheduler. -/
def switch (s : St) (c : Cpu) (p : Slot) (k : Pc) : St :=
  ({ s.goto p k with cpu := Function.update s.cpu c none }.setSched c .back).setLock .ptable
    (some (.scheduler c))

/-- The process `p` on the processor `c` is at the end of a critical section. -/
def finish (s : St) (c : Cpu) (p : Slot) : Section → St
  | .sleep => s.switch c p .switched
  | .yield mid => s.switch c p (.yielded mid)
  | .wakeup => s.goto p .wakeUnlock

/-- The scheduler of `c` switches to the process `p`. -/
def dispatch (s : St) (c : Cpu) (p : Slot) : St :=
  ({ s.goto p (s.pc p).resume with cpu := Function.update s.cpu c (some p) }.setSched c
    .away).setLock .ptable (some (.proc p))

/-- A step of the process `p` on the processor `c` in a critical section. -/
def run (s : St) (c : Cpu) (p : Slot) : Option (Except Fault St) :=
  match s.pc p with
  | .inside k m =>
      match m.step s.pt with
      | some (.ok (m', t)) => some (.ok ({ s with pt := t }.goto p (.inside k m')))
      | some (.error f) => some (.error f)
      | none => some (.ok (s.finish c p k))
  | _ => none

/-- A step of `scheduler` on `c`. -/
def runSched (s : St) (c : Cpu) : Option (Except Fault St) :=
  match s.sched c with
  | .idle =>
      if s.lock .ptable = none then
        some (.ok ((s.setSched c (.inside Stepwise.scheduler)).setLock .ptable
          (some (.scheduler c))))
      else none
  | .inside (.ret none) => some (.ok ((s.setSched c .idle).setLock .ptable none))
  | .inside (.ret (some p)) => some (.ok (s.dispatch c p))
  | .inside m =>
      match m.step s.pt with
      | some (.ok (m', t)) => some (.ok ({ s with pt := t }.setSched c (.inside m')))
      | some (.error f) => some (.error f)
      | none => none
  | .away => none
  | .back => some (.ok ((s.setSched c .idle).setLock .ptable none))

/-- A step of `kill`. -/
def runKill (s : St) : Option (Except Fault St) :=
  match s.killer with
  | none => none
  | some m =>
      match m.step s.pt with
      | some (.ok (m', t)) => some (.ok { s with pt := t, killer := some m' })
      | some (.error f) => some (.error f)
      | none => some (.ok ({ s with killer := none }.setLock .ptable none))

end St

/-- The steps of the system. -/
inductive Step where
  /-- The process on the processor `c` moves outside the critical sections on the table. -/
  | move (c : Cpu) (ch : Choice)
  /-- The process on the processor `c` makes a step in a critical section. -/
  | run (c : Cpu)
  | sched (c : Cpu)
  /-- A process calls `kill` and acquires `ptable.lock`. -/
  | kill (pid : Int32)
  | runKill
  deriving DecidableEq, Repr

/-- One step of the system. -/
def St.step (lk : LockName) (chan : Chan) (s : St) : Step → Option (Except Fault St)
  | .move c ch =>
      match s.cpu c with
      | none => none
      | some p =>
          match SleepLoop.move lk chan p s.cond (s.pc p) ch with
          | none => none
          | some (op, k) => (s.perform p op).map fun s' => .ok (s'.goto p k)
  | .run c =>
      match s.cpu c with
      | none => none
      | some p => s.run c p
  | .sched c => s.runSched c
  | .kill pid =>
      if s.lock .ptable = none then
        some (.ok ({ s with killer := some (Stepwise.kill pid) }.setLock .ptable (some .killer)))
      else none
  | .runKill => s.runKill

/-- The initial states: no lock is held, the processes on the processors are the running ones, and
the others wait for a processor, in the middle of `sleep` on any channel if they sleep. -/
structure Initial (s : St) : Prop where
  good : ∃ q, Good s.pt q
  lock : ∀ l, s.lock l = none
  running : ∀ c p, s.cpu c = some p → (s.pt.proc p).state = .running
  once : ∀ c c' p, s.cpu c = some p → s.cpu c' = some p → c = c'
  pc : ∀ p, if (∃ c, s.cpu c = some p) then s.pc p = .idle
    else if (s.pt.proc p).state = .sleeping then s.pc p = .dozing else s.pc p = .yielded false
  sched : ∀ c, if (s.cpu c).isSome then s.sched c = .away else s.sched c = .idle
  killer : s.killer = none

/-- The processes around the condition `cond`, the lock `lk` and the channel `chan`. -/
def loop (lk : LockName) (chan : Chan) : System St Step Fault where
  init := Initial
  step := St.step lk chan

end Xv6.Ptable.SleepLoop
