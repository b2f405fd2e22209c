import Xv6.Proc.Table

/-!
# The critical sections of `proc.c`

Each definition is the part of a function of `proc.c` that runs under `ptable.lock`, as a function
of the table.  The state lists are scanned in the order of `enum procstate` and the ready lists
from the highest priority down, as the loops of the source do.
-/

namespace Xv6.Ptable

/-- `&ptable.list[p->state]`. -/
def stateList (x : Proc) : Except Fault ListId :=
  .ok (.list x.state)

/-- `&ptable.ready[p->priority]`. -/
def priorityList (x : Proc) : Except Fault ListId :=
  readyList x.priority

/-- The block at every change of state: remove `p` from the list `src` or panic, assert that its
state is `s`, change its fields by `f`, and append it to the list `dst`. -/
def changeState (t : PTable) (p : Slot) (src : Proc → Except Fault ListId) (s : ProcState)
    (f : Proc → Proc) (dst : Proc → Except Fault ListId) : Except Fault PTable := do
  let t ← removeOrPanic t (← src (t.proc p)) p
  assertState t p s
  let t := t.modify p f
  stateListAdd t (← dst (t.proc p)) p

/-! ### Walking a list -/

/-- `while(p){ body; p = p->next; }`. -/
def walk (body : PTable → Slot → Except Fault PTable) :
    Nat → PTable → Option Slot → Except Fault PTable
  | 0, _, _ => .error .diverges
  | _ + 1, t, none => .ok t
  | fuel + 1, t, some p => do
      let t ← body t p
      walk body fuel t (t.next p)

/-- `while(p){ temp = p->next; body; p = temp; }`. -/
def walkSaved (body : PTable → Slot → Except Fault PTable) :
    Nat → PTable → Option Slot → Except Fault PTable
  | 0, _, _ => .error .diverges
  | _ + 1, t, none => .ok t
  | fuel + 1, t, some p => do
      let temp := t.next p
      let t ← body t p
      walkSaved body fuel t temp

/-- `while(p && !P(p)) p = p->next`. -/
def findFirst (t : PTable) (P : Proc → Bool) : Nat → Option Slot → Except Fault (Option Slot)
  | 0, _ => .error .diverges
  | _ + 1, none => .ok none
  | fuel + 1, some p => if P (t.proc p) then .ok (some p) else findFirst t P fuel (t.next p)

/-- The states a scan `for(i = 1; i < statecount; ++i)` visits. -/
def scanStates : List ProcState :=
  [.embryo, .sleeping, .runnable, .running, .zombie]

/-- The ready lists a scan `for(j = MAXPRIO; j >= 0; --j)` visits. -/
def readyDown : List (Fin (maxPrio + 1)) :=
  [6, 5, 4, 3, 2, 1, 0]

/-- The ready lists that the promotion visits. -/
def promotedPrios : List (Fin (maxPrio + 1)) :=
  [5, 4, 3, 2, 1, 0]

/-- `if(ptable.list[RUNNABLE].head) panic("Runnable list should be empty")`. -/
def checkRunnableEmpty (t : PTable) : Except Fault Unit :=
  if (t.list .runnable).head.isSome then .error .runnableList else .ok ()

/-! ### Creating a process -/

/-- The critical section of `allocproc` on the slot it read from the free list. -/
def allocLocked (t : PTable) (p : Slot) : Except Fault PTable := do
  let t' ← changeState t p stateList .unused
    (fun x => { x with state := .embryo, pid := t.nextpid }) stateList
  .ok { t' with nextpid := t.nextpid + 1 }

/-- The end of `allocproc`, after `kalloc` succeeded.  The assignment to `start_ticks` is under
`#ifdef CS333_p1`, which no build defines. -/
def allocSetup (t : PTable) (p : Slot) : PTable :=
  t.modify p fun x =>
    { x with kstack := true, cpuTicksTotal := 0, cpuTicksIn := 0, budget := BUDGET,
             priority := maxPrio }

/-- The rollback of `allocproc` when `kalloc` fails, and of `fork` when `copyuvm` fails. -/
def rollback (t : PTable) (p : Slot) : Except Fault PTable :=
  changeState (t.modify p ({ · with kstack := false })) p stateList .embryo
    ({ · with state := .unused }) stateList

/-- The assignments of `userinit` between `allocproc` and its last critical section. -/
def userinitFill (t : PTable) (p : Slot) (root : Nat) : PTable :=
  { t.modify p ({ · with sz := PGSIZE, cwd := some root }) with initproc := some p }

/-- The last critical section of `userinit`. -/
def userinitEnqueue (t : PTable) (p : Slot) : Except Fault PTable :=
  changeState { t with promoteAtTime := t.ticks + TICKS_TO_PROMOTE } p stateList .embryo
    ({ · with state := .runnable, uid := DEFAULT_UID, gid := DEFAULT_GID }) priorityList

/-- The assignments of `fork` between `copyuvm` and its last critical section. A descriptor that
the parent does not use is left as it was. -/
def forkFill (t : PTable) (curproc np : Slot) : PTable :=
  let c := t.proc curproc
  t.modify np fun x =>
    { x with uid := c.uid, gid := c.gid, sz := c.sz, parent := some curproc,
             ofile := fun i => (c.ofile i).or (x.ofile i), cwd := c.cwd }

/-- The last critical section of `fork`. -/
def forkEnqueue (t : PTable) (np : Slot) : Except Fault PTable :=
  changeState t np stateList .embryo ({ · with state := .runnable }) (fun _ => readyList maxPrio)

/-! ### Giving up the processor -/

/-- `sched` up to the context switch. -/
def sched (t : PTable) (p : Slot) : Except Fault PTable :=
  if (t.proc p).state = .running then .error .schedRunning
  else .ok (t.modify p fun x =>
    { x with cpuTicksTotal := x.cpuTicksTotal + (t.ticks - x.cpuTicksIn) })

/-- The charge for a time slice that ends at `ticks`, as `yield` and `sleep` make it. -/
def charge (ticks : UInt32) (x : Proc) : Proc :=
  let budget := x.budget - (ticks - x.cpuTicksIn).toInt32
  if budget ≤ 0 then
    { x with priority := if x.priority > 0 then x.priority - 1 else x.priority, budget := BUDGET }
  else { x with budget := budget }

/-- `yield`. -/
def yield (t : PTable) (p : Slot) : Except Fault PTable := do
  let t := t.modify p (charge t.ticks)
  let t ← changeState t p stateList .running ({ · with state := .runnable }) priorityList
  sched t p

/-- `sleep`, up to the context switch. -/
def sleep (t : PTable) (p : Slot) (chan : Chan) : Except Fault PTable := do
  let t ← changeState t p stateList .running
    (fun x => { x with chan := chan, state := .sleeping }) stateList
  sched (t.modify p (charge t.ticks)) p

/-- The assignment `p->chan = 0` when `sleep` gets the processor back. -/
def sleepTidy (t : PTable) (p : Slot) : PTable :=
  t.modify p ({ · with chan := .null })

/-! ### Waking up -/

/-- The body of the loop of `wakeup1`. -/
def wakeupOne (chan : Chan) (t : PTable) (p : Slot) : Except Fault PTable :=
  if (t.proc p).chan = chan then
    changeState t p stateList .sleeping ({ · with state := .runnable }) priorityList
  else .ok t

/-- `wakeup1`. -/
def wakeup1 (t : PTable) (chan : Chan) : Except Fault PTable :=
  walkSaved (wakeupOne chan) (NPROC + 1) t (t.list .sleeping).head

/-! ### Exiting -/

/-- The body of the loop of `exit` over a ready list. -/
def adoptReady (curproc : Slot) (t : PTable) (p : Slot) : Except Fault PTable :=
  if (t.proc p).parent = some curproc then
    .ok (t.modify p ({ · with parent := t.initproc }))
  else .ok t

/-- The body of the loop of `exit` over a state list. -/
def adopt (curproc : Slot) (t : PTable) (p : Slot) : Except Fault PTable :=
  if (t.proc p).parent = some curproc then
    let t := t.modify p ({ · with parent := t.initproc })
    if (t.proc p).state = .zombie then wakeup1 t (Chan.ofPtr t.initproc) else .ok t
  else .ok t

/-- `exit` passing the children of `curproc` on the lists of one state to `initproc`. -/
def adoptState (curproc : Slot) (t : PTable) (i : ProcState) : Except Fault PTable :=
  if i = .runnable then do
    checkRunnableEmpty t
    readyDown.foldlM (fun t j => walk (adoptReady curproc) (NPROC + 1) t (t.ready j).head) t
  else walk (adopt curproc) (NPROC + 1) t (t.list i).head

/-- The critical section of `exit`. -/
def exit (t : PTable) (curproc : Slot) : Except Fault PTable := do
  let t ← wakeup1 t (Chan.ofPtr (t.proc curproc).parent)
  let t ← scanStates.foldlM (adoptState curproc) t
  let t ← changeState t curproc stateList .running ({ · with state := .zombie }) stateList
  sched t curproc

/-! ### Waiting -/

/-- How a pass of the loop of `wait` ends: it returns the pid of a child, it returns `-1`, or it
sleeps. -/
inductive WaitResult where
  | reaped (pid : UInt32)
  | failed
  | asleep
  deriving DecidableEq, Repr

/-- `wait` freeing the slot of a zombie child. -/
def reap (t : PTable) (p : Slot) : Except Fault PTable :=
  changeState
    (t.modify p fun x => { x with kstack := false, pid := 0, parent := none, killed := false })
    p stateList .zombie ({ · with state := .unused }) stateList

/-- Whether some slot of the ready lists `js` is a child of `curproc`, or `havekids` held before. -/
def readyKids (t : PTable) (curproc : Slot) :
    List (Fin (maxPrio + 1)) → Bool → Except Fault Bool
  | [], havekids => .ok havekids
  | j :: js, havekids => do
      match ← findFirst t (·.parent = some curproc) (NPROC + 1) (t.ready j).head with
      | none => readyKids t curproc js havekids
      | some _ => readyKids t curproc js true

/-- The scan of `wait` over the lists of the states `is`, and what follows it. -/
def waitLoop (t : PTable) (curproc : Slot) :
    List ProcState → Bool → Except Fault (WaitResult × PTable)
  | [], havekids =>
      if !havekids || (t.proc curproc).killed then .ok (.failed, t)
      else do
        let t ← sleep t curproc (.proc curproc)
        .ok (.asleep, t)
  | i :: is, havekids =>
      if i = .runnable then do
        checkRunnableEmpty t
        let havekids ← readyKids t curproc readyDown havekids
        waitLoop t curproc is havekids
      else do
        match ← findFirst t (·.parent = some curproc) (NPROC + 1) (t.list i).head with
        | none => waitLoop t curproc is havekids
        | some p =>
            if (t.proc p).state = .zombie then do
              let pid := (t.proc p).pid
              let t ← reap t p
              .ok (.reaped pid, t)
            else waitLoop t curproc is true

/-- One pass of the loop of `wait`. -/
def wait (t : PTable) (curproc : Slot) : Except Fault (WaitResult × PTable) :=
  waitLoop t curproc scanStates false

/-! ### Finding a process by its pid -/

/-- The first slot with the given pid on the ready lists `js`. -/
def findReady (t : PTable) (pid : UInt32) :
    List (Fin (maxPrio + 1)) → Except Fault (Option (ListId × Slot))
  | [] => .ok none
  | j :: js => do
      match ← findFirst t (·.pid = pid) (NPROC + 1) (t.ready j).head with
      | some p => .ok (some (.ready j, p))
      | none => findReady t pid js

/-- The first slot with the given pid on the lists of the states `is`, with its list. -/
def findPid (t : PTable) (pid : UInt32) :
    List ProcState → Except Fault (Option (ListId × Slot))
  | [] => .ok none
  | i :: is =>
      if i = .runnable then do
        checkRunnableEmpty t
        match ← findReady t pid readyDown with
        | some r => .ok (some r)
        | none => findPid t pid is
      else do
        match ← findFirst t (·.pid = pid) (NPROC + 1) (t.list i).head with
        | some p => .ok (some (.list i, p))
        | none => findPid t pid is

/-- `kill`. -/
def kill (t : PTable) (pid : Int32) : Except Fault (Int × PTable) := do
  match ← findPid t pid.toUInt32 scanStates with
  | none => .ok (-1, t)
  | some (.ready _, p) => .ok (0, t.modify p ({ · with killed := true }))
  | some (.list _, p) =>
      let t := t.modify p ({ · with killed := true })
      if (t.proc p).state = .sleeping then do
        let t ← changeState t p stateList .sleeping ({ · with state := .runnable }) priorityList
        .ok (0, t)
      else .ok (0, t)

/-- `setpriority`. -/
def setpriority (t : PTable) (pid priority : Int32) : Except Fault (Int × PTable) := do
  if pid < 0 ∨ pid > 32767 then .ok (-1, t)
  else if priority < 0 ∨ priority.toInt > maxPrio then .ok (-1, t)
  else
    let prio := priority.toInt.toNat
    match ← findPid t pid.toUInt32 [.sleeping, .runnable, .running] with
    | none => .ok (-1, t)
    | some (.ready j, p) =>
        if (t.proc p).priority ≠ prio then do
          let t ← removeOrPanic t (← readyList (t.proc p).priority) p
          assertState t p .runnable
          if (t.proc p).priority ≠ j then .error .priorityList
          else
            let t := t.modify p ({ · with priority := prio, budget := BUDGET })
            let t ← stateListAdd t (← readyList (t.proc p).priority) p
            .ok (0, t)
        else .ok (0, t)
    | some (.list _, p) =>
        if (t.proc p).priority ≠ prio then
          .ok (0, t.modify p ({ · with priority := prio, budget := BUDGET }))
        else .ok (0, t)

/-- `getpriority`. -/
def getpriority (t : PTable) (pid : Int32) : Except Fault Int32 := do
  if pid < 0 ∨ pid > 32767 then .ok (-1)
  else
    match ← findPid t pid.toUInt32 [.sleeping, .runnable, .running, .zombie] with
    | none => .ok (-1)
    | some (_, p) => .ok (.ofNat (t.proc p).priority)

/-! ### Scheduling -/

/-- The body of the loop of the promotion over `ready[j]`. -/
def promoteReady (j : Fin (maxPrio + 1)) (t : PTable) (p : Slot) : Except Fault PTable :=
  let t := t.modify p ({ · with budget := BUDGET })
  if (t.proc p).priority < maxPrio then do
    let t ← removeOrPanic t (← readyList (t.proc p).priority) p
    assertState t p .runnable
    if (t.proc p).priority ≠ j then .error .priorityList
    else
      let t ← stateListAdd t (← readyList ((t.proc p).priority + 1)) p
      .ok (t.modify p fun x => { x with priority := x.priority + 1 })
  else .ok t

/-- The body of the loop of the promotion over `list[SLEEPING]` and `list[RUNNING]`. -/
def promoteOther (t : PTable) (p : Slot) : Except Fault PTable :=
  .ok (t.modify p fun x =>
    { x with budget := BUDGET,
             priority := if x.priority < maxPrio then x.priority + 1 else x.priority })

/-- The promotion of the slots on the lists of one state. -/
def promoteState (t : PTable) (i : ProcState) : Except Fault PTable :=
  if i = .runnable then do
    checkRunnableEmpty t
    promotedPrios.foldlM
      (fun t j => walkSaved (promoteReady j) (NPROC + 1) t (t.ready j).head) t
  else walk promoteOther (NPROC + 1) t (t.list i).head

/-- The promotion at the start of a pass of `scheduler`. -/
def promoteAll (t : PTable) : Except Fault PTable :=
  if t.ticks ≥ t.promoteAtTime then do
    let t ← [ProcState.sleeping, .runnable, .running].foldlM promoteState t
    .ok { t with promoteAtTime := t.ticks + TICKS_TO_PROMOTE }
  else .ok t

/-- The choice of `scheduler` among the ready lists `js`: the slot it switches to, if any. -/
def dispatch (t : PTable) : List (Fin (maxPrio + 1)) → Except Fault (Option Slot × PTable)
  | [] => .ok (none, t)
  | j :: js =>
      match (t.ready j).head with
      | none => dispatch t js
      | some p => do
          let t ← changeState t p (fun _ => .ok (.ready j)) .runnable
            ({ · with state := .running }) stateList
          .ok (some p, t.modify p ({ · with cpuTicksIn := t.ticks }))

/-- A pass of `scheduler` up to the context switch. -/
def scheduler (t : PTable) : Except Fault (Option Slot × PTable) := do
  let t ← promoteAll t
  dispatch t readyDown

end Xv6.Ptable
