import Xv6.Lib.Micro
import Xv6.Proc.Priority

/-!
# The critical sections of `proc.c`, step by step

The functions that `sleep`, `wakeup1`, `kill`, `yield` and `scheduler` call, as programs in which
every read and every write of a list pointer, and every change of a slot's fields, is a step of its
own.  Run without interruption they compute the functions of `Xv6.Proc.Operations`.
-/

namespace Xv6.Ptable

namespace PTable

/-- `(*list).head = p`. -/
def setHead (t : PTable) (id : ListId) (p : Option Slot) : PTable :=
  t.setPtrs id ⟨p, (t.ptrs id).tail⟩

/-- `(*list).tail = p`. -/
def setTail (t : PTable) (id : ListId) (p : Option Slot) : PTable :=
  t.setPtrs id ⟨(t.ptrs id).head, p⟩

/-- `p->next = x`. -/
def setNext (t : PTable) (p : Slot) (x : Option Slot) : PTable :=
  { t with next := Function.update t.next p x }

@[simp]
theorem setPtrs_setPtrs (t : PTable) (id : ListId) (e e' : Ptrs) :
  (t.setPtrs id e).setPtrs id e' = t.setPtrs id e'
  := by cases id <;> simp [setPtrs]

@[simp]
theorem ptrs_setNext (t : PTable) (p : Slot) (x : Option Slot) (id : ListId) :
  (t.setNext p x).ptrs id = t.ptrs id
  := by cases id <;> rfl

theorem setNext_setPtrs (t : PTable) (id : ListId) (e : Ptrs) (p : Slot) (x : Option Slot) :
  (t.setPtrs id e).setNext p x = (t.setNext p x).setPtrs id e
  := by cases id <;> rfl

end PTable

/-- The slot is `SLEEPING` on the channel. -/
def Asleep (chan : Chan) (t : PTable) (p : Slot) : Prop :=
  (t.proc p).state = .sleeping ∧ (t.proc p).chan = chan

/-- A program that changes the table. -/
abbrev Prog : Type := Micro PTable Fault Unit

namespace Stepwise

open Micro

/-- An assignment through `(*list).tail`. -/
def atTail (id : ListId) (f : PTable → Slot → PTable) : Prog :=
  tryWrite fun t =>
    match (t.ptrs id).tail with
    | none => .error .nullPointer
    | some l => .ok (f t l)

/-- `stateListAdd`. -/
def stateListAdd (id : ListId) (p : Slot) : Prog := do
  let t ← read
  match (t.ptrs id).head with
  | none =>
      write (·.setHead id (some p))
      write (·.setTail id (some p))
      write (·.setNext p none)
  | some _ =>
      atTail id fun t l => t.setNext l (some p)
      atTail id fun t l => t.setTail id (t.next l)
      atTail id fun t l => t.setNext l none

/-- The search loop of `stateListRemove`. -/
def findLoop (p : Slot) :
    Nat → Option Slot → Option Slot → Micro PTable Fault (Option Slot × Option Slot)
  | 0, _, _ => .fail .diverges
  | _ + 1, previous, none => .ret (previous, none)
  | fuel + 1, previous, some current =>
      if current = p then .ret (previous, some current)
      else do
        let t ← read
        findLoop p fuel (some current) (t.next current)

/-- `stateListRemove` once the search loop found `p`. -/
def unlink (id : ListId) (p : Slot) (previous : Option Slot) (current : Slot) :
    Micro PTable Fault Int := do
  let t ← read
  if (t.ptrs id).tail = some current then
    write (·.setTail id previous)
    atTail id fun t l => t.setNext l none
  else
    match previous with
    | none => .fail .nullPointer
    | some v => write fun t => t.setNext v (t.next current)
  write (·.setNext p none)
  pure 0

/-- `stateListRemove`. -/
def stateListRemove (id : ListId) (p : Slot) : Micro PTable Fault Int := do
  let t ← read
  match (t.ptrs id).head, (t.ptrs id).tail with
  | some h, some _ =>
      if h = p then
        write fun t => t.setHead id (t.next h)
        let t ← read
        if (t.ptrs id).tail = some p then write (·.setTail id none)
        pure 0
      else
        let (previous, current) ← findLoop p (NPROC + 1) none (some h)
        match current with
        | none => pure (-1)
        | some c => unlink id p previous c
  | _, _ => pure (-1)

/-- `assertState`. -/
def assertState (p : Slot) (s : ProcState) : Prog := do
  let t ← read
  lift (Ptable.assertState t p s)

/-- `if(stateListRemove(..) == -1) panic(..)`. -/
def removeOrPanic (id : ListId) (p : Slot) : Prog := do
  let r ← stateListRemove id p
  if r = -1 then .fail .emptyList else pure ()

/-- Assignments to fields of a slot, one after the other. -/
def assign (p : Slot) : List (Proc → Proc) → Prog
  | [] => pure ()
  | f :: fs => do
      write (·.modify p f)
      assign p fs

/-- The block at every change of state. -/
def changeState (p : Slot) (src : Proc → Except Fault ListId) (s : ProcState)
    (fs : List (Proc → Proc)) (dst : Proc → Except Fault ListId) : Prog := do
  let t ← read
  let id ← lift (src (t.proc p))
  removeOrPanic id p
  assertState p s
  assign p fs
  let t ← read
  let id ← lift (dst (t.proc p))
  stateListAdd id p

/-- `sleep` under `ptable.lock`, up to the context switch. -/
def sleep (p : Slot) (chan : Chan) : Prog := do
  changeState p stateList .running
    [fun x => { x with chan := chan }, fun x => { x with state := .sleeping }] stateList
  write fun t => t.modify p (charge t.ticks)
  tryWrite fun t => sched t p

/-- `yield` under `ptable.lock`, up to the context switch. -/
def yield (p : Slot) : Prog := do
  write fun t => t.modify p (charge t.ticks)
  changeState p stateList .running [fun x => { x with state := .runnable }] priorityList
  tryWrite fun t => sched t p

/-- The body of the loop of `wakeup1`. -/
def wakeupOne (chan : Chan) (p : Slot) : Prog := do
  let t ← read
  if (t.proc p).chan = chan then
    changeState p stateList .sleeping [fun x => { x with state := .runnable }] priorityList
  else pure ()

/-- `while(p){ temp = p->next; body; p = temp; }`. -/
def walkSaved (body : Slot → Prog) : Nat → Option Slot → Prog
  | 0, _ => .fail .diverges
  | _ + 1, none => pure ()
  | fuel + 1, some p => do
      let t ← read
      let temp := t.next p
      body p
      walkSaved body fuel temp

/-- `wakeup1`. -/
def wakeup1 (chan : Chan) : Prog := do
  let t ← read
  walkSaved (wakeupOne chan) (NPROC + 1) (t.list .sleeping).head

/-- `kill` under `ptable.lock`. The search only reads the table. -/
def kill (pid : Int32) : Micro PTable Fault Int := do
  let t ← read
  match ← lift (findPid t pid.toUInt32 scanStates) with
  | none => pure (-1)
  | some (.ready _, p) =>
      write (·.modify p ({ · with killed := true }))
      pure 0
  | some (.list _, p) =>
      write (·.modify p ({ · with killed := true }))
      let t ← read
      if (t.proc p).state = .sleeping then
        changeState p stateList .sleeping [fun x => { x with state := .runnable }] priorityList
      pure 0

/-- The choice of `scheduler` among the ready lists `js`. -/
def dispatch : List (Fin (maxPrio + 1)) → Micro PTable Fault (Option Slot)
  | [] => pure none
  | j :: js => do
      let t ← read
      match (t.ready j).head with
      | none => dispatch js
      | some p =>
          changeState p (fun _ => .ok (.ready j)) .runnable
            [fun x => { x with state := .running }] stateList
          write fun t => t.modify p ({ · with cpuTicksIn := t.ticks })
          pure (some p)

/-- A pass of `scheduler` up to the context switch, with the promotion as one step. -/
def scheduler : Micro PTable Fault (Option Slot) := do
  tryWrite promoteAll
  dispatch readyDown

/-! ### What the programs compute -/

/-- The program `x` computes the function `f` of the table. -/
def Computes (x : Prog) (f : PTable → Except Fault PTable) : Prop :=
  ∀ t, x.exec t = (f t).map (Prod.mk ())

theorem Computes.exec_bind
    {α : Type} {x : Prog} {f : PTable → Except Fault PTable} (h : Computes x f)
    (k : Unit → Micro PTable Fault α) (t : PTable) :
  (x >>= k).exec t = f t >>= fun t' => (k ()).exec t'
  := by
  rw [Micro.exec_bind, h t]
  cases f t <;> rfl

theorem Computes.bind
    {x y : Prog} {f g : PTable → Except Fault PTable} (hx : Computes x f) (hy : Computes y g) :
  Computes (x >>= fun _ => y) (fun t => f t >>= g)
  := by
  intro t
  dsimp only
  rw [hx.exec_bind]
  cases f t with
  | error e => rfl
  | ok t' => apply hy

theorem Computes.tryWrite (f : PTable → Except Fault PTable) :
  Computes (tryWrite f) f
  := by
  intro t
  rw [exec_tryWrite]
  cases f t <;> rfl

/-- A program that goes on with what it finds in the table. -/
theorem Computes.read_lift
    {α : Type} {e : PTable → Except Fault α} {x : α → Prog}
    {f : α → PTable → Except Fault PTable} (h : ∀ a, Computes (x a) (f a)) :
  Computes (read >>= fun t => lift (e t) >>= x) (fun t => e t >>= fun a => f a t)
  := by
  intro t
  dsimp only
  rw [exec_read_bind, exec_lift_bind]
  cases e t with
  | error e => rfl
  | ok a => apply h

theorem exec_atTail_bind
    {α : Type} {id : ListId} {t : PTable} {l : Slot} (h : (t.ptrs id).tail = some l)
    (f : PTable → Slot → PTable) (k : Unit → Micro PTable Fault α) :
  (atTail id f >>= k).exec t = (k ()).exec (f t l)
  := by
  rw [atTail, exec_tryWrite_bind, h]
  rfl

theorem stateListAdd_computes (id : ListId) (p : Slot) :
  Computes (stateListAdd id p) (Ptable.stateListAdd · id p)
  := by
  intro t
  dsimp only
  rw [stateListAdd, exec_read_bind, Ptable.stateListAdd]
  cases hh : (t.ptrs id).head with
  | none =>
    simp only [exec_write_bind, exec_write, PTable.setHead, PTable.setTail,
      PTable.ptrs_setPtrs_self, PTable.setPtrs_setPtrs, PTable.setNext_setPtrs]
    rfl
  | some h =>
    cases hl : (t.ptrs id).tail with
    | none =>
      simp only [atTail, exec_tryWrite_bind, hl]
      rfl
    | some l =>
      have hl₁ : ((t.setNext l (some p)).ptrs id).tail = some l := by
        rw [PTable.ptrs_setNext, hl]
      have hnext : (t.setNext l (some p)).next l = some p := Function.update_self ..
      rw [exec_atTail_bind hl, exec_atTail_bind hl₁, atTail, exec_tryWrite, hnext,
        PTable.setTail, PTable.ptrs_setPtrs_self, PTable.ptrs_setNext, hh]
      simp only [PTable.setNext_setPtrs]
      rfl

theorem exec_findLoop (p : Slot) (fuel : Nat) (previous current : Option Slot) (t : PTable) :
  (findLoop p fuel previous current).exec t
    = (Ptable.findLoop t.next p fuel previous current).map (·, t)
  := by
  induction fuel generalizing previous current with
  | zero => rfl
  | succ fuel ih =>
    cases current with
    | none => rfl
    | some current =>
      rw [findLoop, Ptable.findLoop]
      by_cases hc : current = p
      · rw [if_pos hc, if_pos hc]
        rfl
      · rw [if_neg hc, if_neg hc, exec_read_bind, ih]

/-- The end of `stateListRemove` in terms of the table. -/
theorem exec_unlink
    {t : PTable} {id : ListId} {p h l c : Slot} {previous : Option Slot}
    (hh : (t.ptrs id).head = some h) (hl : (t.ptrs id).tail = some l) :
  (unlink id p previous c).exec t
    = match previous with
      | none => .error .nullPointer
      | some v =>
          if c = l then
            .ok (0, { t with
              next := Function.update (Function.update t.next v none) p none }.setPtrs
                id ⟨some h, some v⟩)
          else
            .ok (0, { t with
              next := Function.update (Function.update t.next v (t.next c)) p none })
  := by
  rw [unlink, exec_read_bind, hl]
  by_cases hc : c = l
  · subst hc
    rw [if_pos rfl]
    cases previous with
    | none =>
      have hnone : ((t.setTail id none).ptrs id).tail = none := by
        rw [PTable.setTail, PTable.ptrs_setPtrs_self]
      rw [exec_write_bind, atTail, exec_tryWrite_bind, hnone]
      rfl
    | some v =>
      have htail : ((t.setTail id (some v)).ptrs id).tail = some v := by
        rw [PTable.setTail, PTable.ptrs_setPtrs_self]
      simp only [exec_write_bind, exec_atTail_bind htail, if_true]
      simp only [PTable.setTail, hh, PTable.setNext_setPtrs]
      rfl
  · rw [if_neg (by simpa using Ne.symm hc)]
    cases previous with
    | none => rfl
    | some v =>
      simp only
      rw [if_neg hc]
      rfl

theorem exec_stateListRemove (id : ListId) (p : Slot) (t : PTable) :
  (stateListRemove id p).exec t = Ptable.stateListRemove t id p
  := by
  rw [stateListRemove, exec_read_bind, Ptable.stateListRemove]
  cases hh : (t.ptrs id).head with
  | none => rfl
  | some h =>
    cases hl : (t.ptrs id).tail with
    | none => rfl
    | some l =>
      by_cases hp : h = p
      · simp only
        rw [if_pos hp, if_pos hp, exec_write_bind, exec_read_bind]
        simp only [PTable.setHead, PTable.ptrs_setPtrs_self, hl]
        by_cases hlp : l = p
        · rw [if_pos (by rw [hlp]), if_pos hlp]
          simp [PTable.setTail]
        · rw [if_neg (by simpa using hlp), if_neg hlp]
          rfl
      · simp only
        rw [if_neg hp, if_neg hp, Micro.exec_bind, exec_findLoop]
        cases hf : Ptable.findLoop t.next p (NPROC + 1) none (some h) with
        | error e => rfl
        | ok r =>
          obtain ⟨previous, current⟩ := r
          cases current with
          | none => rfl
          | some c => apply exec_unlink hh hl

theorem removeOrPanic_computes (id : ListId) (p : Slot) :
  Computes (removeOrPanic id p) (Ptable.removeOrPanic · id p)
  := by
  intro t
  dsimp only
  rw [removeOrPanic, Micro.exec_bind, exec_stateListRemove, Ptable.removeOrPanic]
  cases Ptable.stateListRemove t id p with
  | error e => rfl
  | ok r =>
    obtain ⟨r, t'⟩ := r
    by_cases hr : r = -1
    · simp only [bind, Except.bind, if_pos hr]
      rfl
    · simp only [bind, Except.bind, if_neg hr]
      rfl

/-- The assignments `fs` made one after the other. -/
def through (fs : List (Proc → Proc)) (x : Proc) : Proc :=
  fs.foldl (fun x f => f x) x

theorem assign_computes (p : Slot) (fs : List (Proc → Proc)) :
  Computes (assign p fs) (fun t => .ok (t.modify p (through fs)))
  := by
  induction fs with
  | nil =>
    intro t
    simp [assign, through, PTable.modify, Except.map]
  | cons f fs ih =>
    intro t
    rw [assign, exec_write_bind, ih]
    simp [PTable.modify, through]

theorem changeState_computes
    (p : Slot) (src : Proc → Except Fault ListId) (s : ProcState) (fs : List (Proc → Proc))
    (dst : Proc → Except Fault ListId) :
  Computes (changeState p src s fs dst) (Ptable.changeState · p src s (through fs) dst)
  := by
  apply Computes.read_lift
  intro id
  apply (removeOrPanic_computes id p).bind
  apply Computes.read_lift
  intro _ t
  rw [(assign_computes p fs).exec_bind]
  have hadd := Computes.read_lift (e := fun t => dst (t.proc p)) (stateListAdd_computes · p)
  apply hadd

theorem sleep_computes (p : Slot) (chan : Chan) :
  Computes (sleep p chan) (Ptable.sleep · p chan)
  := by
  apply Computes.bind (changeState_computes _ _ _ _ _)
  intro t
  rw [exec_write_bind]
  apply Computes.tryWrite

theorem yield_computes (p : Slot) :
  Computes (yield p) (Ptable.yield · p)
  := by
  intro t
  rw [yield, exec_write_bind]
  apply Computes.bind (changeState_computes _ _ _ _ _) (.tryWrite _)

theorem walkSaved_computes
    {body : Slot → Prog} {f : PTable → Slot → Except Fault PTable}
    (h : ∀ p, Computes (body p) (f · p)) (fuel : Nat) (p : Option Slot) :
  Computes (walkSaved body fuel p) (Ptable.walkSaved f fuel · p)
  := by
  induction fuel generalizing p with
  | zero => exact fun _ => rfl
  | succ fuel ih =>
    cases p with
    | none => exact fun _ => rfl
    | some p =>
      intro t
      rw [walkSaved, exec_read_bind]
      apply (h p).bind (ih _)

theorem wakeup1_computes (chan : Chan) :
  Computes (wakeup1 chan) (Ptable.wakeup1 · chan)
  := by
  intro t
  rw [wakeup1, exec_read_bind]
  apply walkSaved_computes
  intro p t
  dsimp only
  rw [wakeupOne, exec_read_bind, Ptable.wakeupOne]
  by_cases hc : (t.proc p).chan = chan
  · rw [if_pos hc, if_pos hc]
    apply changeState_computes
  · rw [if_neg hc, if_neg hc]
    rfl

theorem exec_kill (pid : Int32) (t : PTable) :
  (kill pid).exec t = Ptable.kill t pid
  := by
  rw [kill, exec_read_bind, exec_lift_bind, Ptable.kill]
  cases findPid t pid.toUInt32 scanStates with
  | error e => rfl
  | ok o =>
    rcases o with _ | ⟨_ | _, p⟩
    · rfl
    · change (write (·.modify p ({ · with killed := true })) >>= fun _ => read >>= _).exec t = _
      rw [exec_write_bind, exec_read_bind]
      change _ = if ((t.modify p ({ · with killed := true })).proc p).state = .sleeping then _
        else _
      by_cases hs : ((t.modify p ({ · with killed := true })).proc p).state = .sleeping
      · rw [if_pos hs, if_pos hs, (changeState_computes _ _ _ _ _).exec_bind]
        rfl
      · rw [if_neg hs, if_neg hs]
        rfl
    · rfl

theorem exec_dispatch (js : List (Fin (maxPrio + 1))) (t : PTable) :
  (dispatch js).exec t = Ptable.dispatch t js
  := by
  induction js with
  | nil => rfl
  | cons j js ih =>
    rw [dispatch, exec_read_bind, Ptable.dispatch]
    cases (t.ready j).head with
    | none => apply ih
    | some p =>
      simp only
      rw [(changeState_computes _ _ _ _ _).exec_bind]
      rfl

theorem exec_scheduler (t : PTable) :
  scheduler.exec t = Ptable.scheduler t
  := by
  rw [scheduler, exec_tryWrite_bind, Ptable.scheduler]
  cases promoteAll t with
  | error e => rfl
  | ok t₁ => apply exec_dispatch

/-! ### What each step leaves alone -/

/-- A step that does not change the slots. -/
def SameProcs (t t' : PTable) : Prop :=
  t'.proc = t.proc

theorem SameProcs.refl (t : PTable) : SameProcs t t := rfl

theorem SameProcs.setNext (t : PTable) (p : Slot) (x : Option Slot) :
  SameProcs t (t.setNext p x)
  := rfl

theorem SameProcs.setPtrs (t : PTable) (id : ListId) (e : Ptrs) :
  SameProcs t (t.setPtrs id e)
  := by cases id <;> rfl

variable {P : PTable → PTable → Prop} {t : PTable}

theorem atTail_along (id : ListId) {f : PTable → Slot → PTable} (hP : ∀ l, P t (f t l)) :
  (atTail id f).Along P t
  := by
  apply Along.tryWrite
  intro t' ht'
  cases hl : (t.ptrs id).tail with
  | none =>
    rw [hl] at ht'
    cases ht'
  | some l =>
    rw [hl] at ht'
    cases ht'
    apply hP

/-- The steps of the list functions do not change the slots. -/
theorem stateListAdd_along (id : ListId) (p : Slot) :
  (stateListAdd id p).Along SameProcs t
  := by
  rw [stateListAdd]
  apply Along.read_bind (SameProcs.refl _)
  cases (t.ptrs id).head with
  | none =>
    apply Along.write_bind (SameProcs.setPtrs ..)
    apply Along.write_bind (SameProcs.setPtrs ..)
    apply Along.write (SameProcs.setNext ..)
  | some _ =>
    apply Along.bind (atTail_along id fun _ => SameProcs.setNext ..)
    intro _ t _
    apply Along.bind (atTail_along id fun _ => SameProcs.setPtrs ..)
    intro _ t _
    apply atTail_along id fun _ => SameProcs.setNext ..

theorem findLoop_along (p : Slot) (fuel : Nat) (previous current : Option Slot) :
  (findLoop p fuel previous current).Along SameProcs t
  := by
  induction fuel generalizing previous current t with
  | zero => trivial
  | succ fuel ih =>
    cases current with
    | none => trivial
    | some current =>
      rw [findLoop]
      by_cases hc : current = p
      · rw [if_pos hc]
        trivial
      · rw [if_neg hc]
        apply Along.read_bind (SameProcs.refl _)
        apply ih

theorem unlink_along (id : ListId) (p : Slot) (previous : Option Slot) (current : Slot) :
  (unlink id p previous current).Along SameProcs t
  := by
  have hend (t : PTable) :
      (write (·.setNext p none) >>= fun _ => pure 0 : Micro PTable Fault Int).Along
        SameProcs t := by
    apply Along.write_bind (SameProcs.setNext ..)
    trivial
  rw [unlink]
  apply Along.read_bind (SameProcs.refl _)
  by_cases htail : (t.ptrs id).tail = some current
  · simp only [if_pos htail]
    apply Along.write_bind (SameProcs.setPtrs ..)
    apply Along.bind (atTail_along id fun _ => SameProcs.setNext ..)
    intro _ t _
    apply hend
  · simp only [if_neg htail]
    cases previous with
    | none => trivial
    | some v =>
      apply Along.write_bind (SameProcs.setNext ..)
      apply hend

theorem stateListRemove_along (id : ListId) (p : Slot) :
  (stateListRemove id p).Along SameProcs t
  := by
  rw [stateListRemove]
  apply Along.read_bind (SameProcs.refl _)
  cases (t.ptrs id).head with
  | none => trivial
  | some h =>
    cases (t.ptrs id).tail with
    | none => trivial
    | some l =>
      by_cases hp : h = p
      · simp only [if_pos hp]
        apply Along.write_bind (SameProcs.setPtrs ..)
        apply Along.read_bind (SameProcs.refl _)
        simp only [PTable.setHead, PTable.ptrs_setPtrs_self]
        split
        · apply Along.write_bind (SameProcs.setPtrs ..)
          trivial
        · trivial
      · simp only [if_neg hp]
        apply Along.bind (findLoop_along ..)
        intro r t _
        obtain ⟨previous, current⟩ := r
        cases current with
        | none => trivial
        | some c => apply unlink_along

theorem removeOrPanic_along (id : ListId) (p : Slot) :
  (removeOrPanic id p).Along SameProcs t
  := by
  rw [removeOrPanic]
  apply Along.bind (stateListRemove_along id p)
  intro r t _
  by_cases hr : r = -1
  · rw [if_pos hr]
    trivial
  · rw [if_neg hr]
    trivial

theorem assign_along
    {p : Slot} {fs : List (Proc → Proc)} (h : ∀ f ∈ fs, ∀ t, P t (t.modify p f)) :
  (assign p fs).Along P t
  := by
  induction fs generalizing t with
  | nil => trivial
  | cons f fs ih =>
    apply Along.write_bind (h f List.mem_cons_self t)
    apply ih
    intro g hg
    apply h g (List.mem_cons_of_mem f hg)

theorem changeState_along
    {p : Slot} {fs : List (Proc → Proc)} (hsame : ∀ t t', SameProcs t t' → P t t')
    (hfs : ∀ f ∈ fs, ∀ t, P t (t.modify p f))
    (src : Proc → Except Fault ListId) (s : ProcState) (dst : Proc → Except Fault ListId) :
  (changeState p src s fs dst).Along P t
  := by
  have hrefl (t : PTable) : P t t := hsame t t rfl
  rw [changeState]
  apply Along.read_bind (hrefl _)
  apply Along.bind (Along.lift _)
  intro id t _
  apply Along.bind ((removeOrPanic_along id p).mono hsame)
  intro _ t _
  apply Along.bind (Along.read_bind (hrefl _) (Along.lift _))
  intro _ t _
  apply Along.bind (assign_along hfs)
  intro _ t _
  apply Along.read_bind (hrefl _)
  apply Along.bind (Along.lift _)
  intro id' t _
  apply (stateListAdd_along id' p).mono hsame

/-! ### Who falls asleep -/

/-- A step after which nobody sleeps on the channel who did not before, `p` apart. -/
def SleepsOnly (chan : Chan) (p : Option Slot) (t t' : PTable) : Prop :=
  ∀ x, Asleep chan t' x → Asleep chan t x ∨ p = some x

variable {chan : Chan} {p : Slot} {o : Option Slot}

theorem SleepsOnly.of_sameProcs (t t' : PTable) (h : SameProcs t t') :
  SleepsOnly chan o t t'
  := by
  intro x hx
  rw [Asleep, h] at hx
  exact Or.inl hx

theorem SleepsOnly.refl (t : PTable) :
  SleepsOnly chan o t t
  := fun _ hx => Or.inl hx

/-- A step that changes the fields of `p` so that it does not fall asleep. -/
theorem SleepsOnly.modify
    {f : Proc → Proc}
    (hf : (f (t.proc p)).state = .sleeping → (f (t.proc p)).chan = chan →
      (t.proc p).state = .sleeping ∧ (t.proc p).chan = chan) :
  SleepsOnly chan o t (t.modify p f)
  := by
  intro x hx
  by_cases hxp : x = p
  · subst hxp
    rw [Asleep, PTable.modify_proc_self] at hx
    exact Or.inl (hf hx.1 hx.2)
  · rw [Asleep, PTable.modify_proc_of_ne t f hxp] at hx
    exact Or.inl hx

theorem SleepsOnly.modify_self (t : PTable) (p : Slot) (f : Proc → Proc) :
  SleepsOnly chan (some p) t (t.modify p f)
  := by
  intro x hx
  by_cases hxp : x = p
  · exact Or.inr (by rw [hxp])
  · rw [Asleep, PTable.modify_proc_of_ne t f hxp] at hx
    exact Or.inl hx

theorem SleepsOnly.charge (t : PTable) (p : Slot) :
  SleepsOnly chan o t (t.modify p (charge t.ticks))
  := by
  apply SleepsOnly.modify
  rw [charge_state, charge_chan]
  exact And.intro

theorem sched_along (p : Slot) :
  (tryWrite fun t => sched t p).Along (SleepsOnly chan o) t
  := by
  apply Along.tryWrite
  intro t' ht'
  by_cases hs : (t.proc p).state = .running
  · rw [sched, if_pos hs] at ht'
    cases ht'
  · rw [sched_eq hs] at ht'
    cases ht'
    apply SleepsOnly.modify And.intro

/-- A change to a state other than `SLEEPING` puts nobody to sleep. -/
theorem changeState_to_along
    {s' : ProcState} (hs' : s' ≠ .sleeping) (src : Proc → Except Fault ListId) (s : ProcState)
    (dst : Proc → Except Fault ListId) :
  (changeState p src s [fun x => { x with state := s' }] dst).Along (SleepsOnly chan o) t
  := by
  apply changeState_along SleepsOnly.of_sameProcs
  intro f hf t
  rw [List.mem_singleton.mp hf]
  apply SleepsOnly.modify
  intro h
  exact absurd h hs'

/-- In `sleep` only the caller falls asleep. -/
theorem sleep_along (p : Slot) :
  (sleep p chan).Along (SleepsOnly chan (some p)) t
  := by
  rw [sleep]
  apply Along.bind
  · apply changeState_along SleepsOnly.of_sameProcs
    intro f _ t
    apply SleepsOnly.modify_self
  · intro _ t _
    apply Along.write_bind (SleepsOnly.charge t p)
    apply sched_along

theorem yield_along (p : Slot) :
  (yield p).Along (SleepsOnly chan o) t
  := by
  rw [yield]
  apply Along.write_bind (SleepsOnly.charge t p)
  apply Along.bind
  · apply changeState_to_along (by decide)
  · intro _ t _
    apply sched_along

theorem wakeup1_along (chan' : Chan) :
  (wakeup1 chan').Along (SleepsOnly chan o) t
  := by
  have hone (p : Slot) (t : PTable) : (wakeupOne chan' p).Along (SleepsOnly chan o) t := by
    rw [wakeupOne]
    apply Along.read_bind (SleepsOnly.refl t)
    split
    · apply changeState_to_along (by decide)
    · trivial
  have hwalk (fuel : Nat) (p : Option Slot) (t : PTable) :
      (walkSaved (wakeupOne chan') fuel p).Along (SleepsOnly chan o) t := by
    induction fuel generalizing p t with
    | zero => trivial
    | succ fuel ih =>
      cases p with
      | none => trivial
      | some p =>
        apply Along.read_bind (SleepsOnly.refl t)
        apply Along.bind (hone p t)
        intro _ t _
        apply ih
  apply Along.read_bind (SleepsOnly.refl t)
  apply hwalk

theorem kill_along (pid : Int32) :
  (kill pid).Along (SleepsOnly chan o) t
  := by
  rw [kill]
  apply Along.read_bind (SleepsOnly.refl t)
  apply Along.bind (Along.lift _)
  intro r t _
  match r with
  | none => trivial
  | some (.ready _, p) =>
    apply Along.write_bind (SleepsOnly.modify And.intro)
    trivial
  | some (.list _, p) =>
    apply Along.write_bind (SleepsOnly.modify And.intro)
    apply Along.read_bind (SleepsOnly.refl _)
    split
    · apply Along.bind
      · apply changeState_to_along (by decide)
      · intro _ t _
        trivial
    · trivial

theorem dispatch_along (js : List (Fin (maxPrio + 1))) :
  (dispatch js).Along (SleepsOnly chan o) t
  := by
  induction js with
  | nil => trivial
  | cons j js ih =>
    rw [dispatch]
    apply Along.read_bind (SleepsOnly.refl t)
    cases (t.ready j).head with
    | none => apply ih
    | some p =>
      apply Along.bind
      · apply changeState_to_along (by decide)
      · intro _ t _
        apply Along.write_bind (SleepsOnly.modify And.intro)
        trivial

theorem scheduler_along {q : ListId → List Slot} (h : Good t q) :
  scheduler.Along (SleepsOnly chan o) t
  := by
  rw [scheduler]
  apply Along.bind
  · apply Along.tryWrite
    intro t' ht'
    by_cases hticks : t.ticks ≥ t.promoteAtTime
    · obtain ⟨t₁, ht₁, -, hproc, -⟩ := promoteAll_spec h hticks
      obtain rfl : t₁ = t' := Except.ok.inj (ht₁.symm.trans ht')
      intro x hx
      rw [Asleep, hproc, promotion] at hx
      split at hx
      · exact Or.inl hx
      · exact Or.inl hx
    · rw [promoteAll, if_neg hticks] at ht'
      cases ht'
      apply SleepsOnly.refl
  · intro _ t _
    apply dispatch_along

end Stepwise

end Xv6.Ptable
