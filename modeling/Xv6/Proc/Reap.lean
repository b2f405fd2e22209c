import Xv6.Proc.Family

/-!
# Exited children and `wait`

A history records the processes that exit and the calls of `wait` that return.  Every process that
exits is returned by at most one call of `wait`, and no process sleeps in `wait` while it has a
zombie child.
-/

namespace Xv6.Ptable

/-! ### The life of a slot -/

/-- The process of a slot stays, in the same stage. -/
structure Stays (x y : Proc) : Prop where
  stage : y.state.stage = x.state.stage
  pid : y.pid = x.pid

namespace Stays

theorem refl (x : Proc) :
  Stays x x
  := ⟨rfl, rfl⟩

theorem trans {x y z : Proc} (h : Stays x y) (h' : Stays y z) :
  Stays x z
  := ⟨h'.stage.trans h.stage, h'.pid.trans h.pid⟩

theorem active {x y : Proc} (hx : Active x.state) (hy : Active y.state) (hpid : y.pid = x.pid) :
  Stays x y
  := ⟨(active_iff_stage.mp hy).trans (active_iff_stage.mp hx).symm, hpid⟩

theorem charge (ticks : UInt32) (x : Proc) :
  (charge ticks x).pid = x.pid
  := by
  simp only [Ptable.charge]
  split <;> rfl

theorem promotion (x : Proc) :
  Stays x (promotion x)
  := by
  constructor
  · rw [promotion_state]
  · simp only [Ptable.promotion]
    split <;> rfl

theorem woken (chan : Chan) (x : Proc) :
  Stays x (woken chan x)
  := by
  obtain ⟨st, heq, rfl | ⟨hs, rfl⟩⟩ := View.woken_eq chan x
  · rw [heq]
    exact ⟨rfl, rfl⟩
  · rw [heq]
    refine ⟨?_, rfl⟩
    rw [active_iff_stage.mp (.inl hs)]
    rfl

theorem bereaved (v : View) (p : Slot) (x : Proc) :
  Stays x (v.bereaved p x)
  := by
  refine ⟨Family.bereaved_stage v p x, ?_⟩
  obtain ⟨st, parent, heq, -⟩ := v.bereaved_eq p x
  rw [heq]

theorem reprioritized (priority : Nat) (x : Proc) :
  Stays x (reprioritized priority x)
  := by
  constructor
  · rw [reprioritized_state]
  · simp only [Ptable.reprioritized]
    split <;> rfl

end Stays

/-- The labels that allocate a slot. -/
def Label.allocates : Label → Bool
  | .allocproc _ | .allocLock _ | .bootAlloc => true
  | _ => false

/-- The process `p` makes a pass of the loop of `wait`. -/
def View.Waits (v : View) (l : Label) (d : Option Slot) (p : Slot) : Prop :=
  (∃ c, l = .wait c ∧ v.cpu c = some p ∧ (v.thread p).call = .user) ∨
    ∃ c, l = .schedule c ∧ d = some p ∧ (v.thread p).call = .waiting

/-- What a step can do to a slot. -/
inductive Turns (v : View) (l : Label) (d : Option Slot) (v' : View) (x : Slot) : Prop where
  | stays (h : Stays (v.proc x) (v'.proc x))
  | allocated (h : (v.proc x).state = .unused) (h' : (v'.proc x).state = .embryo)
      (hpid : (v'.proc x).pid = v.nextpid) (hl : l.allocates)
  | givenBack (h : (v.proc x).state = .embryo) (h' : (v'.proc x).state = .unused)
  | starts (h : (v.proc x).state = .embryo) (h' : Active (v'.proc x).state)
      (hpid : (v'.proc x).pid = (v.proc x).pid)
  | exits (c : Cpu) (hl : l = .exit c) (hc : v.cpu c = some x) (h : Active (v.proc x).state)
      (h' : (v'.proc x).state = .zombie) (hpid : (v'.proc x).pid = (v.proc x).pid)
  | reaped (p : Slot) (hp : v.Waits l d p) (h : (v.proc x).state = .zombie)
      (h' : (v'.proc x).state = .unused) (hparent : (v.proc x).parent = some p)

namespace Turns

variable {v v₁ v' : View} {l : Label} {d : Option Slot} {p x : Slot} {c : Cpu}

/-- A step that changes one slot. -/
theorem modify
    {y : Proc} (hproc : v'.proc = Function.update v.proc p y)
    (hp : v'.proc p = y → Turns v l d v' p) :
  Turns v l d v' x
  := by
  rcases eq_or_ne x p with rfl | hx
  · apply hp
    rw [hproc, Function.update_self]
  · apply stays
    rw [hproc, Function.update_of_ne hx]
    apply Stays.refl

/-- A step that changes one slot and leaves its process in its stage. -/
theorem modify_stays
    {y : Proc} (hproc : v'.proc = Function.update v.proc p y) (hy : Stays (v.proc p) y) :
  Turns v l d v' x
  := by
  apply modify hproc
  intro heq
  apply stays
  rw [heq]
  apply hy

/-- A slot in use after a step was in use before, with the same pid, or the step allocated it. -/
theorem used (h : Turns v l d v' x) (hx : (v'.proc x).state ≠ .unused) :
  ((v.proc x).state ≠ .unused ∧ (v'.proc x).pid = (v.proc x).pid) ∨
    (v'.proc x).pid = v.nextpid ∧ l.allocates
  := by
  rcases h with
    hstay | ⟨-, -, hpid, hl⟩ | ⟨-, hx'⟩ | ⟨hs, -, hpid⟩ | ⟨c, -, -, hs, -, hpid⟩ | ⟨p, -, -, hx', -⟩
  · left
    refine ⟨?_, hstay.pid⟩
    intro hs
    apply hx
    rw [unused_iff_stage]
    exact hstay.stage.trans (unused_iff_stage.mp hs)
  · right
    exact ⟨hpid, hl⟩
  · cases hx hx'
  · left
    refine ⟨?_, hpid⟩
    simp [hs]
  · left
    refine ⟨?_, hpid⟩
    intro hs'
    simp [Active, hs'] at hs
  · cases hx hx'

/-- A zombie stays one until `wait` frees its slot. -/
theorem zombie (h : Turns v l d v' x) (hx : (v.proc x).state = .zombie) :
  ((v'.proc x).state = .zombie ∧ (v'.proc x).pid = (v.proc x).pid) ∨
    ∃ p, v.Waits l d p ∧ (v'.proc x).state = .unused
  := by
  rcases h with hstay | ⟨hs, -⟩ | ⟨hs, -⟩ | ⟨hs, -⟩ | ⟨c, -, -, hs, -⟩ | ⟨p, hp, -, hx', -⟩
  · left
    rw [zombie_iff_stage, hstay.stage, hx]
    exact ⟨rfl, hstay.pid⟩
  · cases hx.symm.trans hs
  · cases hx.symm.trans hs
  · cases hx.symm.trans hs
  · simp [Active, hx] at hs
  · exact .inr ⟨p, hp, hx'⟩

/-- A step that leaves the slots alone. -/
theorem of_eq (hproc : v'.proc = v.proc) :
  Turns v l d v' x
  := by
  apply stays
  rw [hproc]
  apply Stays.refl

theorem sleep (hp : (v.proc p).state = .running) (chan : Chan) (call : Call) :
  Stays (v.proc x) ((v.sleep c p chan call).proc x)
  := by
  rcases eq_or_ne x p with rfl | hx
  · rw [View.sleep, View.leave_proc_self]
    apply Stays.active (.inr (.inr hp))
    · left
      apply charge_state
    · apply Stays.charge
  · rw [View.sleep, View.leave_proc_of_ne _ _ _ _ hx]
    apply Stays.refl

/-- A pass of `wait`, in a view that has the same processes in the same stages. -/
theorem waited
    (hsame : ∀ y, Stays (v.proc y) (v₁.proc y) ∧ (v₁.proc y).parent = (v.proc y).parent)
    (hrun : (v₁.proc p).state = .running) (hp : v.Waits l d p) (hw : View.Waited v₁ c p v') :
  Turns v l d v' x
  := by
  cases hw with
  | reaped y hstate hparent =>
    rcases eq_or_ne x y with rfl | hx
    · apply reaped p hp
      · rw [zombie_iff_stage, ← (hsame x).1.stage, hstate]
        rfl
      · rw [View.setCall_proc, View.modify_proc_self]
        rfl
      · rw [← (hsame x).2, hparent]
    · apply stays
      rw [View.setCall_proc, View.modify_proc_of_ne _ _ hx]
      apply (hsame x).1
  | failed =>
    apply stays
    apply (hsame x).1
  | asleep =>
    apply stays
    apply (hsame x).1.trans (sleep hrun _ _)

end Turns

section

variable {s : Sys} {v' : View} {l : Label} {d : Option Slot} {p : Slot} {c : Cpu}

theorem turns_stepOn
    (hinv : Inv s) (hc : s.cpu c = some p) (hstep : View.StepOn s.view c p l v') (x : Slot) :
  Turns s.view l d v' x
  := by
  have hrun : (s.view.proc p).state = .running := hinv.running c p hc
  have hactive : Active (s.view.proc p).state := .inr (.inr hrun)
  cases hstep with
  | yield =>
    rcases eq_or_ne x p with rfl | hx
    · apply Turns.stays
      rw [View.yield, View.leave_proc_self]
      apply Stays.active hactive
      · exact .inr (.inl rfl)
      · apply Stays.charge
    · apply Turns.stays
      rw [View.yield, View.leave_proc_of_ne _ _ _ _ hx]
      apply Stays.refl
  | sleep chan =>
    apply Turns.stays
    apply Turns.sleep hrun
  | exitClose hcall hinit =>
    exact Turns.modify_stays rfl ⟨rfl, rfl⟩
  | exit hcall =>
    rcases eq_or_ne x p with rfl | hx
    · apply Turns.exits c rfl hc hactive
      · apply View.exit_state_self
      · rw [View.exit, View.leave_proc_self]
        apply (Stays.bereaved s.view x _).pid
    · apply Turns.stays
      rw [View.exit, View.leave_proc_of_ne _ _ _ _ hx]
      apply Stays.bereaved
  | wait hcall hw =>
    apply Turns.waited _ hrun (.inl ⟨c, rfl, hc, hcall⟩) hw
    intro y
    exact ⟨.refl _, rfl⟩
  | allocNone | allocRead => exact Turns.of_eq rfl
  | @alloc _ np hl hnp =>
    refine Turns.modify rfl ?_
    intro heq
    apply Turns.allocated hnp
    · rw [heq]
    · rw [heq]
    · rcases hl with ⟨rfl, -⟩ | ⟨rfl, -⟩ <;> rfl
  | @kalloc np hcall =>
    exact Turns.modify_stays rfl ⟨rfl, rfl⟩
  | @copyuvm np hcall =>
    exact Turns.modify_stays rfl ⟨rfl, rfl⟩
  | @rollback _ np hl =>
    refine Turns.modify rfl ?_
    intro heq
    apply Turns.givenBack
    · apply hinv.embryo_of_call rfl (Call.pending_of_blank (Call.blank_of_rollback hl))
    · rw [heq]
      rfl
  | @forkEnqueue np hcall =>
    refine Turns.modify rfl ?_
    intro heq
    apply Turns.starts
    · apply hinv.embryo_of_call hcall rfl
    · rw [heq]
      exact .inr (.inl rfl)
    · rw [heq]

theorem turns_stepBoot (hinv : Inv s) (hstep : View.StepBoot s.view l v') (x : Slot) :
  Turns s.view l d v' x
  := by
  cases hstep with
  | @alloc np hboot hnp =>
    refine Turns.modify rfl ?_
    intro heq
    apply Turns.allocated hnp
    · rw [heq]
    · rw [heq]
    · rfl
  | @kalloc np hboot =>
    exact Turns.modify_stays rfl ⟨rfl, rfl⟩
  | @setup np hboot root =>
    exact Turns.modify_stays rfl ⟨rfl, rfl⟩
  | @enqueue np hboot =>
    refine Turns.modify rfl ?_
    intro heq
    apply Turns.starts
    · apply hinv.embryo_of_boot hboot rfl
    · rw [heq]
      exact .inr (.inl rfl)
    · rw [heq]

/-- The processes stay the same, in the same stages, when `scheduler` switches to one. -/
theorem View.dispatch_stays (v : View) (hp : (v.proc p).state = .runnable) (c : Cpu) (y : Slot) :
  Stays (v.proc y) (((v.promote.dispatch c p).tidy p).proc y) ∧
    (((v.promote.dispatch c p).tidy p).proc y).parent = (v.proc y).parent ∧
    (((v.promote.dispatch c p).tidy p).proc y).killed = (v.proc y).killed
  := by
  have hpromote : Stays (v.proc y) (v.promote.proc y) ∧
      (v.promote.proc y).parent = (v.proc y).parent ∧
      (v.promote.proc y).killed = (v.proc y).killed := by
    rw [View.promote]
    split
    · refine ⟨Stays.promotion _, ?_, ?_⟩
      · simp only [promotion]
        split <;> rfl
      · simp only [promotion]
        split <;> rfl
    · exact ⟨.refl _, rfl, rfl⟩
  obtain ⟨chan, htidy⟩ := (v.promote.dispatch c p).tidy_proc p y
  rw [htidy]
  rcases eq_or_ne y p with rfl | hy
  · rw [View.dispatch_proc_self]
    refine ⟨?_, hpromote.2⟩
    apply Stays.active (.inr (.inl hp))
    · exact .inr (.inr rfl)
    · apply hpromote.1.pid
  · rw [View.dispatch_proc_of_ne _ _ hy]
    exact ⟨⟨hpromote.1.stage, hpromote.1.pid⟩, hpromote.2⟩

/-- What a step does to a slot. -/
theorem turns_of_step
    (hinv : Inv s) (hstep : View.Step s.view l d v') (x : Slot) :
  Turns s.view l d v' x
  := by
  cases hstep with
  | tick | killNone | setpriorityNone => exact Turns.of_eq rfl
  | idle =>
    apply Turns.stays
    rw [View.promote]
    split
    · apply Stays.promotion
    · apply Stays.refl
  | @dispatch c p _ hc hp hmax hres =>
    rw [View.Resumed] at hres
    split at hres
    · rename_i hcall
      apply Turns.waited _ _ (.inr ⟨c, rfl, rfl, _⟩) hres
      · intro y
        obtain ⟨hstays, hparent, -⟩ := s.view.dispatch_stays hp c y
        exact ⟨hstays, hparent⟩
      · rw [View.tidy_state, View.dispatch_proc_self]
        rfl
      · rw [← hcall, View.promote]
        split <;> rfl
    · rw [hres]
      apply Turns.stays
      apply (s.view.dispatch_stays hp c x).1
  | wakeup chan =>
    apply Turns.stays
    apply Stays.woken
  | kill hp hpid =>
    exact Turns.modify_stays rfl ⟨killed_stage _, rfl⟩
  | @setpriority pid priority p hvalid hp hpid =>
    exact Turns.modify_stays rfl (Stays.reprioritized _ _)
  | boot hb => apply turns_stepBoot hinv hb
  | on hc ho => apply turns_stepOn hinv hc ho

end

/-! ### Sleeping in `wait` -/

/-- If the process is in `wait`, then it is about to look at its children again, or it sleeps on
its own channel and has no zombie child. -/
def View.ParkedAt (v : View) (p : Slot) : Prop :=
  (v.thread p).call = .waiting → (v.proc p).state = .runnable ∨
    (v.proc p).state = .sleeping ∧ (v.proc p).chan = .proc p ∧
      ∀ x, (v.proc x).state = .zombie → (v.proc x).parent ≠ some p

/-- No process sleeps in `wait` while it has a zombie child. -/
def View.Parked (v : View) : Prop :=
  ∀ p, v.ParkedAt p

/-- A runnable or sleeping slot stays as it is, or becomes runnable. -/
def Rests (x y : Proc) : Prop :=
  x.state = .runnable ∨ x.state = .sleeping →
    y.state = .runnable ∨ y.state = x.state ∧ y.chan = x.chan

theorem rests_woken (chan : Chan) (x : Proc) :
  Rests x (woken chan x)
  := by
  intro _
  rw [woken]
  split
  · exact .inl rfl
  · exact .inr ⟨rfl, rfl⟩

/-- A slot that `wakeup1` leaves asleep sleeps on another channel. -/
theorem woken_sleeping {chan : Chan} {x : Proc} (h : (woken chan x).state = .sleeping) :
  x.state = .sleeping ∧ x.chan ≠ chan
  := by
  rw [woken] at h
  split at h
  · cases h
  · rename_i hno
    refine ⟨h, ?_⟩
    intro hchan
    apply hno ⟨h, hchan⟩

/-- A slot that the loops of `exit` leave asleep does not sleep on the channel of the parent, nor
on that of `initproc` if it gets a zombie child. -/
theorem View.bereaved_sleeping
    {v : View} {p : Slot} {x : Proc} (h : (v.bereaved p x).state = .sleeping) :
  x.chan ≠ Chan.ofPtr (v.proc p).parent ∧
    (v.zombieChild p = true → x.chan ≠ Chan.ofPtr v.initproc)
  := by
  obtain ⟨z, hz⟩ : ∃ z, z = if (woken (Chan.ofPtr (v.proc p).parent) x).state ≠ .unused then
      adopted p v.initproc (woken (Chan.ofPtr (v.proc p).parent) x)
    else woken (Chan.ofPtr (v.proc p).parent) x := ⟨_, rfl⟩
  have hkeeps : z.state = (woken (Chan.ofPtr (v.proc p).parent) x).state ∧ z.chan = x.chan := by
    obtain ⟨st, hst, -⟩ := View.woken_eq (Chan.ofPtr (v.proc p).parent) x
    rw [hz, hst]
    simp only [adopted]
    split
    · split
      · exact ⟨rfl, rfl⟩
      · exact ⟨rfl, rfl⟩
    · exact ⟨rfl, rfl⟩
  have hzs : z.state = .sleeping ∧ (v.zombieChild p = true → z.chan ≠ Chan.ofPtr v.initproc) := by
    simp only [View.bereaved] at h
    rw [← hz] at h
    split at h
    · obtain ⟨hs, hchan⟩ := woken_sleeping h
      exact ⟨hs, fun _ => hchan⟩
    · rename_i hno
      exact ⟨h, fun hyes => absurd hyes hno⟩
  rw [hkeeps.1, hkeeps.2] at hzs
  exact ⟨(woken_sleeping hzs.1).2, hzs.2⟩

namespace View.ParkedAt

variable {v v' : View} {p x : Slot}

/-- A step that does not let the process go to sleep in `wait`, and gives no process a zombie
child. -/
theorem frame
    (h : v.ParkedAt p) (hcall : (v'.thread p).call = .waiting → (v.thread p).call = .waiting)
    (hrest : (v.thread p).call = .waiting → Rests (v.proc p) (v'.proc p))
    (hzombie : ∀ x, (v'.proc x).state = .zombie →
      (v.proc x).state = .zombie ∧ (v'.proc x).parent = (v.proc x).parent) :
  v'.ParkedAt p
  := by
  intro hp
  have hwait := hcall hp
  rcases h hwait with hs | ⟨hs, hchan, hno⟩
  · rcases hrest hwait (.inl hs) with hs' | ⟨hs', -⟩
    · exact .inl hs'
    · exact .inl (hs'.trans hs)
  · rcases hrest hwait (.inr hs) with hs' | ⟨hs', hchan'⟩
    · exact .inl hs'
    · right
      refine ⟨hs'.trans hs, hchan'.trans hchan, ?_⟩
      intro x hx
      obtain ⟨hz, hparent⟩ := hzombie x hx
      rw [hparent]
      apply hno x hz

/-- A step that changes one slot, which gets no zombie, and leaves the process in its call. -/
theorem update
    {y : Proc} (h : v.ParkedAt p) (hcall : (v'.thread p).call = (v.thread p).call)
    (hproc : v'.proc = Function.update v.proc x y) (hrest : p = x → Rests (v.proc x) y)
    (hzombie : y.state = .zombie → (v.proc x).state = .zombie ∧ y.parent = (v.proc x).parent) :
  v'.ParkedAt p
  := by
  apply h.frame
  · rw [hcall]
    exact id
  · intro _
    rw [hproc]
    rcases eq_or_ne p x with rfl | hne
    · rw [Function.update_self]
      apply hrest rfl
    · rw [Function.update_of_ne hne]
      intro _
      exact .inr ⟨rfl, rfl⟩
  · intro z hz
    rw [hproc] at hz ⊢
    rcases eq_or_ne z x with rfl | hne
    · rw [Function.update_self] at hz ⊢
      apply hzombie hz
    · rw [Function.update_of_ne hne] at hz ⊢
      exact ⟨hz, rfl⟩

end View.ParkedAt

namespace View.Parked

variable {v v' : View} {p x : Slot} {c : Cpu}

section

variable (h : v.Parked)

include h

/-- A step that lets no process go to sleep in `wait`, and gives no process a zombie child. -/
theorem frame
    (hcall : ∀ p, (v'.thread p).call = .waiting → (v.thread p).call = .waiting)
    (hrest : ∀ p, (v.thread p).call = .waiting → Rests (v.proc p) (v'.proc p))
    (hzombie : ∀ x, (v'.proc x).state = .zombie →
      (v.proc x).state = .zombie ∧ (v'.proc x).parent = (v.proc x).parent) :
  v'.Parked
  := fun p => (h p).frame (hcall p) (hrest p) hzombie

/-- A process that runs is not in `wait`. -/
theorem not_waiting (hp : (v.proc p).state = .running) :
  (v.thread p).call ≠ .waiting
  := by
  intro hcall
  rcases h p hcall with hx | ⟨hx, -⟩
  · cases hp.symm.trans hx
  · cases hp.symm.trans hx

/-- A process that goes on outside `wait`. -/
theorem setThread {th : Thread} (hth : th.call ≠ .waiting) :
  (v.setThread p th).Parked
  := by
  intro q hq
  rcases eq_or_ne q p with rfl | hne
  · rw [View.setThread_thread_self] at hq
    cases hth hq
  · rw [View.setThread_thread_of_ne _ _ hne] at hq
    apply h q hq

/-- A change of one slot. -/
theorem modify
    {f : Proc → Proc} (hrest : Rests (v.proc p) (f (v.proc p)))
    (hz : (f (v.proc p)).state = .zombie →
      (v.proc p).state = .zombie ∧ (f (v.proc p)).parent = (v.proc p).parent) :
  (v.modify p f).Parked
  := fun q => (h q).update rfl rfl (fun _ => hrest) hz

/-- A change of a slot whose process neither sleeps nor is runnable. -/
theorem modify_busy
    {y : Proc} {st : ProcState} (hcall : ∀ q, (v'.thread q).call = (v.thread q).call)
    (hproc : v'.proc = Function.update v.proc p y) (hp : (v.proc p).state = st)
    (hst : ¬ (st = .runnable ∨ st = .sleeping)) (hz : y.state ≠ .zombie) :
  v'.Parked
  := by
  intro q
  apply (h q).update (hcall q) hproc
  · intro _ hx
    rw [hp] at hx
    cases hst hx
  · intro hx
    cases hz hx

/-- `allocproc` sets a slot up. -/
theorem prepared {np : Slot} (hnp : (v.proc np).state = .embryo) :
  ((v.modify np View.preparedProc).setCall np .user).Parked
  := by
  apply setThread
  · exact h.modify_busy (fun _ => rfl) rfl hnp (by simp) (by simp [View.preparedProc, hnp])
  · simp

/-- `allocproc` takes a free slot. -/
theorem alloc {np : Slot} (hnp : (v.proc np).state = .unused) :
  (v.alloc np).Parked
  := h.modify_busy (fun _ => rfl) rfl hnp (by simp) (by simp)

theorem promote :
  v.promote.Parked
  := by
  rw [View.promote]
  split
  · apply h.frame
    · intro q hq
      apply hq
    · intro q _ _
      right
      simp only [promotion]
      split
      · exact ⟨rfl, rfl⟩
      · exact ⟨rfl, rfl⟩
    · intro x hx
      simp only [promotion_state] at hx
      refine ⟨hx, ?_⟩
      simp only [promotion]
      split <;> rfl
  · apply h

theorem wake (chan : Chan) :
  (v.wake chan).Parked
  := by
  apply h.frame
  · intro q hq
    apply hq
  · intro q _
    apply rests_woken
  · intro x hx
    simp only [View.wake, woken] at hx ⊢
    split at hx
    · cases hx
    · rename_i hno
      rw [if_neg hno]
      exact ⟨hx, rfl⟩

/-- A process that runs gives up the processor outside `wait`. -/
theorem leave
    (hp : (v.proc p).state = .running) {th : Thread} (hth : th.call ≠ .waiting) {f : Proc → Proc}
    (hz : (f (v.proc p)).state ≠ .zombie) :
  (v.leave c p th f).Parked
  := by
  have hmod : (v.modify p f).Parked := h.modify_busy (fun _ => rfl) rfl hp (by simp) hz
  apply hmod.setThread hth

end

/-- A pass of `wait` by a process that runs. -/
theorem waited (h : ∀ q, q ≠ p → v.ParkedAt q) (hw : View.Waited v c p v') :
  v'.Parked
  := by
  intro q
  rcases eq_or_ne q p with rfl | hq
  · cases hw with
    | reaped x hstate hparent | failed =>
      intro hcall
      rw [View.setCall, View.setThread_thread_self] at hcall
      cases hcall
    | asleep hzombie hkid hkilled =>
      have hself : ((v.sleep c q (.proc q) .waiting).proc q).state = .sleeping := by
        rw [View.sleep, View.leave_proc_self]
        apply charge_state
      intro _
      right
      refine ⟨hself, ?_, ?_⟩
      · rw [View.sleep, View.leave_proc_self]
        simp only [tallied, charge]
        split <;> rfl
      · intro x hx
        have hne : x ≠ q := by
          rintro rfl
          cases hself.symm.trans hx
        rw [View.sleep, View.leave_proc_of_ne _ _ _ _ hne] at hx ⊢
        apply hzombie x hx
  · cases hw with
    | reaped x hstate hparent =>
      refine (h q hq).update ?_ rfl ?_ ?_
      · rw [View.setCall, View.setThread_thread_of_ne _ _ hq]
        rfl
      · intro _ hs
        rw [hstate] at hs
        simp at hs
      · intro hz
        cases hz
    | failed =>
      apply (h q hq).frame
      · intro hcall
        rw [View.setCall, View.setThread_thread_of_ne _ _ hq] at hcall
        apply hcall
      · intro _ _
        exact .inr ⟨rfl, rfl⟩
      · intro y hy
        exact ⟨hy, rfl⟩
    | asleep =>
      have hthread : (v.sleep c p (.proc p) .waiting).thread q = v.thread q :=
        View.setThread_thread_of_ne _ _ hq
      refine (h q hq).update ?_ rfl ?_ ?_
      · rw [hthread]
      · intro heq
        cases hq heq
      · intro hz
        simp [tallied] at hz

end View.Parked

/-- No process is its own parent. -/
theorem Family.not_own_parent {v : View} (h : Family v) {p : Slot} (hp : Started (v.proc p).state) :
  (v.proc p).parent ≠ some p
  := by
  intro hpp
  obtain ⟨i, hi, hchain⟩ := h.descends p hp
  have hloop : ∀ y, Relation.ReflTransGen v.Child p y → y = p := by
    intro y hy
    induction hy with
    | refl => rfl
    | tail _ hyz ih =>
      subst ih
      rw [View.Child, hpp, Option.some.injEq] at hyz
      exact hyz.symm
  obtain rfl := hloop i hchain
  rw [(h.root i hi).1] at hpp
  cases hpp

/-- `exit` wakes the parent, and `initproc` if it gets a zombie child. -/
theorem View.Parked.exit
    {v : View} {p : Slot} (h : v.Parked) (hfam : Family v) (hp : (v.proc p).state = .running)
    (c : Cpu) :
  (v.exit c p).Parked
  := by
  intro q hq
  have hqp : q ≠ p := by
    rintro rfl
    have hthread : (v.exit c q).thread q = ⟨.user, false⟩ := View.setThread_thread_self _ _ _
    rw [hthread] at hq
    cases hq
  have hthread : (v.exit c p).thread q = v.thread q := View.setThread_thread_of_ne _ _ hqp
  rw [hthread] at hq
  have hproc : ∀ x, x ≠ p → (v.exit c p).proc x = v.bereaved p (v.proc x) :=
    fun x hx => View.leave_proc_of_ne _ _ _ _ hx
  rw [hproc q hqp]
  obtain ⟨st, parent, heq, hst, -⟩ := v.bereaved_eq p (v.proc q)
  rcases h q hq with hs | ⟨hs, hchan, hno⟩
  · left
    rw [heq]
    rcases hst with rfl | ⟨hs', -⟩
    · exact hs
    · cases hs.symm.trans hs'
  · rcases hst with rfl | ⟨-, rfl⟩
    · right
      have hsleep : (v.bereaved p (v.proc q)).state = .sleeping := by
        rw [heq]
        exact hs
      obtain ⟨hparent, hinit⟩ := View.bereaved_sleeping hsleep
      rw [hchan] at hparent hinit
      refine ⟨hsleep, ?_, ?_⟩
      · rw [heq]
        exact hchan
      intro x hx hxq
      rw [hfam.exit_parent] at hxq
      rcases eq_or_ne x p with rfl | hxp
      · -- the process that exits is a new zombie, and its parent was woken
        rw [if_neg (hfam.not_own_parent (started_of_running hp))] at hxq
        apply hparent
        rw [hxq]
        rfl
      · rw [hproc x hxp] at hx
        have hz : (v.proc x).state = .zombie := by
          obtain ⟨st, parent, heq', hst', -⟩ := v.bereaved_eq p (v.proc x)
          rw [heq'] at hx
          rcases hst' with rfl | ⟨-, rfl⟩
          · exact hx
          · cases hx
        by_cases hchild : (v.proc x).parent = some p
        · -- a zombie passed on to `initproc`, which was woken
          rw [if_pos hchild] at hxq
          apply hinit
          · rw [View.zombieChild, List.any_eq_true]
            refine ⟨x, List.mem_finRange x, ?_⟩
            simp [hz, hchild]
          · rw [hxq]
            rfl
        · rw [if_neg hchild] at hxq
          apply hno x hz hxq
    · left
      rw [heq]

section

variable {s : Sys} {v' : View} {l : Label} {d : Option Slot} {p : Slot} {c : Cpu}

theorem View.Parked.stepOn
    (h : s.view.Parked) (hinv : Inv s) (hfam : Family s.view) (hc : s.cpu c = some p)
    (hstep : View.StepOn s.view c p l v') :
  v'.Parked
  := by
  have hrun : (s.view.proc p).state = .running := hinv.running c p hc
  have hcall := h.not_waiting hrun
  cases hstep with
  | yield =>
    apply h.leave hrun hcall
    simp [tallied]
  | sleep chan =>
    apply h.leave hrun
    · apply hcall
    · simp [tallied]
  | exitClose _ hinit =>
    apply View.Parked.setThread
    · exact h.modify_busy (fun _ => rfl) rfl hrun (by simp) (by simp [hrun])
    · simp
  | exit => apply h.exit hfam hrun
  | wait _ hw => apply View.Parked.waited (fun q _ => h q) hw
  | allocNone => apply h
  | allocRead =>
    apply h.setThread
    simp
  | @alloc _ np hl hnp =>
    apply (h.alloc hnp).setThread
    simp
  | @kalloc np hcall' =>
    apply View.Parked.setThread
    · apply h.prepared (hinv.embryo_of_call hcall' rfl)
    · simp
  | @copyuvm np hcall' =>
    have hnp := hinv.embryo_of_call hcall' rfl
    apply View.Parked.setThread
    · exact h.modify_busy (fun _ => rfl) rfl hnp (by simp) (by simp [View.filledProc, hnp])
    · simp
  | @rollback _ np hl =>
    have hnp := hinv.embryo_of_call rfl (Call.pending_of_blank (Call.blank_of_rollback hl))
    apply View.Parked.setThread
    · exact h.modify_busy (fun _ => rfl) rfl hnp (by simp) (by simp [View.rolledBack])
    · simp
  | @forkEnqueue np hcall' =>
    apply View.Parked.setThread
    · exact h.modify_busy (fun _ => rfl) rfl (hinv.embryo_of_call hcall' rfl) (by simp) (by simp)
    · simp

theorem View.Parked.stepBoot
    (h : s.view.Parked) (hinv : Inv s) (hstep : View.StepBoot s.view l v') :
  v'.Parked
  := by
  cases hstep with
  | @alloc np hboot hnp =>
    apply h.alloc hnp
  | @kalloc np hboot =>
    apply h.prepared (hinv.embryo_of_boot hboot rfl)
  | @setup np hboot root =>
    have hnp := hinv.embryo_of_boot hboot rfl
    exact h.modify_busy (fun _ => rfl) rfl hnp (by simp) (by simp [hnp])
  | @enqueue np hboot =>
    exact h.modify_busy (fun _ => rfl) rfl (hinv.embryo_of_boot hboot rfl) (by simp) (by simp)

/-- A step keeps the processes in `wait` parked. -/
theorem View.Parked.step
    (h : s.view.Parked) (hinv : Inv s) (hfam : Family s.view) (hstep : View.Step s.view l d v') :
  v'.Parked
  := by
  cases hstep with
  | tick => apply h
  | idle => apply h.promote
  | @dispatch c p _ hc hp hmax hres =>
    -- the process that is dispatched is no longer parked, and the others are
    have hothers : ∀ q, q ≠ p → ((s.view.promote.dispatch c p).tidy p).ParkedAt q := by
      intro q hq
      apply (h.promote q).frame
      · rw [View.tidy_call]
        exact id
      · intro _ _
        rw [View.tidy_proc_of_ne _ hq, View.dispatch_proc_of_ne _ _ hq]
        exact .inr ⟨rfl, rfl⟩
      · intro x hx
        have hne : x ≠ p := by
          rintro rfl
          rw [View.tidy_state, View.dispatch_proc_self] at hx
          cases hx
        rw [View.tidy_proc_of_ne _ hne, View.dispatch_proc_of_ne _ _ hne] at hx ⊢
        exact ⟨hx, rfl⟩
    rw [View.Resumed] at hres
    split at hres
    · apply View.Parked.waited hothers hres
    · rename_i hcall
      rw [hres]
      intro q
      rcases eq_or_ne q p with rfl | hq
      · intro hwait
        rw [View.tidy_call] at hwait
        cases hcall hwait
      · apply hothers q hq
  | wakeup chan => apply h.wake
  | killNone => apply h
  | @kill pid p hp hpid =>
    apply h.modify
    · intro _
      by_cases hs : (s.view.proc p).state = .sleeping
      · exact .inl (if_pos hs)
      · exact .inr ⟨if_neg hs, rfl⟩
    · intro hz
      refine ⟨?_, rfl⟩
      simp only [killed] at hz
      split at hz
      · cases hz
      · exact hz
  | setpriorityNone => apply h
  | @setpriority pid priority p hvalid hp hpid =>
    apply h.modify
    · intro hs
      right
      simp only [reprioritized]
      split
      · exact ⟨rfl, rfl⟩
      · exact ⟨rfl, rfl⟩
    · intro hz
      rw [reprioritized_state] at hz
      refine ⟨hz, ?_⟩
      simp only [reprioritized]
      split <;> rfl
  | boot hb => apply h.stepBoot hinv hb
  | on hc ho => apply h.stepOn hinv hfam hc ho

theorem parked_of_reachable (h : kernel.Reachable s) :
  s.view.Parked
  := by
  induction h with
  | init h =>
    intro p hp
    obtain ⟨-, -, hthread, -⟩ := h
    rw [Sys.view, hthread] at hp
    cases hp
  | step hreach _ hstep ih =>
    have hinv := inv_of_reachable hreach
    apply ih.step hinv (family_of_reachable hreach) (hinv.view_step hstep)

end

end Xv6.Ptable
