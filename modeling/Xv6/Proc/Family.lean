import Xv6.Proc.Clean

/-!
# The process tree

The parent of every process is alive, and following the parents leads to `initproc`.  `fork` hangs
a slot without children under a running process, and `exit` passes all children of the process on
to `initproc` before the process becomes a zombie.
-/

namespace Xv6.Ptable

/-- How far a process has come: the states in which it may have children are one stage. -/
inductive Stage where
  | free
  | embryo
  | active
  | exited
  deriving DecidableEq

/-- The stage of a state. -/
def ProcState.stage : ProcState → Stage
  | .unused => .free
  | .embryo => .embryo
  | .sleeping | .runnable | .running => .active
  | .zombie => .exited

theorem active_iff_stage {s : ProcState} :
  Active s ↔ s.stage = .active
  := by
  cases s <;> simp [Active, ProcState.stage]

theorem zombie_iff_stage {s : ProcState} :
  s = .zombie ↔ s.stage = .exited
  := by
  cases s <;> simp [ProcState.stage]

theorem unused_iff_stage {s : ProcState} :
  s = .unused ↔ s.stage = .free
  := by
  cases s <;> simp [ProcState.stage]

theorem embryo_iff_stage {s : ProcState} :
  s = .embryo ↔ s.stage = .embryo
  := by
  cases s <;> simp [ProcState.stage]

theorem killed_stage (x : Proc) :
  (killed x).state.stage = x.state.stage
  := by
  simp only [killed]
  split
  · rename_i hs
    rw [hs]
    rfl
  · rfl

/-- A process that `fork` has handed over: it is active, or it has exited. -/
def Started (s : ProcState) : Prop :=
  Active s ∨ s = .zombie

theorem started_iff_stage {s : ProcState} :
  Started s ↔ s.stage = .active ∨ s.stage = .exited
  := by
  cases s <;> simp [Started, Active, ProcState.stage]

theorem started_of_running {s : ProcState} (h : s = .running) :
  Started s
  := .inl (.inr (.inr h))

namespace View

/-- The slot `y` is the parent of `x`. -/
def Child (v : View) (x y : Slot) : Prop :=
  (v.proc x).parent = some y

/-- Following the parents from `x` leads to `initproc`. -/
def Descends (v : View) (x : Slot) : Prop :=
  ∃ i, v.initproc = some i ∧ Relation.ReflTransGen v.Child x i

/-- A slot that no process has been put into. -/
def Fresh (v : View) (x : Slot) : Prop :=
  (v.proc x).state = .unused ∨ v.boot.pending = some x ∨ ∃ p, (v.thread p).call.blank = some x

theorem exit_state_self (v : View) (c : Cpu) (p : Slot) :
  ((v.exit c p).proc p).state = .zombie
  := by
  rw [exit, leave_proc_self]
  rfl

end View

/-- What `initproc` is at each point of `userinit`. -/
def Boot.Sets (v : View) : Boot → Prop
  | .alloc | .kalloc _ => v.initproc = none
  | .setup np => v.initproc = none ∧ (v.thread np).call = .user
  | .filled np => v.initproc = some np
  | .done => True

theorem Boot.Sets.congr
    {v v' : View} {b : Boot} (h : b.Sets v) (hinit : v'.initproc = v.initproc)
    (hcall : ∀ np, b = .setup np → (v.thread np).call = .user → (v'.thread np).call = .user) :
  b.Sets v'
  := by
  cases b with
  | alloc | kalloc _ | filled _ => exact hinit.trans h
  | setup np => exact ⟨hinit.trans h.1, hcall np rfl h.2⟩
  | done => trivial

/-- The parents of the processes.  Parents are active; a slot has no parent before `fork` fills it
in, and that of `initproc` stays that way. -/
structure Family (v : View) : Prop where
  fresh : ∀ x, v.Fresh x → (v.proc x).parent = none
  filled : ∀ p np, (v.thread p).call = .filled np →
    (v.proc np).state = .embryo ∧ (v.proc np).parent = some p
  alive : ∀ x y, v.Child x y → Active (v.proc y).state
  descends : ∀ x, Started (v.proc x).state → v.Descends x
  root : ∀ i, v.initproc = some i → (v.proc i).parent = none ∧ (v.thread i).call ≠ .exiting ∧
    (v.boot = .filled i ∨ Active (v.proc i).state)
  boot : v.boot.Sets v

namespace Family

variable {v v' : View} {p x y : Slot}

section

variable (h : Family v)

include h

/-- The line of parents of a process that has started leads to an active process. -/
theorem active_root (hx : Active (v.proc x).state) :
  ∃ i, v.initproc = some i ∧ Active (v.proc i).state
  := by
  obtain ⟨i, hi, hchain⟩ := h.descends x (.inl hx)
  refine ⟨i, hi, ?_⟩
  rcases Relation.ReflTransGen.cases_tail hchain with rfl | ⟨y, -, hy⟩
  · apply hx
  · apply h.alive y i hy

/-- A process that is not active has no children. -/
theorem childless (hp : ¬ Active (v.proc p).state) (x : Slot) :
  ¬ v.Child x p
  := fun hx => hp (h.alive x p hx)

/-- A step that keeps the stages and the calls, and passes children on to `initproc` only. -/
theorem reparent
    (g : Slot → Slot) (hg : ∀ y, g y = y ∨ v.initproc = some (g y))
    (hfilled : ∀ p np, (v.thread p).call = .filled np → g p = p)
    (hstage : ∀ x, (v'.proc x).state.stage = (v.proc x).state.stage)
    (hparent : ∀ x, (v'.proc x).parent = (v.proc x).parent.map g)
    (hcall : ∀ x, (v'.thread x).call = (v.thread x).call) (hboot : v'.boot = v.boot)
    (hinit : v'.initproc = v.initproc) :
  Family v'
  := by
  have hactive : ∀ x, Active (v'.proc x).state ↔ Active (v.proc x).state := by
    intro x
    rw [active_iff_stage, active_iff_stage, hstage]
  constructor
  · intro x hx
    have hold : v.Fresh x := by
      simpa only [View.Fresh, unused_iff_stage, hstage, hboot, hcall] using hx
    rw [hparent, h.fresh x hold, Option.map_none]
  · intro p np hp
    rw [hcall] at hp
    obtain ⟨hstate, hp'⟩ := h.filled p np hp
    rw [hparent, hp', Option.map_some, hfilled p np hp, embryo_iff_stage, hstage,
      ← embryo_iff_stage]
    exact ⟨hstate, rfl⟩
  · intro x y hxy
    rw [View.Child, hparent] at hxy
    obtain ⟨z, hz, rfl⟩ := Option.map_eq_some_iff.mp hxy
    have hza := h.alive x z hz
    rw [hactive]
    rcases hg z with heq | hi
    · rw [heq]
      apply hza
    · obtain ⟨i, hi', hia⟩ := h.active_root hza
      obtain rfl := Option.some.inj (hi.symm.trans hi')
      apply hia
  · intro x hx
    rw [started_iff_stage, hstage, ← started_iff_stage] at hx
    obtain ⟨i, hi, hchain⟩ := h.descends x hx
    refine ⟨i, hinit.trans hi, ?_⟩
    clear hx
    -- a line that meets a child that is passed on goes on from there to `initproc`
    induction hchain using Relation.ReflTransGen.head_induction_on with
    | refl => rfl
    | @head x y hxy _ ih =>
      have hchild : v'.Child x (g y) := by
        rw [View.Child, hparent, show (v.proc x).parent = some y from hxy, Option.map_some]
      rcases hg y with heq | hy
      · rw [heq] at hchild
        exact ih.head hchild
      · obtain rfl := Option.some.inj (hi.symm.trans hy)
        exact .single hchild
  · intro i hi
    rw [hinit] at hi
    obtain ⟨hnone, hrest⟩ := h.root i hi
    rw [hparent, hnone, hcall, hboot, hactive]
    exact ⟨rfl, hrest⟩
  · rw [hboot]
    apply h.boot.congr hinit
    intro np _ hnp
    rw [hcall, hnp]

/-- A step that keeps the stages, the parents and the calls. -/
theorem frame
    (hstage : ∀ x, (v'.proc x).state.stage = (v.proc x).state.stage)
    (hparent : ∀ x, (v'.proc x).parent = (v.proc x).parent)
    (hcall : ∀ x, (v'.thread x).call = (v.thread x).call) (hboot : v'.boot = v.boot)
    (hinit : v'.initproc = v.initproc) :
  Family v'
  := by
  refine h.reparent id (fun _ => .inl rfl) (fun _ _ _ => rfl) hstage ?_ hcall hboot hinit
  intro x
  rw [hparent, Option.map_id]
  rfl

/-- A step that keeps the slots and the calls. -/
theorem of_eq
    (hproc : v'.proc = v.proc) (hcall : ∀ x, (v'.thread x).call = (v.thread x).call)
    (hboot : v'.boot = v.boot) (hinit : v'.initproc = v.initproc) :
  Family v'
  := by
  apply h.frame _ _ hcall hboot hinit
  · intro x
    rw [hproc]
  · intro x
    rw [hproc]

/-- A process goes on in another call. -/
theorem setThread
    {th : Thread} (hp : th.call = .user ∨ ¬ v.SetUp p)
    (hexit : th.call = .exiting → v.initproc ≠ some p)
    (hblank : ∀ x, th.call.blank = some x → (v.proc x).parent = none)
    (hfilled : ∀ np, th.call = .filled np →
      (v.proc np).state = .embryo ∧ (v.proc np).parent = some p) :
  Family (v.setThread p th)
  := by
  refine ⟨?_, ?_, h.alive, h.descends, ?_, ?_⟩
  · rintro x (hx | hx | ⟨p', hx⟩)
    · apply h.fresh x (.inl hx)
    · apply h.fresh x (.inr (.inl hx))
    · rcases eq_or_ne p' p with rfl | hp'
      · rw [View.setThread_thread_self] at hx
        apply hblank x hx
      · rw [View.setThread_thread_of_ne _ _ hp'] at hx
        apply h.fresh x (.inr (.inr ⟨p', hx⟩))
  · intro p' np hp
    rcases eq_or_ne p' p with rfl | hp'
    · rw [View.setThread_thread_self] at hp
      apply hfilled np hp
    · rw [View.setThread_thread_of_ne _ _ hp'] at hp
      apply h.filled p' np hp
  · intro i hi
    obtain ⟨hnone, hcall, hactive⟩ := h.root i hi
    refine ⟨hnone, ?_, hactive⟩
    rcases eq_or_ne i p with rfl | hne
    · rw [View.setThread_thread_self]
      intro hth
      apply hexit hth hi
    · rw [View.setThread_thread_of_ne _ _ hne]
      apply hcall
  · refine h.boot.congr rfl ?_
    intro np hb hnp
    rcases eq_or_ne np p with rfl | hne
    · rw [View.setThread_thread_self]
      apply hp.resolve_right (not_not_intro (.inl hb))
    · rw [View.setThread_thread_of_ne _ _ hne]
      apply hnp

/-- A process that goes where it prepares no slot. -/
theorem setThread_plain
    {th : Thread} (hp : ¬ v.SetUp p) (hpending : th.call.pending = none)
    (hexit : th.call ≠ .exiting) :
  Family (v.setThread p th)
  := by
  apply h.setThread (.inr hp)
  · intro hx
    cases hexit hx
  · intro x hx
    rw [Call.pending_of_blank hx] at hpending
    cases hpending
  · intro np hx
    rw [hx] at hpending
    cases hpending

/-- A change of a slot without children. -/
theorem modify
    {f : Proc → Proc} (hchildless : ∀ x, ¬ v.Child x p)
    (hroot : v.initproc ≠ some p ∨
      v.initproc = some p ∧ (f (v.proc p)).parent = none ∧ Active (f (v.proc p)).state)
    (hfresh : ((f (v.proc p)).state = .unused ∨ v.boot.pending = some p ∨
      ∃ p', (v.thread p').call.blank = some p) → (f (v.proc p)).parent = none)
    (hfilled : ∀ p', (v.thread p').call = .filled p →
      (f (v.proc p)).state = .embryo ∧ (f (v.proc p)).parent = some p')
    (halive : ∀ y, (f (v.proc p)).parent = some y → y ≠ p ∧ Active (v.proc y).state)
    (hstarted : v.initproc ≠ some p → Started (f (v.proc p)).state →
      (f (v.proc p)).parent ≠ none) :
  Family (v.modify p f)
  := by
  have hothers : ∀ z, z ≠ p → (v.modify p f).proc z = v.proc z := fun z hz =>
    View.modify_proc_of_ne v f hz
  -- the line of parents of another process does not meet the slot
  have hline : ∀ z, z ≠ p → Started (v.proc z).state → (v.modify p f).Descends z := by
    intro z hz hs
    obtain ⟨i, hi, hchain⟩ := h.descends z hs
    refine ⟨i, hi, ?_⟩
    clear hs
    induction hchain using Relation.ReflTransGen.head_induction_on with
    | refl => rfl
    | @head z y hchild _ ih =>
      have hyp : y ≠ p := by
        rintro rfl
        apply hchildless z hchild
      apply Relation.ReflTransGen.head _ (ih hyp)
      rw [View.Child, hothers z hz]
      apply hchild
  constructor
  · intro x hx
    rcases eq_or_ne x p with rfl | hne
    · rw [View.Fresh, View.modify_proc_self] at hx
      rw [View.modify_proc_self]
      apply hfresh hx
    · rw [View.Fresh, hothers x hne] at hx
      rw [hothers x hne]
      apply h.fresh x hx
  · intro p' np hp
    rcases eq_or_ne np p with rfl | hne
    · rw [View.modify_proc_self]
      apply hfilled p' hp
    · rw [hothers np hne]
      apply h.filled p' np hp
  · intro x y hxy
    have hy : y ≠ p ∧ Active (v.proc y).state := by
      rcases eq_or_ne x p with rfl | hne
      · rw [View.Child, View.modify_proc_self] at hxy
        apply halive y hxy
      · rw [View.Child, hothers x hne] at hxy
        refine ⟨?_, h.alive x y hxy⟩
        rintro rfl
        apply hchildless x hxy
    rw [hothers y hy.1]
    apply hy.2
  · intro x hx
    rcases eq_or_ne x p with rfl | hne
    · rw [View.modify_proc_self] at hx
      obtain hinit | ⟨hinit, -⟩ := hroot
      case inr => exact ⟨x, hinit, .refl⟩
      obtain ⟨y, hy⟩ := Option.ne_none_iff_exists'.mp (hstarted hinit hx)
      obtain ⟨hyx, hya⟩ := halive y hy
      obtain ⟨i, hi, hchain⟩ := hline y hyx (.inl hya)
      refine ⟨i, hi, hchain.head ?_⟩
      rw [View.Child, View.modify_proc_self, hy]
    · rw [hothers x hne] at hx
      apply hline x hne hx
  · intro i hi
    obtain ⟨hnone, hcall, hactive⟩ := h.root i hi
    rcases eq_or_ne i p with rfl | hip
    · obtain ⟨-, hnone, hactive⟩ := hroot.resolve_left (not_not_intro hi)
      rw [View.modify_proc_self]
      exact ⟨hnone, hcall, .inr hactive⟩
    · rw [hothers i hip]
      exact ⟨hnone, hcall, hactive⟩
  · exact h.boot.congr rfl fun _ _ hnp => hnp

end

/-! ### The steps -/

section

variable (h : Family v)

include h

theorem promote :
  Family v.promote
  := by
  rw [View.promote]
  split
  · refine h.frame ?_ ?_ (fun _ => rfl) rfl rfl
    · intro x
      rw [promotion_state]
    · intro x
      simp only [promotion]
      split <;> rfl
  · apply h

theorem wake (chan : Chan) :
  Family (v.wake chan)
  := by
  refine h.frame ?_ ?_ (fun _ => rfl) rfl rfl
  · intro x
    obtain ⟨st, hx, rfl | ⟨hs, rfl⟩⟩ := View.woken_eq chan (v.proc x)
    · simp only [View.wake, hx]
    · simp only [View.wake, hx, hs]
      rfl
  · intro x
    apply woken_parent

/-- A process stays in its stage and keeps its parent. -/
theorem modify_stage
    {f : Proc → Proc} (hstage : (f (v.proc p)).state.stage = (v.proc p).state.stage)
    (hparent : (f (v.proc p)).parent = (v.proc p).parent) :
  Family (v.modify p f)
  := by
  refine h.frame ?_ ?_ (fun _ => rfl) rfl rfl
  · intro x
    rcases eq_or_ne x p with rfl | hx
    · rw [View.modify_proc_self, hstage]
    · rw [View.modify_proc_of_ne v f hx]
  · intro x
    rcases eq_or_ne x p with rfl | hx
    · rw [View.modify_proc_self, hparent]
    · rw [View.modify_proc_of_ne v f hx]

/-- A process stays active and keeps its parent. -/
theorem modify_active
    {f : Proc → Proc} (hp : Active (v.proc p).state) (hf : Active (f (v.proc p)).state)
    (hparent : (f (v.proc p)).parent = (v.proc p).parent) :
  Family (v.modify p f)
  := h.modify_stage ((active_iff_stage.mp hf).trans (active_iff_stage.mp hp).symm) hparent

theorem setCpu (c : Cpu) (o : Option Slot) :
  Family (v.setCpu c o)
  := h.of_eq rfl (fun _ => rfl) rfl rfl

/-- A process stays in its call. -/
theorem setThread_same {th : Thread} (hth : th.call = (v.thread p).call) :
  Family (v.setThread p th)
  := by
  refine h.of_eq rfl ?_ rfl rfl
  intro x
  rcases eq_or_ne x p with rfl | hx
  · rw [View.setThread_thread_self, hth]
  · rw [View.setThread_thread_of_ne _ _ hx]

theorem dispatch (hp : (v.proc p).state = .runnable) (c : Cpu) :
  Family (v.dispatch c p)
  := by
  apply setCpu
  apply h.modify_active
  · exact .inr (.inl hp)
  · exact .inr (.inr rfl)
  · rfl

section

variable (hp : (v.proc p).state = .running)

include hp

theorem yield (c : Cpu) :
  Family (v.yield c p)
  := by
  apply setCpu
  refine (h.modify_active ?_ ?_ ?_).setThread_same rfl
  · exact .inr (.inr hp)
  · exact .inr (.inl rfl)
  · apply (SameFiles.charge v.ticks (v.proc p)).parent

theorem sleep
    (hset : ¬ v.SetUp p) (c : Cpu) (chan : Chan) {call : Call}
    (hcall : call = (v.thread p).call ∨ call = .waiting) :
  Family (v.sleep c p chan call)
  := by
  have hmod : Family (v.modify p fun x =>
      tallied v.ticks (charge v.ticks { x with chan := chan, state := .sleeping })) := by
    apply h.modify_active
    · exact .inr (.inr hp)
    · left
      apply charge_state
    · apply (SameFiles.charge v.ticks _).parent
  apply setCpu
  rcases hcall with hcall | rfl
  · apply hmod.setThread_same hcall
  · apply hmod.setThread_plain hset rfl
    simp

theorem tidy :
  Family (v.tidy p)
  := by
  rw [View.tidy]
  split
  · refine (h.modify_active ?_ ?_ ?_).setThread_same rfl
    · exact .inr (.inr hp)
    · exact .inr (.inr hp)
    · rfl
  · apply h

theorem waited (hset : ¬ v.SetUp p) {c : Cpu} (hw : View.Waited v c p v') :
  Family v'
  := by
  cases hw with
  | reaped x hstate hparent =>
    have hidle : ¬ Active (v.proc x).state := by
      rw [hstate]
      simp [Active]
    have hinit : v.initproc ≠ some x := by
      intro hi
      rw [(h.root x hi).1] at hparent
      cases hparent
    refine (h.modify (h.childless hidle) (.inl hinit) ?_ ?_ ?_ ?_).setThread_plain hset rfl
      (by simp)
    · intro _
      rfl
    · intro p' hp'
      rw [(h.filled p' x hp').1] at hstate
      cases hstate
    · intro y hy
      cases hy
    · rintro _ ((hs | hs | hs) | hs) <;> cases hs
  | failed => apply h.setThread_plain hset rfl (by simp)
  | asleep => apply h.sleep hp hset c _ (.inr rfl)

end

/-- The children of an exiting process, and its parent, after the loops of `exit`. -/
theorem bereaved_parent (x : Slot) :
  (v.bereaved p (v.proc x)).parent =
    if (v.proc x).parent = some p then v.initproc else (v.proc x).parent
  := by
  by_cases hx : (v.proc x).state = .unused
  · have hnone := h.fresh x (.inl hx)
    obtain ⟨st, parent, heq, -, rfl | ⟨hp, -⟩⟩ := v.bereaved_eq p (v.proc x)
    · rw [heq, if_neg]
      rw [hnone]
      simp
    · rw [hnone] at hp
      cases hp
  · have hstate : ∀ chan, (woken chan (v.proc x)).state ≠ .unused := by
      intro chan
      obtain ⟨st, heq, rfl | ⟨-, rfl⟩⟩ := View.woken_eq chan (v.proc x)
      · rw [heq]
        apply hx
      · rw [heq]
        simp
    have hadopted : ∀ y : Proc, y.parent = (v.proc x).parent → (adopted p v.initproc y).parent =
        if (v.proc x).parent = some p then v.initproc else (v.proc x).parent := by
      intro y hy
      simp only [adopted, hy]
      split
      · rfl
      · apply hy
    simp only [View.bereaved, hstate, ne_eq, not_false_eq_true, if_true]
    split
    · rw [woken_parent, hadopted _ (woken_parent _ _)]
    · rw [hadopted _ (woken_parent _ _)]

omit h in
theorem bereaved_stage (v : View) (p : Slot) (x : Proc) :
  (v.bereaved p x).state.stage = x.state.stage
  := by
  obtain ⟨st, parent, heq, rfl | ⟨hs, rfl⟩, -⟩ := v.bereaved_eq p x
  · rw [heq]
  · rw [heq, hs]
    rfl

theorem exit_parent (c : Cpu) (x : Slot) :
  ((v.exit c p).proc x).parent =
    if (v.proc x).parent = some p then v.initproc else (v.proc x).parent
  := by
  rw [← h.bereaved_parent]
  rcases eq_or_ne x p with rfl | hx
  · rw [View.exit, View.leave_proc_self]
    rfl
  · rw [View.exit, View.leave_proc_of_ne _ _ _ _ hx]

theorem exit
    (hp : (v.proc p).state = .running) (hset : ¬ v.SetUp p) (c : Cpu)
    (hcall : (v.thread p).call = .exiting) :
  Family (v.exit c p)
  := by
  obtain ⟨i, hi, -⟩ := h.active_root (.inr (.inr hp))
  have hip : i ≠ p := by
    rintro rfl
    apply (h.root i hi).2.1 hcall
  have hinit : v.initproc ≠ some p := by
    rw [hi]
    simpa using hip
  -- the children are passed on first, so that the process has none when it exits
  have hpassed : Family { v with proc := fun x => v.bereaved p (v.proc x) } := by
    refine h.reparent (fun y => if y = p then i else y) ?_ ?_ (fun x => bereaved_stage v p _) ?_
      (fun _ => rfl) rfl rfl
    · intro y
      split
      · exact .inr hi
      · exact .inl rfl
    · intro p' np hp'
      apply if_neg
      rintro rfl
      cases hcall.symm.trans hp'
    · intro x
      rw [h.bereaved_parent, hi]
      cases (v.proc x).parent with
      | none => rfl
      | some y =>
        simp only [Option.some.injEq, Option.map_some]
        split <;> rfl
  have hchildless : ∀ x, (v.bereaved p (v.proc x)).parent ≠ some p := by
    intro x
    rw [h.bereaved_parent]
    split
    · apply hinit
    · assumption
  apply setCpu
  refine (hpassed.modify hchildless (.inl hinit) ?_ ?_ ?_ ?_).setThread_plain hset rfl (by simp)
  · rintro (hs | hs)
    · cases hs
    · apply hpassed.fresh p (.inr hs)
  · intro p' hp'
    cases hp.symm.trans (h.filled p' p hp').1
  · intro y hy
    refine ⟨?_, hpassed.alive p y hy⟩
    rintro rfl
    apply hchildless y hy
  · intro _ _ hnone
    have hstarted : Started (v.bereaved p (v.proc p)).state := by
      rw [started_iff_stage, bereaved_stage, ← started_iff_stage]
      apply started_of_running hp
    obtain ⟨j, hj, hchain⟩ := hpassed.descends p hstarted
    rcases Relation.ReflTransGen.cases_head hchain with rfl | ⟨y, hy, -⟩
    · apply hinit hj
    · cases hnone.symm.trans hy

end

end Family

section

variable {s : Sys} {v v' : View} {c : Cpu} {p : Slot} {l : Label}

/-- A slot that is not active and not prepared by `userinit` is not `initproc`. -/
theorem Family.ne_initproc
    (h : Family v) (hp : ¬ Active (v.proc p).state) (hb : v.boot.pending ≠ some p) :
  v.initproc ≠ some p
  := by
  intro hi
  rcases (h.root p hi).2.2 with hboot | hactive
  · apply hb
    rw [hboot]
    rfl
  · apply hp hactive

theorem Family.alloc
    {np : Slot} (h : Family s.view) (hinv : Inv s) (hnp : (s.view.proc np).state = .unused) :
  Family (s.view.alloc np)
  := by
  have hnone := h.fresh np (.inl hnp)
  have hidle : ¬ Active (s.view.proc np).state := by
    rw [hnp]
    simp [Active]
  have hboot : s.view.boot.pending ≠ some np := by
    intro hb
    cases hnp.symm.trans (hinv.embryo .boot np hb)
  have hmod : Family (s.view.modify np
      fun x => { x with state := .embryo, pid := s.view.nextpid }) := by
    apply h.modify (h.childless hidle) (.inl (h.ne_initproc hidle hboot))
    · intro _
      apply hnone
    · intro p' hp'
      cases hnp.symm.trans (h.filled p' np hp').1
    · intro y hy
      cases hnone.symm.trans hy
    · rintro _ ((hs | hs | hs) | hs) <;> cases hs
  exact hmod.of_eq rfl (fun _ => rfl) rfl rfl

/-- The end of `allocproc`. -/
theorem Family.prepare
    {np : Slot} (h : Family v) (hnp : (v.proc np).state = .embryo)
    (hnone : (v.proc np).parent = none) (hinit : v.initproc ≠ some np) :
  Family ((v.modify np View.preparedProc).setCall np .user)
  := by
  have hmod : Family (v.modify np View.preparedProc) := by
    apply h.modify
    · apply h.childless
      rw [hnp]
      simp [Active]
    · exact .inl hinit
    · intro _
      apply hnone
    · intro p' hp'
      cases hnone.symm.trans (h.filled p' np hp').2
    · intro y hy
      cases hnone.symm.trans hy
    · intro _ hs
      simp [View.preparedProc, Started, Active, hnp] at hs
  exact hmod.setThread (.inl rfl) (by simp) (by rintro _ ⟨⟩) (by simp)

theorem Family.stepOn
    (h : Family s.view) (hinv : Inv s) (hc : s.cpu c = some p)
    (hstep : View.StepOn s.view c p l v') :
  Family v'
  := by
  have hrun : (s.view.proc p).state = .running := hinv.running c p hc
  have hset : ¬ s.view.SetUp p := by
    apply hinv.not_setUp
    rw [show (s.pt.proc p).state = _ from hrun]
    simp
  -- the slot that the process prepares is not prepared by anyone else
  have hother : ∀ np, (s.view.thread p).call.pending = some np →
      s.view.boot.pending ≠ some np ∧
        ∀ p', p' ≠ p → (s.view.thread p').call.pending ≠ some np := by
    intro np hnp
    constructor
    · intro hb
      cases hinv.owner (.proc p) .boot np hnp hb
    · intro p' hne hp'
      cases hinv.owner (.proc p) (.proc p') np hnp hp'
      apply hne rfl
  have huser : Family (s.view.setCall p .user) := h.setThread_plain hset rfl (by simp)
  have hidle : ∀ np, (s.view.thread p).call.pending = some np →
      ¬ Active (s.view.proc np).state := by
    intro np hnp
    rw [hinv.embryo_of_call rfl hnp]
    simp [Active]
  have hinit : ∀ np, (s.view.thread p).call.pending = some np → s.view.initproc ≠ some np :=
    fun np hnp => h.ne_initproc (hidle np hnp) (hother np hnp).1
  -- the slot that the process prepares changes as the process leaves its call
  have hslot : ∀ np (f : Proc → Proc), (s.view.thread p).call.pending = some np →
      ((f (s.view.proc np)).state = .unused → (f (s.view.proc np)).parent = none) →
      (∀ y, (f (s.view.proc np)).parent = some y → Active (s.view.proc y).state) →
      (Started (f (s.view.proc np)).state → (f (s.view.proc np)).parent ≠ none) →
      Family ((s.view.setCall p .user).modify np f) := by
    intro np f hnp hfresh halive hstarted
    have hfree : ∀ p', ((s.view.setCall p .user).thread p').call.pending ≠ some np := by
      intro p' hp'
      rcases eq_or_ne p' p with rfl | hne
      · rw [View.setCall, View.setThread_thread_self] at hp'
        cases hp'
      · rw [View.setCall, View.setThread_thread_of_ne _ _ hne] at hp'
        apply (hother np hnp).2 p' hne hp'
    apply huser.modify (h.childless (hidle np hnp)) (.inl (hinit np hnp))
    · rintro (hs | hs | ⟨p', hs⟩)
      · apply hfresh hs
      · cases (hother np hnp).1 hs
      · cases hfree p' (Call.pending_of_blank hs)
    · intro p' hp'
      cases hfree p' (by rw [hp']; rfl)
    · intro y hy
      refine ⟨?_, halive y hy⟩
      rintro rfl
      apply hidle y hnp (halive y hy)
    · exact fun _ => hstarted
  cases hstep with
  | yield => apply h.yield hrun
  | sleep chan => apply h.sleep hrun hset c chan (.inl rfl)
  | exitClose hcall hinit =>
    refine (h.modify_active ?_ ?_ ?_).setThread (.inr hset) (fun _ => hinit) (by rintro _ ⟨⟩)
      (by simp)
    · exact .inr (.inr hrun)
    · exact .inr (.inr hrun)
    · rfl
  | exit hcall => apply h.exit hrun hset c hcall
  | wait hcall hw => apply h.waited hrun hset hw
  | allocNone hl hcall hno => apply h
  | allocRead hcall hnp => apply h.setThread_plain hset rfl (by simp)
  | @alloc _ np hl hnp =>
    have hnone := h.fresh np (.inl hnp)
    refine (h.alloc hinv hnp).setThread (.inr hset) (by simp) ?_ (by simp)
    rintro x ⟨⟩
    rw [View.alloc_proc_self]
    apply hnone
  | @kalloc np hcall =>
    have hblank : (s.view.thread p).call.blank = some np := by
      rw [hcall]
      rfl
    have hnone := h.fresh np (.inr (.inr ⟨p, hblank⟩))
    have hprep := h.prepare (hinv.embryo_of_call hcall rfl) hnone
      (hinit np (Call.pending_of_blank hblank))
    refine hprep.setThread (.inr (View.not_setUp_setCall hset)) (by simp) ?_ (by simp)
    rintro x ⟨⟩
    rw [View.setCall_proc, View.modify_proc_self]
    apply hnone
  | @copyuvm np hcall =>
    have hnp : (s.view.thread p).call.pending = some np := by
      rw [hcall]
      rfl
    have hmod :
        Family ((s.view.setCall p .user).modify np (View.filledProc p (s.view.proc p))) := by
      apply hslot np _ hnp
      · intro hs
        cases (hinv.embryo_of_call hcall rfl).symm.trans hs
      · rintro y ⟨⟩
        exact .inr (.inr hrun)
      · intro _
        simp [View.filledProc]
    have heq : (s.view.modify np (View.filledProc p (s.view.proc p))).setCall p (.filled np) =
        ((s.view.setCall p .user).modify np (View.filledProc p (s.view.proc p))).setCall p
          (.filled np) := by
      simp only [View.setCall, View.setThread, View.modify, Function.update_idem]
    rw [heq]
    refine hmod.setThread (.inr (View.not_setUp_setCall hset)) (by simp) (by rintro _ ⟨⟩) ?_
    rintro x ⟨⟩
    rw [View.modify_proc_self]
    exact ⟨hinv.embryo_of_call hcall rfl, rfl⟩
  | @rollback _ np hl =>
    have hblank := Call.blank_of_rollback hl
    have hnp := Call.pending_of_blank hblank
    have hnone := h.fresh np (.inr (.inr ⟨p, hblank⟩))
    apply hslot np _ hnp
    · intro _
      apply hnone
    · intro y hy
      cases hnone.symm.trans hy
    · rintro ((hs | hs | hs) | hs) <;> cases hs
  | @forkEnqueue np hcall =>
    have hnp : (s.view.thread p).call.pending = some np := by
      rw [hcall]
      rfl
    have hparent := (h.filled p np hcall).2
    change Family ((s.view.setCall p .user).modify np ({ · with state := .runnable }))
    apply hslot np _ hnp
    · simp
    · intro y hy
      apply h.alive np y hy
    · intro _ hnone
      cases hparent.symm.trans hnone

/-- `userinit` goes on. -/
theorem Family.setBoot
    (h : Family v) {b : Boot} (hpending : ∀ x, b.pending = some x → (v.proc x).parent = none)
    (hinit : ∀ i, v.initproc = some i → b = .filled i ∨ Active (v.proc i).state)
    (hsets : b.Sets v) :
  Family { v with boot := b }
  := by
  refine ⟨?_, h.filled, h.alive, h.descends, ?_, ?_⟩
  · rintro x (hx | hx | hx)
    · apply h.fresh x (.inl hx)
    · apply hpending x hx
    · apply h.fresh x (.inr (.inr hx))
  · intro i hi
    obtain ⟨hnone, hcall, -⟩ := h.root i hi
    exact ⟨hnone, hcall, hinit i hi⟩
  · exact hsets.congr rfl fun _ _ hnp => hnp

/-- `userinit` sets `initproc` while no process has started. -/
theorem Family.setInitproc
    {np : Slot} (h : Family v) (hboot : v.boot = .setup np) :
  Family { v with initproc := some np, boot := .filled np }
  := by
  have hnp : v.boot.pending = some np := by
    rw [hboot]
    rfl
  have hsets := h.boot
  rw [hboot] at hsets
  refine ⟨?_, h.filled, h.alive, ?_, ?_, rfl⟩
  · rintro x (hx | hx | hx)
    · apply h.fresh x (.inl hx)
    · apply h.fresh x (.inr (.inl (hnp.trans hx)))
    · apply h.fresh x (.inr (.inr hx))
  · intro x hx
    obtain ⟨i, hi, -⟩ := h.descends x hx
    cases hsets.1.symm.trans hi
  · rintro i ⟨⟩
    refine ⟨h.fresh np (.inr (.inl hnp)), ?_, .inl rfl⟩
    rw [hsets.2]
    simp

theorem Family.stepBoot (h : Family s.view) (hinv : Inv s) (hstep : View.StepBoot s.view l v') :
  Family v'
  := by
  have hsets := h.boot
  have hnone : ∀ np, s.view.boot.pending = some np → (s.view.proc np).parent = none :=
    fun np hb => h.fresh np (.inr (.inl hb))
  cases hstep with
  | @alloc np hboot hnp =>
    rw [hboot] at hsets
    apply (h.alloc hinv hnp).setBoot
    · rintro x ⟨⟩
      rw [View.alloc_proc_self]
      apply h.fresh np (.inl hnp)
    · intro i hi
      cases hsets.symm.trans hi
    · apply hsets
  | @kalloc np hboot =>
    rw [hboot] at hsets
    have hnp : s.view.boot.pending = some np := by
      rw [hboot]
      rfl
    have hinit : s.view.initproc ≠ some np := by
      intro hi
      cases hsets.symm.trans hi
    apply (h.prepare (hinv.embryo_of_boot hboot rfl) (hnone np hnp) hinit).setBoot
    · rintro x ⟨⟩
      change ((s.view.modify np View.preparedProc).proc np).parent = none
      rw [View.modify_proc_self]
      apply hnone np hnp
    · intro i hi
      cases hsets.symm.trans hi
    · refine ⟨hsets, ?_⟩
      rw [View.setCall, View.setThread_thread_self]
  | @setup np hboot root =>
    exact (h.modify_stage rfl rfl).setInitproc hboot
  | @enqueue np hboot =>
    rw [hboot] at hsets
    have hnp : s.view.boot.pending = some np := by
      rw [hboot]
      rfl
    have hmod : Family (s.view.modify np ({ · with
        state := .runnable, uid := DEFAULT_UID, gid := DEFAULT_GID })) := by
      apply h.modify
      · apply h.childless
        rw [hinv.embryo_of_boot hboot rfl]
        simp [Active]
      · exact .inr ⟨hsets, hnone np hnp, .inr (.inl rfl)⟩
      · intro _
        apply hnone np hnp
      · intro p' hp'
        have hpending : s.pending (.proc p') = some np := by
          rw [Sys.pending, show (s.thread p').call = _ from hp']
          rfl
        cases hinv.owner (.proc p') .boot np hpending hnp
      · intro y hy
        cases (hnone np hnp).symm.trans hy
      · intro hinit
        cases hinit hsets
    refine (hmod.setBoot (b := .done) (by rintro _ ⟨⟩) ?_ trivial).of_eq rfl (fun _ => rfl) rfl rfl
    intro i hi
    obtain rfl := Option.some.inj (hsets.symm.trans hi)
    rw [View.modify_proc_self]
    exact .inr (.inr (.inl rfl))

/-- A step keeps the process tree. -/
theorem Family.step
    (h : Family s.view) (hinv : Inv s) {d : Option Slot} (hstep : View.Step s.view l d v') :
  Family v'
  := by
  cases hstep with
  | tick => exact h.of_eq rfl (fun _ => rfl) rfl rfl
  | idle => apply h.promote
  | @dispatch c p _ hc hp hmax hres =>
    have hset := hinv.not_setUp_dispatch hp c
    have hrun : ((s.view.promote.dispatch c p).proc p).state = .running := by
      rw [View.dispatch_proc_self]
      rfl
    have hdisp : Family (s.view.promote.dispatch c p) := by
      apply h.promote.dispatch
      rw [View.promote_state, hp]
    rw [View.Resumed] at hres
    split at hres
    · apply (hdisp.tidy hrun).waited _ _ hres
      · rw [View.tidy_state, hrun]
      · rw [View.setUp_tidy]
        exact hset
    · rw [hres]
      apply hdisp.tidy hrun
  | wakeup chan => apply h.wake
  | killNone => apply h
  | @kill pid p hp hpid =>
    exact h.modify_stage (killed_stage _) rfl
  | setpriorityNone => apply h
  | setpriority hvalid hp hpid =>
    apply h.modify_active hp
    · rw [reprioritized_state]
      apply hp
    · simp only [reprioritized]
      split <;> rfl
  | boot hb => apply h.stepBoot hinv hb
  | on hc ho => apply h.stepOn hinv hc ho

theorem family_of_booted (h : Booted s) :
  Family s.view
  := by
  have hproc : ∀ x, s.view.proc x = zeroProc := h.proc_eq
  have hinit : s.view.initproc = none := by
    obtain ⟨_, _, -, -, hvars⟩ := h.table
    exact hvars.initproc
  obtain ⟨-, -, hthread, hboot⟩ := h
  have hcall : ∀ x, (s.view.thread x).call = .user := by
    intro x
    rw [Sys.view, hthread]
  constructor
  · intro x _
    rw [hproc]
    rfl
  · intro p np hp
    rw [hcall] at hp
    cases hp
  · intro x y hxy
    rw [View.Child, hproc] at hxy
    cases hxy
  · intro x hx
    rw [hproc] at hx
    rcases hx with (hx | hx | hx) | hx <;> cases hx
  · intro i hi
    cases hinit.symm.trans hi
  · change Boot.Sets s.view s.boot
    rw [hboot]
    apply hinit

/-- The parents of the processes in every reachable state. -/
theorem family_of_reachable (h : kernel.Reachable s) :
  Family s.view
  := by
  induction h with
  | init h => apply family_of_booted h
  | step hreach _ hstep ih =>
    have hinv := inv_of_reachable hreach
    apply ih.step hinv (hinv.view_step hstep)

end

/-- The process tree.  In every reachable state the parent of every process other than `initproc`
that has started is asleep, runnable or running, and following the parents leads to `initproc`.
`exit` passes all children of the process, in whatever state, on to `initproc`, and no slot keeps
it as its parent. -/
theorem process_tree {s : Sys} (h : kernel.Reachable s) :
  (∀ x, Started (s.pt.proc x).state →
    (s.pt.initproc = some x ∨ ∃ y, (s.pt.proc x).parent = some y ∧ Active (s.pt.proc y).state) ∧
    ∃ i, s.pt.initproc = some i ∧
      Relation.ReflTransGen (fun x y => (s.pt.proc x).parent = some y) x i) ∧
  ∀ c p s', s.cpu c = some p → kernel.step s (.exit c) = some (.ok s') →
    ∀ x, (s'.pt.proc x).parent ≠ some p ∧
      ((s.pt.proc x).parent = some p → (s'.pt.proc x).parent = s.pt.initproc)
  := by
  have hfam := family_of_reachable h
  constructor
  · intro x hx
    obtain ⟨i, hi, hchain⟩ := hfam.descends x hx
    refine ⟨?_, i, hi, hchain⟩
    rcases Relation.ReflTransGen.cases_head hchain with rfl | ⟨y, hxy, -⟩
    · exact .inl hi
    · exact .inr ⟨y, hxy, hfam.alive x y hxy⟩
  · intro c p s' hc hstep x
    have hinv := inv_of_reachable h
    have hview := (hinv.view_step hstep).stepOn rfl hc
    obtain ⟨hs', hcall⟩ := hview.exit_eq
    have hfam' : Family s'.view := hfam.step hinv (hinv.view_step hstep)
    constructor
    · intro hx
      have hactive := hfam'.alive x p hx
      rw [hs', View.exit_state_self] at hactive
      simp [Active] at hactive
    · intro hx
      change (s'.view.proc x).parent = _
      rw [hs', hfam.exit_parent]
      apply if_pos hx

/-- `init` forks, and its child runs. -/
theorem process_tree_after_fork :
  ∃ s, kernel.Reachable s ∧ (s.pt.proc 1).state = .running ∧
    ∃ y, (s.pt.proc 1).parent = some y ∧ Active (s.pt.proc y).state
  := by
  obtain ⟨s, -, hreach, hstate, hinit⟩ := System.exists_of_run kernel booted_firstSys forkRun
    (fun s => (s.pt.proc 1).state = .running ∧ s.pt.initproc = some 0) (by decide +kernel)
  refine ⟨s, hreach, hstate, ?_⟩
  rcases ((process_tree hreach).1 1 (started_of_running hstate)).1 with hi | hparent
  · rw [hinit] at hi
    cases hi
  · apply hparent

end Xv6.Ptable
