import Xv6.Proc.Reachable
import Xv6.Proc.Edits

/-!
# What a new process inherits from its slot

`kill` also finds slots that `fork` is still preparing.  If such a `fork` fails, the slot goes back
to the free list with `killed` set, and the next process in the slot starts killed.  Otherwise
every free slot is clean, and a process is killed only when `kill` has been called with its pid.
-/

namespace Xv6.Ptable

open Function (update_self update_of_ne)

/-! ### Calls of kill -/

/-- The slots whose present process `kill` has been called for: a call of `kill` adds the slots
with its pid, and the allocation of a slot removes it. -/
def asksKill (s : Sys) (l : Label) (s' : Sys) (asked : Slot → Bool) : Slot → Bool := fun x =>
  match l with
  | .kill pid =>
      asked x || decide ((s.pt.proc x).state ≠ .unused ∧ (s.pt.proc x).pid = pid.toUInt32)
  | _ =>
      if (s.pt.proc x).state = .unused ∧ (s'.pt.proc x).state = .embryo then false else asked x

/-- The kernel with the slots that `kill` has been called for. -/
def killKernel : System (Sys × (Slot → Bool)) Label Fault :=
  kernel.observe (fun _ _ => false) asksKill

/-- The slot that a failing `fork` gives back. -/
def Sys.givesBack (s : Sys) : Label → Option Slot
  | .kalloc c false | .copyuvm c false =>
      (s.cpu c).bind fun p => (s.thread p).call.pending
  | _ => none

/-- `fork` fails only for slots that `kill` has not been called for since their allocation. -/
def KillSpares (x : Sys × (Slot → Bool)) (l : Label) : Prop :=
  ∀ np, x.1.givesBack l = some np → x.2 np = false

/-! ### The invariant -/

/-- No open files and no current directory. -/
def Proc.NoFiles (x : Proc) : Prop :=
  x.ofile = (fun _ => none) ∧ x.cwd = none

/-- The slot that a call prepares and has not filled in. -/
def Call.blank : Call → Option Slot
  | .alloc np | .setup np => some np
  | _ => none

/-- The slot that `userinit` prepares and has not filled in. -/
def Boot.blank : Boot → Option Slot
  | .kalloc np | .setup np => some np
  | _ => none

theorem Call.pending_of_blank {call : Call} {x : Slot} (h : call.blank = some x) :
  call.pending = some x
  := by
  cases call <;> cases h <;> rfl

/-- A call that gives its slot back has not filled it in. -/
theorem Call.blank_of_rollback
    {call : Call} {l : Label} {c : Cpu} {np : Slot}
    (h : l = .kalloc c false ∧ call = .alloc np ∨ l = .copyuvm c false ∧ call = .setup np) :
  call.blank = some np
  := by
  rcases h with ⟨-, rfl⟩ | ⟨-, rfl⟩ <;> rfl

theorem Boot.pending_of_blank {b : Boot} {x : Slot} (h : b.blank = some x) :
  b.pending = some x
  := by
  cases b <;> cases h <;> rfl

/-- The slot is set up and not filled in. -/
def View.SetUp (v : View) (np : Slot) : Prop :=
  v.boot = .setup np ∨ ∃ p, (v.thread p).call = .setup np

/-- A process that goes to user mode sets up nothing. -/
theorem View.not_setUp_setCall {v : View} {p np : Slot} (hp : ¬ v.SetUp p) :
  ¬ (v.setCall np .user).SetUp p
  := by
  rintro (hb | ⟨q, hq⟩)
  · apply hp (Or.inl hb)
  · rcases eq_or_ne q np with rfl | hne
    · rw [View.setCall, View.setThread_thread_self] at hq
      cases hq
    · rw [View.setCall, View.setThread_thread_of_ne _ _ hne] at hq
      apply hp (Or.inr ⟨q, hq⟩)

/-- The fields that most steps leave alone. -/
structure SameFiles (x y : Proc) : Prop where
  killed : y.killed = x.killed
  parent : y.parent = x.parent
  ofile : y.ofile = x.ofile
  cwd : y.cwd = x.cwd

theorem SameFiles.charge (ticks : UInt32) (x : Proc) :
  SameFiles x (charge ticks x)
  := by
  simp only [Ptable.charge]
  split <;> exact ⟨rfl, rfl, rfl, rfl⟩

/-- Free slots, and slots that are not filled in, are clean, and exited processes have no files. -/
structure Clean (v : View) : Prop where
  free : ∀ x, (v.proc x).state = .unused → (v.proc x).killed = false
  blank : ∀ x, ((v.proc x).state = .unused ∨ v.boot.blank = some x ∨
    ∃ p, (v.thread p).call.blank = some x) → (v.proc x).parent = none ∧ (v.proc x).NoFiles
  exited : ∀ x, (v.proc x).state = .zombie ∨ (v.thread x).call = .exiting → (v.proc x).NoFiles
  fresh : ∀ np, v.SetUp np → (v.thread np).call = .user

namespace Clean

variable {v v' : View} {p : Slot}

section

variable (h : Clean v)

include h

/-- A step that leaves the fields, the threads and the progress of `userinit` alone. -/
theorem frame
    (hsame : ∀ x, SameFiles (v.proc x) (v'.proc x))
    (hstate : ∀ x, (v'.proc x).state = (v.proc x).state ∨ (v'.proc x).state = .runnable)
    (hthread : v'.thread = v.thread) (hboot : v'.boot = v.boot) :
  Clean v'
  := by
  have hold : ∀ x st, st ≠ .runnable → (v'.proc x).state = st → (v.proc x).state = st := by
    rintro x st hst rfl
    exact ((hstate x).resolve_right hst).symm
  constructor
  · intro x hx
    rw [(hsame x).killed]
    apply h.free x (hold x _ (by simp) hx)
  · intro x hx
    rw [hthread, hboot] at hx
    rw [Proc.NoFiles, (hsame x).parent, (hsame x).ofile, (hsame x).cwd]
    apply h.blank x (hx.imp_left (hold x _ (by simp)))
  · intro x hx
    rw [hthread] at hx
    rw [Proc.NoFiles, (hsame x).ofile, (hsame x).cwd]
    apply h.exited x (hx.imp_left (hold x _ (by simp)))
  · intro np hnp
    rw [View.SetUp, hthread, hboot] at hnp
    rw [hthread]
    apply h.fresh np hnp

/-- The invariant depends on the slots, the threads and the progress of `userinit` only. -/
theorem of_eq
    (hproc : v'.proc = v.proc) (hthread : v'.thread = v.thread) (hboot : v'.boot = v.boot) :
  Clean v'
  := by
  apply h.frame
  · intro x
    rw [hproc]
    exact ⟨rfl, rfl, rfl, rfl⟩
  · intro x
    rw [hproc]
    exact Or.inl rfl
  · apply hthread
  · apply hboot

/-- A step of one slot that keeps it clean. -/
theorem modify
    {f : Proc → Proc}
    (hfree : (f (v.proc p)).state = .unused → (f (v.proc p)).killed = false)
    (hblank : ((f (v.proc p)).state = .unused ∨ v.boot.blank = some p ∨
      ∃ p', (v.thread p').call.blank = some p) →
      (f (v.proc p)).parent = none ∧ (f (v.proc p)).NoFiles)
    (hexit : (f (v.proc p)).state = .zombie ∨ (v.thread p).call = .exiting →
      (f (v.proc p)).NoFiles) :
  Clean (v.modify p f)
  := by
  refine ⟨?_, ?_, ?_, h.fresh⟩
  · intro x
    rcases eq_or_ne x p with rfl | hx
    · rw [View.modify_proc_self]
      apply hfree
    · rw [View.modify_proc_of_ne v f hx]
      apply h.free x
  · intro x
    rcases eq_or_ne x p with rfl | hx
    · rw [View.modify_proc_self]
      apply hblank
    · rw [View.modify_proc_of_ne v f hx]
      apply h.blank x
  · intro x
    rcases eq_or_ne x p with rfl | hx
    · rw [View.modify_proc_self]
      apply hexit
    · rw [View.modify_proc_of_ne v f hx]
      apply h.exited x

/-- A step of one slot that leaves its fields alone. -/
theorem modify_same
    {f : Proc → Proc} (hf : SameFiles (v.proc p) (f (v.proc p)))
    (hunused : (f (v.proc p)).state ≠ .unused) (hzombie : (f (v.proc p)).state ≠ .zombie) :
  Clean (v.modify p f)
  := by
  apply h.modify
  · intro hs
    cases hunused hs
  · intro hs
    rw [Proc.NoFiles, hf.parent, hf.ofile, hf.cwd]
    apply h.blank p (Or.inr (hs.resolve_left hunused))
  · intro hs
    rw [Proc.NoFiles, hf.ofile, hf.cwd]
    apply h.exited p (Or.inr (hs.resolve_left hzombie))

theorem setCpu (c : Cpu) (o : Option Slot) :
  Clean (v.setCpu c o)
  := h.of_eq rfl rfl rfl

/-- A process that no call has set up goes on. -/
theorem setThread
    {th : Thread} (hp : th.call = .user ∨ ¬ v.SetUp p)
    (hblank : ∀ x, th.call.blank = some x → (v.proc x).parent = none ∧ (v.proc x).NoFiles)
    (hexit : th.call = .exiting → (v.proc p).NoFiles)
    (hready : ∀ np, th.call = .setup np → np ≠ p ∧ (v.thread np).call = .user) :
  Clean (v.setThread p th)
  := by
  refine ⟨h.free, ?_, ?_, ?_⟩
  · rintro x (hx | hx | ⟨p', hx⟩)
    · apply h.blank x (Or.inl hx)
    · apply h.blank x (Or.inr (Or.inl hx))
    · rcases eq_or_ne p' p with rfl | hp'
      · simp only [View.setThread, update_self] at hx
        apply hblank x hx
      · simp only [View.setThread, update_of_ne hp'] at hx
        apply h.blank x (Or.inr (Or.inr ⟨p', hx⟩))
  · rintro x (hx | hx)
    · apply h.exited x (Or.inl hx)
    · rcases eq_or_ne x p with rfl | hxp
      · simp only [View.setThread, update_self] at hx
        apply hexit hx
      · simp only [View.setThread, update_of_ne hxp] at hx
        apply h.exited x (Or.inr hx)
  · intro np hnp
    -- the process goes to user mode or is not set up, so the slots that are set up stay put
    have hcases : v.SetUp np ∨ th.call = .setup np := by
      rcases hnp with hb | ⟨p', hx⟩
      · left
        left
        apply hb
      · rcases eq_or_ne p' p with rfl | hp'
        · right
          simpa only [View.setThread, update_self] using hx
        · left
          right
          use p'
          simpa only [View.setThread, update_of_ne hp'] using hx
    rcases eq_or_ne np p with rfl | hne
    · simp only [View.setThread, update_self]
      rcases hcases with hs | hs
      · apply hp.resolve_right (not_not_intro hs)
      · cases (hready np hs).1 rfl
    · simp only [View.setThread, update_of_ne hne]
      rcases hcases with hs | hs
      · apply h.fresh np hs
      · apply (hready np hs).2

/-- `userinit` goes on. -/
theorem setBoot
    {b : Boot} (hblank : ∀ x, b.blank = some x → (v.proc x).parent = none ∧ (v.proc x).NoFiles)
    (hset : ∀ np, b = .setup np → (v.thread np).call = .user) :
  Clean { v with boot := b }
  := by
  refine ⟨h.free, ?_, h.exited, ?_⟩
  · rintro x (hx | hx | hx)
    · apply h.blank x (Or.inl hx)
    · apply hblank x hx
    · apply h.blank x (Or.inr (Or.inr hx))
  · rintro np (hb | hx)
    · apply hset np hb
    · apply h.fresh np (Or.inr hx)

/-- A process that stays in its call. -/
theorem setThread_same {th : Thread} (hp : ¬ v.SetUp p) (hth : th.call = (v.thread p).call) :
  Clean (v.setThread p th)
  := by
  apply h.setThread (Or.inr hp)
  · intro x hx
    rw [hth] at hx
    apply h.blank x (Or.inr (Or.inr ⟨p, hx⟩))
  · intro hx
    rw [hth] at hx
    apply h.exited p (Or.inr hx)
  · intro np hx
    rw [hth] at hx
    have hset : v.SetUp np := Or.inr ⟨p, hx⟩
    refine ⟨?_, h.fresh np hset⟩
    rintro rfl
    apply hp hset

/-- A process that goes where it prepares no slot and has not closed its files. -/
theorem setThread_plain {th : Thread} (hp : th.call = .user ∨ ¬ v.SetUp p)
    (hblank : th.call.blank = none) (hexit : th.call ≠ .exiting) :
  Clean (v.setThread p th)
  := by
  apply h.setThread hp
  · intro x hx
    rw [hblank] at hx
    cases hx
  · intro hx
    cases hexit hx
  · intro np hx
    rw [hx] at hblank
    cases hblank

end

/-! ### The steps -/

section

variable (h : Clean v)

include h

theorem promote :
  Clean v.promote
  := by
  rw [View.promote]
  split
  · apply h.frame
    · intro x
      simp only [promotion]
      split <;> exact ⟨rfl, rfl, rfl, rfl⟩
    · intro x
      simp
    · rfl
    · rfl
  · apply h

theorem wake (chan : Chan) :
  Clean (v.wake chan)
  := by
  apply h.frame
  · intro x
    obtain ⟨st, hx, -⟩ := View.woken_eq chan (v.proc x)
    simp only [View.wake, hx]
    exact ⟨rfl, rfl, rfl, rfl⟩
  · intro x
    obtain ⟨st, hx, hst⟩ := View.woken_eq chan (v.proc x)
    simp only [View.wake, hx]
    exact hst.imp_right And.right
  · rfl
  · rfl

theorem dispatch (c : Cpu) (p : Slot) :
  Clean (v.dispatch c p)
  := by
  apply setCpu
  apply h.modify_same
  · exact ⟨rfl, rfl, rfl, rfl⟩
  · simp [dispatched]
  · simp [dispatched]

section

variable (hp : ¬ v.SetUp p)

include hp

theorem yield (c : Cpu) :
  Clean (v.yield c p)
  := by
  apply setCpu
  refine (h.modify_same ?_ ?_ ?_).setThread_same hp rfl
  · obtain ⟨hk, hpar, hof, hcwd⟩ := SameFiles.charge v.ticks (v.proc p)
    exact ⟨hk, hpar, hof, hcwd⟩
  · simp [tallied]
  · simp [tallied]

theorem sleep (c : Cpu) (chan : Chan) {call : Call}
    (hcall : call = (v.thread p).call ∨ call.blank = none ∧ call ≠ .exiting) :
  Clean (v.sleep c p chan call)
  := by
  have hmod : Clean (v.modify p fun x =>
      tallied v.ticks (charge v.ticks { x with chan := chan, state := .sleeping })) := by
    apply h.modify_same
    · obtain ⟨hk, hpar, hof, hcwd⟩ := SameFiles.charge v.ticks
        { v.proc p with chan := chan, state := .sleeping }
      exact ⟨hk, hpar, hof, hcwd⟩
    · simp [tallied]
    · simp [tallied]
  apply setCpu
  rcases hcall with hcall | ⟨hblank, hexit⟩
  · apply hmod.setThread_same hp hcall
  · apply hmod.setThread_plain (Or.inr hp) hblank hexit

theorem tidy (hs : (v.proc p).state = .running) :
  Clean (v.tidy p)
  := by
  rw [View.tidy]
  split
  · refine (h.modify_same ?_ ?_ ?_).setThread_same hp rfl
    · exact ⟨rfl, rfl, rfl, rfl⟩
    · simp [hs]
    · simp [hs]
  · apply h

theorem exit (c : Cpu) (hcall : (v.thread p).call = .exiting) :
  Clean (v.exit c p)
  := by
  have hb : Clean { v with proc := fun x => v.bereaved p (v.proc x) } := by
    refine ⟨?_, ?_, ?_, h.fresh⟩
    · intro x hs
      obtain ⟨st, parent, hx, rfl | ⟨-, rfl⟩, -⟩ := v.bereaved_eq p (v.proc x)
      · simp only [hx] at hs ⊢
        apply h.free x hs
      · simp only [hx] at hs
        cases hs
    · intro x hs
      have hold := h.blank x
      obtain ⟨st, parent, hx, hst, hpar⟩ := v.bereaved_eq p (v.proc x)
      simp only [hx] at hs ⊢
      obtain ⟨hnone, hfiles⟩ := hold (hs.imp_left fun hs => by
        rcases hst with rfl | ⟨-, rfl⟩
        · apply hs
        · cases hs)
      refine ⟨?_, hfiles⟩
      rcases hpar with rfl | ⟨hsome, -⟩
      · apply hnone
      · cases hnone.symm.trans hsome
    · intro x hs
      obtain ⟨st, parent, hx, hst, -⟩ := v.bereaved_eq p (v.proc x)
      simp only [hx] at hs ⊢
      apply h.exited x
      rcases hst with rfl | ⟨-, rfl⟩
      · apply hs
      · exact Or.inr (hs.resolve_left (by simp))
  have hfiles : (v.bereaved p (v.proc p)).NoFiles := by
    obtain ⟨st, parent, hx, -, -⟩ := v.bereaved_eq p (v.proc p)
    rw [hx]
    apply h.exited p (Or.inr hcall)
  apply setCpu
  apply (hb.modify _ _ _).setThread_plain (Or.inr hp) rfl (by simp)
  · intro hs
    cases hs
  · rintro (hs | hs)
    · cases hs
    · apply hb.blank p (Or.inr hs)
  · intro _
    apply hfiles

end

theorem alloc {np : Slot} (hnp : (v.proc np).state = .unused) :
  Clean (v.alloc np)
  := by
  have hblank := h.blank np (Or.inl hnp)
  refine (h.modify (p := np) (f := ({ · with state := .embryo, pid := v.nextpid }))
    ?_ ?_ ?_).of_eq rfl rfl rfl
  · intro hs
    cases hs
  · intro _
    apply hblank
  · intro _
    apply hblank.2

/-- The slot that a call prepares is set up, and its thread starts afresh. -/
theorem prepare {np : Slot} (hnp : (v.proc np).state = .embryo) :
  Clean ((v.modify np View.preparedProc).setCall np .user)
  := by
  refine (h.modify_same ?_ ?_ ?_).setThread_plain (Or.inl rfl) rfl (by simp)
  · exact ⟨rfl, rfl, rfl, rfl⟩
  · simp [View.preparedProc, hnp]
  · simp [View.preparedProc, hnp]

theorem waited (hp : ¬ v.SetUp p) {c : Cpu} (hw : View.Waited v c p v') :
  Clean v'
  := by
  cases hw with
  | reaped x hstate hparent =>
    refine (h.modify ?_ ?_ ?_).setThread_plain (Or.inr hp) rfl (by simp)
    · intro _
      rfl
    · intro _
      exact ⟨rfl, h.exited x (Or.inl hstate)⟩
    · intro _
      apply h.exited x (Or.inl hstate)
  | failed => apply h.setThread_plain (Or.inr hp) rfl (by simp)
  | asleep => apply h.sleep hp c _ (Or.inr ⟨rfl, by simp⟩)

end

end Clean

section

variable {s : Sys} {v' : View} {c : Cpu} {p : Slot} {l : Label}

/-- A process that is not an embryo is not being set up. -/
theorem Inv.not_setUp (h : Inv s) (hp : (s.pt.proc p).state ≠ .embryo) :
  ¬ s.view.SetUp p
  := by
  rintro (hb | ⟨_, hcall⟩)
  · apply hp (h.embryo_of_boot hb rfl)
  · apply hp (h.embryo_of_call hcall rfl)

/-- Nor is the process that the scheduler takes. -/
theorem Inv.not_setUp_dispatch (h : Inv s) (hp : (s.view.proc p).state = .runnable) (c : Cpu) :
  ¬ (s.view.promote.dispatch c p).SetUp p
  := by
  have hset : ¬ s.view.SetUp p := by
    apply h.not_setUp
    rw [show (s.pt.proc p).state = _ from hp]
    simp
  rw [View.promote]
  split
  · apply hset
  · apply hset

theorem View.setUp_tidy {v : View} {x : Slot} :
  (v.tidy p).SetUp x ↔ v.SetUp x
  := by simp only [View.SetUp, View.tidy_boot, View.tidy_call]

theorem Clean.stepOn
    (h : Clean s.view) (hinv : Inv s) (hc : s.cpu c = some p)
    (hstep : View.StepOn s.view c p l v')
    (hspare : ∀ np, s.givesBack l = some np → (s.pt.proc np).killed = false) :
  Clean v'
  := by
  have hrun := hinv.running c p hc
  have hp : ¬ s.view.SetUp p := by
    apply hinv.not_setUp
    simp [hrun]
  cases hstep with
  | yield => apply h.yield hp
  | sleep chan => apply h.sleep hp c chan (Or.inl rfl)
  | exitClose hcall hinit =>
    refine (h.modify ?_ ?_ ?_).setThread (Or.inr hp) (by rintro _ ⟨⟩) ?_ (by simp)
    · intro hs
      cases hrun.symm.trans hs
    · intro hs
      refine ⟨(h.blank p hs).1, rfl, rfl⟩
    · intro _
      exact ⟨rfl, rfl⟩
    · intro _
      rw [View.modify_proc_self]
      exact ⟨rfl, rfl⟩
  | exit hcall => apply h.exit hp c hcall
  | wait hcall hw => apply h.waited hp hw
  | allocNone hl hcall hno => apply h
  | allocRead hcall hnp => apply h.setThread_plain (Or.inr hp) rfl (by simp)
  | alloc hl hnp =>
    refine (h.alloc hnp).setThread (Or.inr hp) ?_ (by simp) (by simp)
    rintro x ⟨⟩
    rw [View.alloc_proc_self]
    apply h.blank _ (Or.inl hnp)
  | @kalloc np hcall =>
    have hnp := hinv.embryo_of_call hcall rfl
    have hne : np ≠ p := by
      rintro rfl
      cases hrun.symm.trans hnp
    have hblank := h.blank np (Or.inr (Or.inr ⟨p, by rw [hcall]; rfl⟩))
    refine (h.prepare hnp).setThread (Or.inr (View.not_setUp_setCall hp)) ?_ (by simp) ?_
    · rintro x ⟨⟩
      rw [View.setCall_proc, View.modify_proc_self]
      apply hblank
    · rintro x ⟨⟩
      refine ⟨hne, ?_⟩
      rw [View.setCall, View.setThread_thread_self]
  | @copyuvm np hcall =>
    have hnp := hinv.embryo_of_call hcall rfl
    have hne : np ≠ p := by
      rintro rfl
      cases hrun.symm.trans hnp
    have hcall' : (s.thread p).call = .setup np := hcall
    have hthread : Clean (s.view.setThread p ⟨.filled np, false⟩) :=
      h.setThread_plain (Or.inr hp) rfl (by simp)
    refine hthread.modify ?_ ?_ ?_
    · intro hs
      cases hnp.symm.trans hs
    · rintro (hs | hs | ⟨p', hs⟩)
      · cases hnp.symm.trans hs
      · cases hinv.owner (.proc p) .boot np (by rw [Sys.pending, hcall']; rfl)
          (Boot.pending_of_blank hs)
      · have hp' : p' ≠ p := by
          rintro rfl
          rw [View.setThread_thread_self] at hs
          cases hs
        rw [View.setThread_thread_of_ne _ _ hp'] at hs
        have howner := hinv.owner (.proc p) (.proc p') np (by rw [Sys.pending, hcall']; rfl)
          (Call.pending_of_blank hs)
        cases howner
        cases hp' rfl
    · rintro (hs | hs)
      · cases hnp.symm.trans hs
      · rw [View.setThread_thread_of_ne _ _ hne, h.fresh np (Or.inr ⟨p, hcall⟩)] at hs
        cases hs
  | @rollback _ np hl =>
    have hblank := h.blank np (Or.inr (Or.inr ⟨p, Call.blank_of_rollback hl⟩))
    have hthread : Clean (s.view.setThread p ⟨.user, false⟩) :=
      h.setThread_plain (Or.inr hp) rfl (by simp)
    refine hthread.modify ?_ ?_ ?_
    · intro _
      apply hspare np
      rcases hl with ⟨rfl, hcall⟩ | ⟨rfl, hcall⟩
      all_goals simp [Sys.givesBack, hc, show (s.thread p).call = _ from hcall, Call.pending]
    · intro _
      apply hblank
    · intro _
      apply hblank.2
  | @forkEnqueue np hcall =>
    refine (h.modify_same ?_ ?_ ?_).setThread_plain (Or.inr hp) rfl (by simp)
    · exact ⟨rfl, rfl, rfl, rfl⟩
    · simp
    · simp

theorem Clean.stepBoot (h : Clean s.view) (hinv : Inv s) (hstep : View.StepBoot s.view l v') :
  Clean v'
  := by
  cases hstep with
  | @alloc np hboot hnp =>
    refine (h.alloc hnp).setBoot ?_ (by simp)
    rintro x ⟨⟩
    rw [View.alloc_proc_self]
    apply h.blank np (Or.inl hnp)
  | @kalloc np hboot =>
    have hnp := hinv.embryo_of_boot hboot rfl
    apply (h.prepare hnp).setBoot
    · rintro x ⟨⟩
      rw [View.setCall_proc, View.modify_proc_self]
      apply h.blank np (Or.inr (Or.inl (by rw [hboot]; rfl)))
    · rintro x ⟨⟩
      rw [View.setCall, View.setThread_thread_self]
  | @setup np hboot root =>
    have hnp := hinv.embryo_of_boot hboot rfl
    have hboot' : Clean { s.view with boot := .filled np } := h.setBoot (by rintro _ ⟨⟩) (by simp)
    refine (hboot'.modify (p := np) (f := ({ · with sz := PGSIZE, cwd := some root }))
      ?_ ?_ ?_).of_eq rfl rfl rfl
    · intro hs
      cases hnp.symm.trans hs
    · rintro (hs | hs | ⟨p, hs⟩)
      · cases hnp.symm.trans hs
      · cases hs
      · cases hinv.owner (.proc p) .boot np (Call.pending_of_blank hs)
          (by rw [Sys.pending, show s.boot = _ from hboot]; rfl)
    · rintro (hs | hs)
      · cases hnp.symm.trans hs
      · cases (h.fresh np (Or.inl hboot)).symm.trans hs
  | @enqueue np hboot =>
    have hmod : Clean (s.view.modify np
        ({ · with state := .runnable, uid := DEFAULT_UID, gid := DEFAULT_GID })) :=
      h.modify_same ⟨rfl, rfl, rfl, rfl⟩ (by simp) (by simp)
    exact (hmod.setBoot (b := .done) (by rintro _ ⟨⟩) (by simp)).of_eq rfl rfl rfl

/-- A step keeps the slots clean if it gives back no slot that is marked as killed. -/
theorem Clean.step
    (h : Clean s.view) (hinv : Inv s) {d : Option Slot} (hstep : View.Step s.view l d v')
    (hspare : ∀ np, s.givesBack l = some np → (s.pt.proc np).killed = false) :
  Clean v'
  := by
  cases hstep with
  | tick => exact h.of_eq rfl rfl rfl
  | idle => apply h.promote
  | @dispatch c p _ hc hp hmax hres =>
    have hset := hinv.not_setUp_dispatch hp c
    have hdisp := h.promote.dispatch c p
    have htidy := hdisp.tidy hset (by rw [View.dispatch, View.setCpu, View.modify_proc_self]; rfl)
    rw [View.Resumed] at hres
    split at hres
    · apply htidy.waited _ hres
      rw [View.setUp_tidy]
      exact hset
    · rw [hres]
      apply htidy
  | wakeup chan => apply h.wake
  | killNone => apply h
  | @kill pid p hp hpid =>
    have hstate : ∀ st, st ≠ .runnable → (killed (s.view.proc p)).state = st →
        (s.view.proc p).state = st := by
      intro st hst hs
      simp only [killed] at hs
      split at hs
      · cases hst hs.symm
      · apply hs
    apply h.modify
    · intro hs
      cases hp (hstate _ (by simp) hs)
    · intro hs
      apply h.blank p (hs.imp_left (hstate _ (by simp)))
    · intro hs
      apply h.exited p (hs.imp_left (hstate _ (by simp)))
  | setpriorityNone => apply h
  | setpriority hvalid hp hpid =>
    apply h.modify_same
    · simp only [reprioritized]
      split <;> exact ⟨rfl, rfl, rfl, rfl⟩
    · rcases hp with hp | hp | hp <;> simp [hp]
    · rcases hp with hp | hp | hp <;> simp [hp]
  | boot hb => apply h.stepBoot hinv hb
  | on hc ho => apply h.stepOn hinv hc ho hspare

end

/-! ### Who sets the mark of kill -/

/-- No slot gets the mark of `kill`. -/
def Spares (v v' : View) : Prop :=
  ∀ x, (v'.proc x).killed = true → (v.proc x).killed = true

/-- No step but `kill` sets the mark. -/
theorem View.Step.spares
    {v v' : View} {l : Label} {d : Option Slot} (h : View.Step v l d v')
    (hl : ∀ pid, l ≠ .kill pid) :
  Spares v v'
  := by
  intro x hx
  have hedits := h.edits x
  generalize v'.proc x = y at hx hedits
  induction hedits with
  | refl => exact hx
  | tail _ he ih =>
    apply ih
    cases he with
    | promotion =>
      rw [promotion] at hx
      split at hx <;> exact hx
    | yield ticks | sleep ticks =>
      change (charge ticks _).killed = true at hx
      rw [(SameFiles.charge ticks _).killed] at hx
      exact hx
    | killed hk => cases hl _ hk
    | reprioritized =>
      rw [reprioritized] at hx
      split at hx <;> exact hx
    | reaped => cases hx
    | _ => exact hx

/-- A slot gets the mark of `kill` only from a call of `kill` with the pid in the slot. -/
theorem View.Step.killed
    {v v' : View} {l : Label} {d : Option Slot} (h : View.Step v l d v') {x : Slot}
    (hx : (v'.proc x).killed = true) :
  (v.proc x).killed = true ∨
    ∃ pid, l = .kill pid ∧ (v.proc x).state ≠ .unused ∧ (v.proc x).pid = pid.toUInt32
  := by
  by_cases hl : ∃ pid, l = .kill pid
  · obtain ⟨pid, rfl⟩ := hl
    cases h with
    | killNone => exact .inl hx
    | @kill _ p hp hpid =>
      rcases eq_or_ne x p with rfl | hne
      · exact .inr ⟨pid, rfl, hp, hpid⟩
      · rw [View.modify_proc_of_ne v _ hne] at hx
        exact .inl hx
    | boot hb => cases hb
    | on _ ho => cases ho.cpu
  · left
    apply h.spares _ x hx
    intro pid hpid
    exact hl ⟨pid, hpid⟩

/-! ### New processes -/

theorem clean_of_booted {s : Sys} (h : Booted s) :
  Clean s.view
  := by
  have hproc : ∀ x, s.view.proc x = zeroProc := h.proc_eq
  obtain ⟨-, -, hthread, -⟩ := h
  constructor
  · intro x _
    rw [hproc]
    rfl
  · intro x _
    rw [hproc]
    exact ⟨rfl, rfl, rfl⟩
  · intro x _
    rw [hproc]
    exact ⟨rfl, rfl⟩
  · intro np _
    rw [Sys.view, hthread]

/-- What is true of the slots when `fork` fails only for slots that `kill` spares. -/
structure KillInv (s : Sys) (asked : Slot → Bool) : Prop where
  clean : Clean s.view
  asked : ∀ x, (s.pt.proc x).killed = true → asked x = true

theorem KillInv.step
    {s s' : Sys} {asked : Slot → Bool} {l : Label} (h : KillInv s asked) (hinv : Inv s)
    (hspares : KillSpares (s, asked) l) (hstep : kernel.step s l = some (.ok s')) :
  KillInv s' (asksKill s l s' asked)
  := by
  have hview := hinv.view_step hstep
  constructor
  · apply h.clean.step hinv hview
    intro np hnp
    rw [← Bool.not_eq_true]
    intro hk
    cases (h.asked np hk).symm.trans (hspares np hnp)
  · intro x hx
    rcases hview.killed hx with hk | ⟨pid, rfl, hs, hpid⟩
    · have hused : (s.pt.proc x).state ≠ .unused := by
        intro hs
        cases hk.symm.trans (h.clean.free x hs)
      simp only [asksKill]
      split
      · rw [h.asked x hk, Bool.true_or]
      · rw [if_neg (fun hs => hused hs.1), h.asked x hk]
    · simp only [asksKill, Bool.or_eq_true, decide_eq_true_eq]
      right
      exact ⟨hs, hpid⟩

/-- In every run in which `fork` fails only for slots that `kill` has not been called for since
their allocation, every slot on the free list is clean, and a process is marked as killed only
if `kill` has been called with its pid since its allocation. -/
theorem new_process_clean
    {s : Sys} {asked : Slot → Bool} (h : killKernel.Reach KillSpares (s, asked)) :
  (∃ q, ListInvariant s.pt q ∧ ∀ x ∈ q (.list .unused), (s.pt.proc x).killed = false ∧
    (s.pt.proc x).parent = none ∧ (∀ i, (s.pt.proc x).ofile i = none) ∧
    (s.pt.proc x).cwd = none) ∧
  ∀ x, (s.pt.proc x).state ≠ .unused → (s.pt.proc x).killed = true → asked x = true
  := by
  have hkill : KillInv s asked := by
    apply h.observe_invariant (I := KillInv)
    · intro s hs
      refine ⟨clean_of_booted hs, ?_⟩
      intro x hx
      rw [hs.proc_eq] at hx
      cases hx
    · intro s asked l s' hs hI hok hstep
      apply hI.step (inv_of_reachable hs) hok hstep
  obtain ⟨q, hq⟩ := (inv_of_reachable h.observed).good
  refine ⟨⟨q, hq.listInvariant, ?_⟩, ?_⟩
  · intro x hx
    have hs := (hq.state_of_mem_list hx).1
    obtain ⟨hpar, hfiles, hcwd⟩ := hkill.clean.blank x (Or.inl hs)
    refine ⟨hkill.clean.free x hs, hpar, ?_, hcwd⟩
    intro i
    rw [show (s.pt.proc x).ofile = _ from hfiles]
  · intro x _ hk
    apply hkill.asked x hk

theorem killKernel_init :
  killKernel.init (firstSys, fun _ => false)
  := ⟨booted_firstSys, rfl⟩

/-- `init` forks; `kill` is called for the child, which then runs. -/
theorem new_process_clean_after_kill :
  ∃ s asked, killKernel.Reach KillSpares (s, asked) ∧
    (s.pt.proc 1).state = .running ∧ (s.pt.proc 1).killed = true ∧ asked 1 = true
  := by
  obtain ⟨⟨s, asked⟩, hs, -, hstate, hkilled⟩ := System.exists_of_run killKernel killKernel_init
    (forkRun ++ [.kill 2]) (fun x => (x.1.pt.proc 1).state = .running ∧
      (x.1.pt.proc 1).killed = true) (by decide +kernel)
  have hreach : killKernel.Reach KillSpares (s, asked) := by
    refine System.Reach.run (.init killKernel_init) ?_ hs
    intro l hl x np hnp
    simp only [forkRun, initRun, forkSteps, List.cons_append, List.nil_append, List.mem_cons,
      List.not_mem_nil, or_false] at hl
    rcases hl with rfl | rfl | rfl | rfl | rfl | rfl | rfl | rfl | rfl | rfl | rfl <;> cases hnp
  refine ⟨s, asked, hreach, hstate, hkilled, ?_⟩
  apply (new_process_clean hreach).2 1 _ hkilled
  simp only at hstate
  simp [hstate]

/-- A `fork` of `init` that fails after `kill` has been called for its slot. -/
def killedForkRun : List Label :=
  initRun ++ [.allocproc 0, .kill 2, .kalloc 0 false]

/-- Then the other free slots are taken and given back, and `fork` succeeds. -/
def nextForkRun : List Label :=
  killedForkRun ++ (List.replicate 62 [Label.allocproc 0, .kalloc 0 false]).flatten ++
    forkSteps

/-- `kill` is called for the slot that `init` prepares in `fork`, and then `kalloc` fails: the slot
goes back to the free list with the mark of `kill`.  The next process in the slot is marked from
the start, and `kill` has not been called for it. -/
theorem killed_slot_is_free :
  (∃ s asked, killKernel.Reachable (s, asked) ∧
    (s.pt.proc 1).state = .unused ∧ (s.pt.proc 1).killed = true) ∧
  ∃ s asked, killKernel.Reachable (s, asked) ∧
    (s.pt.proc 1).state = .runnable ∧ (s.pt.proc 1).killed = true ∧ asked 1 = false
  := by
  constructor
  · obtain ⟨⟨s, asked⟩, -, hreach, hx⟩ := System.exists_of_run killKernel killKernel_init
      killedForkRun (fun x => (x.1.pt.proc 1).state = .unused ∧ (x.1.pt.proc 1).killed = true)
      (by decide +kernel)
    exact ⟨s, asked, hreach, hx⟩
  · obtain ⟨⟨s, asked⟩, -, hreach, hx⟩ := System.exists_of_run killKernel killKernel_init
      nextForkRun
      (fun x => (x.1.pt.proc 1).state = .runnable ∧ (x.1.pt.proc 1).killed = true ∧ x.2 1 = false)
      (by decide +kernel)
    exact ⟨s, asked, hreach, hx⟩

end Xv6.Ptable
