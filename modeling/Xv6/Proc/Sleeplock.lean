import Xv6.Proc.Sleepers

/-!
# Sleep locks

Processes call `acquiresleep` and `releasesleep` on one lock; a process calls `releasesleep` only
when its `acquiresleep` has returned.  The parts of the calls between two points where `sleep` gives
up the processor are steps of a system around the kernel, and `releasesleep` is two steps, before
and after its `wakeup`.  The rest of the kernel, with `kill`, other channels and preemption, takes
steps in between.
-/

namespace Xv6.Ptable.Sleeplock

open Function

/-- Where a process is in the code of the lock. -/
inductive Pc where
  /-- It neither holds the lock nor is in its code. -/
  | out
  /-- In `acquiresleep`, before a test of `locked`, or in `sleep` there; the flag tells whether an
  earlier `acquiresleep` of the process has returned. -/
  | loop (held : Bool)
  /-- Between the return of `acquiresleep` and `releasesleep`. -/
  | held
  /-- In `releasesleep`, before `wakeup(lk)`. -/
  | releasing
  deriving DecidableEq, Repr

namespace Pc

/-- An `acquiresleep` of the process has returned, and its `releasesleep` has not begun. -/
def holds : Pc → Bool
  | .held | .loop true => true
  | .out | .loop false | .releasing => false

/-- The steps that a process may make elsewhere: none with `lk->lk` held; only losing the processor
in `acquiresleep`; and no `exit` with the lock held.  Nobody else sleeps on the lock. -/
def allows (chan : Chan) : Pc → Label → Bool
  | .releasing, _ => false
  | .loop _, .yield _ => true
  | .loop _, _ => false
  | .held, .exit _ | .held, .exitClose _ => false
  | _, .sleep _ chan' => chan' ≠ chan
  | _, _ => true

end Pc

/-- The fields of the lock. -/
structure Lock where
  locked : Bool
  pid : Int32
  /-- The process that holds the spinlock `lk->lk` between two steps. -/
  lk : Option Slot

/-- The state of the kernel, the lock, and where each process is. -/
abbrev St : Type := Around Pc Lock

/-- The steps of the system. -/
inductive Step where
  /-- The process on `c` calls `acquiresleep`. -/
  | call (c : Cpu)
  /-- `acquiresleep` acquires `lk->lk`, at its start or in `sleep`, and tests `locked`.  It goes to
  sleep, or it takes the lock and returns. -/
  | test (c : Cpu)
  /-- `releasesleep` up to its `wakeup`. -/
  | release (c : Cpu)
  /-- `wakeup(lk)` and the rest of `releasesleep`. -/
  | wakeup (c : Cpu)
  /-- A step of the kernel elsewhere. -/
  | kernel (l : Label)
  deriving DecidableEq, Repr

namespace St

/-- `acquiresleep` takes the lock and returns. -/
abbrev take (s : St) (p : Slot) : St :=
  Around.goto
    { s with var := { s.var with locked := true, pid := (s.sys.pt.proc p).pid.toInt32 } } p .held

/-- `releasesleep` marks the lock as free. -/
abbrev release (s : St) (p : Slot) : St :=
  Around.goto { s with var := { locked := false, pid := 0, lk := some p } } p .releasing

/-- `releasesleep` ends. -/
abbrev finish (s : St) (p : Slot) : St :=
  Around.goto { s with var := { s.var with lk := none } } p .out

/-- The process whose step a label is may make it. -/
def allows (chan : Chan) (s : St) (l : Label) : Bool :=
  match l.cpu with
  | none => true
  | some c =>
      match s.sys.cpu c with
      | none => true
      | some p => (s.pc p).allows chan l

/-- One step of the process `p` on the processor `c`. -/
def stepOn (chan : Chan) (s : St) (c : Cpu) (p : Slot) : Step → Option (Except Fault St)
  | .call _ =>
      match s.pc p with
      | .out => some (.ok (s.goto p (.loop false)))
      | .held => some (.ok (s.goto p (.loop true)))
      | _ => none
  | .test _ =>
      match s.pc p with
      | .loop held =>
          if s.var.lk ≠ none then none
          else if s.var.locked then s.lift (.sleep c chan) (·.goto p (.loop held))
          else some (.ok (s.take p))
      | _ => none
  | .release _ =>
      match s.pc p with
      | .held =>
          if s.var.lk ≠ none then none
          else some (.ok (s.release p))
      | _ => none
  | .wakeup _ =>
      match s.pc p with
      | .releasing => s.lift (.wakeup chan) (St.finish · p)
      | _ => none
  | .kernel _ => none

/-- One step of the system. -/
def step (chan : Chan) (s : St) (l : Step) : Option (Except Fault St) :=
  match l with
  | .kernel l => if s.allows chan l then s.lift l id else none
  | .call c | .test c | .release c | .wakeup c =>
      match s.sys.cpu c with
      | none => none
      | some p => s.stepOn chan c p l

/-- `holdingsleep`, when it gets the spinlock `lk->lk`. -/
def holdingsleep (s : St) : Option Bool :=
  if s.var.lk ≠ none then none else some s.var.locked

end St

/-- The processes around a lock at an address, which `initsleeplock` has set up. -/
def system (address : Nat) : System St Step Fault where
  init s := kernel.init s.sys ∧ s.var = ⟨false, 0, none⟩ ∧ s.pc = fun _ => .out
  step := St.step (.other address)

/-! ### Steps -/

/-- What a step does. -/
inductive Moves (chan : Chan) (s : St) : Step → St → Prop where
  | call {c : Cpu} {p : Slot} (hc : s.sys.cpu c = some p) (held : Bool)
      (hpc : s.pc p = if held then .held else .out) :
      Moves chan s (.call c) (s.goto p (.loop held))
  | sleep {c : Cpu} {p : Slot} {sys : Sys} (hc : s.sys.cpu c = some p) {held : Bool}
      (hpc : s.pc p = .loop held) (hlocked : s.var.locked = true)
      (hstep : kernel.step s.sys (.sleep c chan) = some (.ok sys)) :
      Moves chan s (.test c) ({ s with sys := sys }.goto p (.loop held))
  | take {c : Cpu} {p : Slot} (hc : s.sys.cpu c = some p) {held : Bool}
      (hpc : s.pc p = .loop held) (hlk : s.var.lk = none) (hlocked : s.var.locked = false) :
      Moves chan s (.test c) (s.take p)
  | release {c : Cpu} {p : Slot} (hc : s.sys.cpu c = some p) (hpc : s.pc p = .held)
      (hlk : s.var.lk = none) :
      Moves chan s (.release c) (s.release p)
  | wakeup {c : Cpu} {p : Slot} {sys : Sys} (hc : s.sys.cpu c = some p)
      (hpc : s.pc p = .releasing)
      (hstep : kernel.step s.sys (.wakeup chan) = some (.ok sys)) :
      Moves chan s (.wakeup c) (St.finish { s with sys := sys } p)
  | kernel {l : Label} {sys : Sys} (hl : s.allows chan l = true)
      (hstep : kernel.step s.sys l = some (.ok sys)) :
      Moves chan s (.kernel l) { s with sys := sys }

theorem moves_of_stepOn
    {chan : Chan} {s s' : St} {c : Cpu} {p : Slot} {l : Step} (hc : s.sys.cpu c = some p)
    (h : s.stepOn chan c p l = some (.ok s'))
    (hl : l = .call c ∨ l = .test c ∨ l = .release c ∨ l = .wakeup c) :
  Moves chan s l s'
  := by
  revert h
  -- in the other branches the step is not enabled
  fun_cases St.stepOn chan s c p l <;> intro h <;> try (cases h; done)
  all_goals
    simp only [Step.call.injEq, Step.test.injEq, Step.release.injEq, Step.wakeup.injEq,
      reduceCtorEq, or_false, false_or] at hl
    subst hl
  · cases h
    exact .call hc false ‹_›
  · cases h
    exact .call hc true ‹_›
  · obtain ⟨sys, hstep, rfl⟩ := System.ok_of_map h
    exact .sleep hc ‹_› ‹_› hstep
  · cases h
    exact .take hc ‹_› (not_not.mp ‹_›) (Bool.eq_false_of_not_eq_true ‹_›)
  · cases h
    exact .release hc ‹_› (not_not.mp ‹_›)
  · obtain ⟨sys, hstep, rfl⟩ := System.ok_of_map h
    exact .wakeup hc ‹_› hstep

theorem moves_of_step
    {address : Nat} {s s' : St} {l : Step} (h : (system address).step s l = some (.ok s')) :
  Moves (.other address) s l s'
  := by
  cases l with
  | kernel l =>
    simp only [system, St.step] at h
    split at h
    · rename_i hl
      obtain ⟨sys, hstep, rfl⟩ := System.ok_of_map h
      exact .kernel hl hstep
    · cases h
  | call c | test c | release c | wakeup c =>
    simp only [system, St.step] at h
    split at h
    · cases h
    · apply moves_of_stepOn ‹_› h
      simp

theorem sys_reachable {address : Nat} {s : St} (h : (system address).Reachable s) :
  kernel.Reachable s.sys
  := by
  refine Around.sys_reachable (M := system address) (fun _ h => h.1) (fun _ _ _ hstep => ?_) h
  cases moves_of_step hstep with
  | call | take | release => exact .inl rfl
  | sleep _ _ _ hl | wakeup _ _ hl | kernel _ hl => exact .inr ⟨_, hl⟩

/-! ### The lock -/

/-- The fields of the lock agree with where the processes are. -/
structure Exclusive (chan : Chan) (s : St) : Prop where
  unique : ∀ p q, (s.pc p).holds → (s.pc q).holds → p = q
  locked : s.var.locked = true ↔ ∃ p, (s.pc p).holds
  pid : ∀ p, (s.pc p).holds → s.var.pid = (s.sys.pt.proc p).pid.toInt32
  active : ∀ p, s.pc p ≠ .out → Active (s.sys.pt.proc p).state
  lk : ∀ p, s.pc p = .releasing ↔ s.var.lk = some p
  asleep : ∀ p, (s.sys.pt.proc p).state = .sleeping ∧ (s.sys.pt.proc p).chan = chan →
    s.var.locked = true ∨ s.var.lk ≠ none

theorem Pc.ne_out_of_holds {k : Pc} (h : k.holds) : k ≠ .out := by
  rintro rfl
  cases h

namespace Exclusive

variable {chan : Chan} {s s' : St} {p : Slot}

section

variable (h : Exclusive chan s)

include h

/-- A step of the kernel, apart from who sleeps. -/
theorem sys_step
    {l : Label} {sys : Sys} (hinv : Inv s.sys)
    (hstep : kernel.step s.sys l = some (.ok sys))
    (hexit : ∀ c p, l = .exit c → s.sys.cpu c = some p → s.pc p = .out)
    (hasleep : ∀ p, (sys.pt.proc p).state = .sleeping ∧ (sys.pt.proc p).chan = chan →
      s.var.locked = true ∨ s.var.lk ≠ none) :
  Exclusive chan { s with sys := sys }
  := by
  have hkeep : ∀ p, s.pc p ≠ .out →
      Active (sys.pt.proc p).state ∧ (sys.pt.proc p).pid = (s.sys.pt.proc p).pid := by
    intro p hp
    have hactive : Active (s.sys.view.proc p).state := h.active p hp
    rcases turns_of_step hinv (hinv.view_step hstep) p with
      hstay | ⟨hs, -⟩ | ⟨hs, -⟩ | ⟨hs, -⟩ | ⟨c, hl, hc, -⟩ | ⟨_, -, hs, -⟩
    · refine ⟨?_, hstay.pid⟩
      rw [active_iff_stage] at hactive ⊢
      exact hstay.stage.trans hactive
    · simp [Active, hs] at hactive
    · simp [Active, hs] at hactive
    · simp [Active, hs] at hactive
    · cases hp (hexit c p hl hc)
    · simp [Active, hs] at hactive
  refine ⟨h.unique, h.locked, ?_, fun p hp => (hkeep p hp).1, h.lk, hasleep⟩
  intro p hp
  rw [h.pid p hp]
  exact congrArg _ (hkeep p (Pc.ne_out_of_holds hp)).2.symm

/-- A process goes on without taking or releasing the lock. -/
theorem goto
    {k : Pc} (hp : Active (s.sys.pt.proc p).state) (hk : k.holds = (s.pc p).holds)
    (hne : s.pc p ≠ .releasing) (hne' : k ≠ .releasing) :
  Exclusive chan (s.goto p k)
  := by
  have hholds : ∀ x, ((s.goto p k).pc x).holds = (s.pc x).holds := by
    intro x
    rcases eq_or_ne x p with rfl | hx
    · rw [Around.goto_pc_self, hk]
    · rw [s.goto_pc_of_ne k hx]
  constructor
  · intro x y
    rw [hholds, hholds]
    exact h.unique x y
  · simp only [hholds]
    exact h.locked
  · intro x
    rw [hholds]
    exact h.pid x
  · intro x
    rcases eq_or_ne x p with rfl | hx
    · exact fun _ => hp
    · rw [s.goto_pc_of_ne k hx]
      exact h.active x
  · intro x
    rcases eq_or_ne x p with rfl | hx
    · rw [Around.goto_pc_self]
      exact ⟨fun hr => absurd hr hne', fun hr => absurd ((h.lk x).mpr hr) hne⟩
    · rw [s.goto_pc_of_ne k hx]
      exact h.lk x
  · exact h.asleep

/-- `acquiresleep` finds the lock free and takes it. -/
theorem take
    (hp : Active (s.sys.pt.proc p).state) (hlk : s.var.lk = none) (hlocked : s.var.locked = false) :
  Exclusive chan (s.take p)
  := by
  have hother : ∀ x, (update s.pc p .held x).holds → x = p := by
    intro x hx
    by_contra hne
    rw [update_of_ne hne] at hx
    cases hlocked.symm.trans (h.locked.mpr ⟨x, hx⟩)
  have hself : (update s.pc p .held p).holds := by
    rw [update_self]
    rfl
  constructor
  · intro x y hx hy
    rw [hother x hx, hother y hy]
  · exact ⟨fun _ => ⟨p, hself⟩, fun _ => rfl⟩
  · intro x hx
    rw [hother x hx]
    rfl
  · intro x hx
    rcases eq_or_ne x p with rfl | hne
    · exact hp
    · rw [Around.goto_pc_of_ne _ _ hne] at hx
      exact h.active x hx
  · intro x
    have hnone : s.var.lk ≠ some x := by
      rw [hlk]
      simp
    refine ⟨fun hx => absurd hx ?_, fun hx => absurd hx hnone⟩
    rcases eq_or_ne x p with rfl | hne
    · rw [Around.goto_pc_self]
      simp
    · rw [Around.goto_pc_of_ne _ _ hne]
      exact mt (h.lk x).mp hnone
  · exact fun _ _ => .inl rfl

/-- `releasesleep` marks the lock as free. -/
theorem release (hpc : s.pc p = .held) (hlk : s.var.lk = none) :
  Exclusive chan (s.release p)
  := by
  have hnot : ∀ x, (update s.pc p .releasing x).holds = false := by
    intro x
    by_contra hx
    rcases eq_or_ne x p with rfl | hne
    · rw [update_self] at hx
      exact hx rfl
    · rw [update_of_ne hne] at hx
      apply hne
      apply h.unique x p (Bool.eq_true_of_not_eq_false hx)
      rw [hpc]
      rfl
  constructor
  · intro x y hx
    cases (hnot x).symm.trans hx
  · refine ⟨by rintro ⟨⟩, ?_⟩
    rintro ⟨x, hx⟩
    cases (hnot x).symm.trans hx
  · intro x hx
    cases (hnot x).symm.trans hx
  · intro x hx
    rcases eq_or_ne x p with rfl | hne
    · apply h.active
      rw [hpc]
      simp
    · rw [Around.goto_pc_of_ne _ _ hne] at hx
      exact h.active x hx
  · intro x
    rcases eq_or_ne x p with rfl | hne
    · rw [Around.goto_pc_self]
      exact ⟨fun _ => rfl, fun _ => rfl⟩
    · rw [Around.goto_pc_of_ne _ _ hne]
      refine ⟨fun hx => ?_, fun hx => absurd (Option.some.inj hx).symm hne⟩
      cases hlk.symm.trans ((h.lk x).mp hx)
  · exact fun _ _ => .inr (Option.some_ne_none p)

/-- `releasesleep` ends, with nobody asleep. -/
theorem wakeup
    (hpc : s.pc p = .releasing)
    (hasleep : ∀ x, ¬ ((s.sys.pt.proc x).state = .sleeping ∧ (s.sys.pt.proc x).chan = chan)) :
  Exclusive chan (s.finish p)
  := by
  have hlk : s.var.lk = some p := (h.lk p).mp hpc
  have hholds : ∀ x, (update s.pc p .out x).holds = (s.pc x).holds := by
    intro x
    rcases eq_or_ne x p with rfl | hne
    · rw [update_self, hpc]
      rfl
    · rw [update_of_ne hne]
  constructor
  · intro x y hx hy
    exact h.unique x y ((hholds x).symm.trans hx) ((hholds y).symm.trans hy)
  · rw [show (s.finish p).var.locked = s.var.locked from rfl, h.locked]
    simp only [Around.goto, hholds]
  · intro x hx
    exact h.pid x ((hholds x).symm.trans hx)
  · intro x hx
    apply h.active
    intro hout
    apply hx
    rcases eq_or_ne x p with rfl | hne
    · apply Around.goto_pc_self
    · exact (Around.goto_pc_of_ne _ _ hne).trans hout
  · intro x
    refine ⟨fun hx => absurd hx ?_, nofun⟩
    rcases eq_or_ne x p with rfl | hne
    · rw [Around.goto_pc_self]
      simp
    · rw [Around.goto_pc_of_ne _ _ hne]
      change ¬ s.pc x = .releasing
      rw [h.lk, hlk]
      exact fun heq => hne (Option.some.inj heq).symm
  · exact fun x hx => absurd hx (hasleep x)

end

/-- Every step keeps the fields of the lock in agreement. -/
theorem step
    {address : Nat} {l : Step} (h : Exclusive (.other address) s) (hinv : Inv s.sys)
    (hmoves : Moves (.other address) s l s') :
  Exclusive (.other address) s'
  := by
  have hactive : ∀ c p, s.sys.cpu c = some p → Active (s.sys.pt.proc p).state := by
    intro c p hc
    simp [Active, hinv.running c p hc]
  cases hmoves with
  | @call c p hc held hpc =>
    apply h.goto (hactive c p hc)
    · rw [hpc]
      cases held <;> rfl
    · rw [hpc]
      cases held <;> simp
    · simp
  | @sleep c p sys hc held hpc hlocked hstep =>
    have hsys := h.sys_step hinv hstep (by simp) (fun _ _ => .inl hlocked)
    have hne : s.pc p ≠ .out := by
      rw [hpc]
      simp
    apply hsys.goto (hsys.active p hne)
    · exact congrArg _ hpc.symm
    · rw [show ({ s with sys := sys } : St).pc p = .loop held from hpc]
      simp
    · simp
  | @take c p hc held hpc hlk hlocked => exact h.take (hactive c p hc) hlk hlocked
  | release hc hpc hlk => exact h.release hpc hlk
  | @wakeup c p sys hc hpc hstep =>
    have hnot : ∀ x, ¬ ((sys.pt.proc x).state = .sleeping ∧
        (sys.pt.proc x).chan = .other address) := by
      rintro x ⟨hs, hchan⟩
      exact (hinv.view_step hstep).not_asleep hs hchan
    exact (h.sys_step hinv hstep (by simp) (fun x hx => absurd hx (hnot x))).wakeup hpc hnot
  | @kernel l sys hl hstep =>
    apply h.sys_step hinv hstep
    · -- a process exits only outside the code of the lock
      rintro c p rfl hc
      simp only [St.allows, Label.cpu, hc] at hl
      cases hpc : s.pc p <;> simp_all [Pc.allows]
    · intro p hs
      apply h.asleep p
      refine hinv.asleep_of_step hstep (by simp) ?_ hs
      rintro c rfl hc
      simp only [St.allows, Label.cpu, hc] at hl
      cases hpc : s.pc p <;> simp_all [Pc.allows]

end Exclusive

theorem exclusive_of_reachable {address : Nat} {s : St} (h : (system address).Reachable s) :
  Exclusive (.other address) s
  := by
  induction h with
  | @init s h =>
    obtain ⟨hboot, hvar, hpc⟩ := h
    constructor
    · intro p q hp
      rw [hpc] at hp
      cases hp
    · rw [hvar, hpc]
      exact ⟨by simp, by simp [Pc.holds]⟩
    · intro p hp
      rw [hpc] at hp
      cases hp
    · intro p hp
      rw [hpc] at hp
      cases hp rfl
    · intro p
      rw [hvar, hpc]
      exact ⟨by simp, by simp⟩
    · rintro p ⟨hs, -⟩
      rw [Booted.proc_eq hboot] at hs
      cases hs
  | step hreach _ hstep ih =>
    exact ih.step (inv_of_reachable (sys_reachable hreach)) (moves_of_step hstep)

/-- At most one process is between its `acquiresleep` and its `releasesleep`; `locked` tells whether
there is one, and `pid` which; and nobody sleeps on a lock that is free when no `releasesleep` is on
its way. -/
theorem sleeplock_exclusive {address : Nat} {s : St} (h : (system address).Reachable s) :
  (∀ p q, (s.pc p).holds → (s.pc q).holds → p = q) ∧
  (s.var.locked = true ↔ ∃ p, (s.pc p).holds) ∧
  (∀ p, (s.pc p).holds → s.var.pid = (s.sys.pt.proc p).pid.toInt32) ∧
  (s.var.locked = false → (∀ p, s.pc p ≠ .releasing) →
    ∀ p, ¬ ((s.sys.pt.proc p).state = .sleeping ∧ (s.sys.pt.proc p).chan = .other address))
  := by
  have hex := exclusive_of_reachable h
  refine ⟨hex.unique, hex.locked, hex.pid, ?_⟩
  intro hlocked hrel p hs
  rcases hex.asleep p hs with hl | hlk
  · cases hlocked.symm.trans hl
  · obtain ⟨q, hq⟩ := Option.ne_none_iff_exists'.mp hlk
    exact hrel q ((hex.lk q).mpr hq)

/-- An initial state of the system. -/
def firstSt : St where
  sys := firstSys
  pc _ := .out
  var := ⟨false, 0, none⟩

/-- `init` takes a lock, its child waits for it, and `init` releases it. -/
theorem sleeplock_exclusive_child :
  ∃ s, (system 0).Reachable s ∧ s.pc 0 = .releasing ∧
    ((s.sys.pt.proc 1).state = .sleeping ∧ (s.sys.pt.proc 1).chan = .other 0) ∧
    (s.var.locked = true ↔ ∃ p, (s.pc p).holds)
  := by
  obtain ⟨s, -, hreach, hpc, hs⟩ := System.exists_of_run (system 0)
    (show (system 0).init firstSt from ⟨booted_firstSys, rfl, rfl⟩)
    (forkRun.map .kernel ++ [.call 0, .test 0, .call 1, .test 1, .release 0])
    (fun s => s.pc 0 = .releasing ∧
      (s.sys.pt.proc 1).state = .sleeping ∧ (s.sys.pt.proc 1).chan = .other 0) (by decide +kernel)
  exact ⟨s, hreach, hpc, hs, (sleeplock_exclusive hreach).2.1⟩

/-- A call of `holdingsleep` tells whether its caller holds the lock if and only if no other process
holds it. -/
theorem holdingsleep_identifies_iff
    {address : Nat} {s : St} (h : (system address).Reachable s) {r : Bool}
    (hr : s.holdingsleep = some r) (p : Slot) :
  (r = true ↔ (s.pc p).holds) ↔ ∀ q, q ≠ p → ¬ (s.pc q).holds
  := by
  have hex := exclusive_of_reachable h
  have hlocked : r = true ↔ ∃ q, (s.pc q).holds := by
    rw [St.holdingsleep] at hr
    split at hr
    · cases hr
    · cases hr
      exact hex.locked
  constructor
  · intro hiff q hne hq
    apply hne
    apply hex.unique q p hq
    exact hiff.mp (hlocked.mpr ⟨q, hq⟩)
  · intro hothers
    rw [hlocked]
    constructor
    · rintro ⟨q, hq⟩
      rcases eq_or_ne q p with rfl | hne
      · exact hq
      · exact absurd hq (hothers q hne)
    · exact fun hp => ⟨p, hp⟩

/-- `init` holds the lock. -/
theorem holdingsleep_identifies_init :
  ∃ s, (system 0).Reachable s ∧ s.holdingsleep = some true ∧
    ((true = true ↔ (s.pc 0).holds) ↔ ∀ q, q ≠ 0 → ¬ (s.pc q).holds)
  := by
  obtain ⟨s, -, hreach, hr⟩ := System.exists_of_run (system 0)
    (show (system 0).init firstSt from ⟨booted_firstSys, rfl, rfl⟩)
    (initRun.map .kernel ++ [.call 0, .test 0]) (fun s => s.holdingsleep = some true)
    (by decide +kernel)
  exact ⟨s, hreach, hr, holdingsleep_identifies_iff hreach hr 0⟩

/-- `init` holds the lock, and `holdingsleep` of its child, which never called `acquiresleep`,
returns `1`. -/
theorem holdingsleep_of_other :
  ∃ s, (system 0).Reachable s ∧ s.sys.cpu 1 = some 1 ∧ s.holdingsleep = some true ∧
    s.pc 1 = .out ∧ s.pc 0 = .held
  := by
  obtain ⟨s, -, hreach, hs⟩ := System.exists_of_run (system 0)
    (show (system 0).init firstSt from ⟨booted_firstSys, rfl, rfl⟩)
    (forkRun.map .kernel ++ [.call 0, .test 0])
    (fun s => s.sys.cpu 1 = some 1 ∧ s.holdingsleep = some true ∧ s.pc 1 = .out ∧ s.pc 0 = .held)
    (by decide +kernel)
  exact ⟨s, hreach, hs⟩

end Xv6.Ptable.Sleeplock
