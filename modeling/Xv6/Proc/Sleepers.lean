import Xv6.Proc.Reap

/-!
# Which steps put processes to sleep

A process falls asleep on a channel only by its own call of `sleep` with that channel, or in `wait`
on the address of its own slot.  Between its start and its `exit`, a process keeps its pid.
`Around` is the state of a system of which the kernel is a part.
-/

namespace Xv6.Ptable

section

variable {v v' : View} {l : Label} {d : Option Slot} {x : Slot}

/-- A slot that sleeps after a step slept on the same channel before. -/
def KeepsAsleep (v v' : View) (x : Slot) : Prop :=
  (v'.proc x).state = .sleeping → (v.proc x).state = .sleeping ∧ (v'.proc x).chan = (v.proc x).chan

/-- A slot that sleeps after a step slept on the same channel before, or it called `sleep` with
the channel, or it sleeps on its own slot. -/
theorem View.Step.keepsAsleep (h : View.Step v l d v') (x : Slot) :
  KeepsAsleep v v' x ∨ (v'.proc x).chan = .proc x ∨
    ∃ c, l = .sleep c (v'.proc x).chan ∧ v.cpu c = some x
  := by
  rw [KeepsAsleep, or_iff_not_imp_right]
  intro hno hs
  have hedits := h.edits x
  generalize v'.proc x = y at hno hs hedits ⊢
  induction hedits with
  | refl => exact ⟨hs, rfl⟩
  | @tail y _ _ he ih =>
    cases he with
    | promotion =>
      rw [promotion_state] at hs
      have hchan : (promotion y).chan = y.chan := by
        rw [promotion]
        split <;> rfl
      rw [hchan] at hno ⊢
      exact ih hno hs
    | sleep ticks chan hsleep =>
      refine absurd hsleep ?_
      simpa only [tallied, charge_chan] using hno
    | woken hst =>
      rcases hst with rfl | ⟨-, rfl⟩
      · exact ih hno hs
      · cases hs
    | killed =>
      simp only [Ptable.killed] at hs
      split at hs
      · cases hs
      · exact ih hno hs
    | reprioritized priority =>
      rw [reprioritized_state] at hs
      have hchan : (reprioritized priority y).chan = y.chan := by
        rw [reprioritized]
        split <;> rfl
      rw [hchan] at hno ⊢
      exact ih hno hs
    | exitClose | prepared | filled | setup => exact ih hno hs
    | _ => cases hs

/-- `wakeup` leaves nobody asleep on its channel. -/
theorem View.Step.not_asleep
    {chan : Chan} (h : View.Step v (.wakeup chan) d v') (hs : (v'.proc x).state = .sleeping) :
  (v'.proc x).chan ≠ chan
  := by
  have hview : v' = v.wake chan := by
    cases h with
    | wakeup => rfl
    | boot h => cases h
    | on _ h => cases h.cpu
  subst hview
  simp only [View.wake, woken] at hs ⊢
  split at hs
  · cases hs
  · rename_i hno
    rw [if_neg hno]
    exact fun hchan => hno ⟨hs, hchan⟩

end

/-- A step of the kernel puts to sleep on a channel only the process that calls `sleep` with it. -/
theorem Inv.asleep_of_step
    {s s' : Sys} {l : Label} {chan : Chan} {p : Slot} (h : Inv s)
    (hstep : kernel.step s l = some (.ok s')) (hchan : chan ≠ .proc p)
    (hl : ∀ c, l = .sleep c chan → s.cpu c ≠ some p)
    (hs : (s'.pt.proc p).state = .sleeping ∧ (s'.pt.proc p).chan = chan) :
  (s.pt.proc p).state = .sleeping ∧ (s.pt.proc p).chan = chan
  := by
  obtain ⟨hs, hchan'⟩ := hs
  rcases (h.view_step hstep).keepsAsleep p with hkeep | hself | ⟨c, hc, hcpu⟩
  · obtain ⟨hs₀, hchan₀⟩ := hkeep hs
    exact ⟨hs₀, hchan₀.symm.trans hchan'⟩
  · cases hchan (hchan'.symm.trans hself)
  · refine absurd hcpu (hl c ?_)
    rw [hc]
    exact congrArg _ hchan'

/-! ### Systems around the kernel -/

/-- The state of the kernel, where each process is in a piece of code, and the variables of that
code. -/
structure Around (Pc V : Type) where
  sys : Sys
  pc : Slot → Pc
  var : V

namespace Around

variable {Pc V : Type} (s : Around Pc V)

/-- The process `p` goes to `k`. -/
def goto (p : Slot) (k : Pc) : Around Pc V :=
  { s with pc := Function.update s.pc p k }

theorem goto_pc_self (p : Slot) (k : Pc) : (s.goto p k).pc p = k :=
  Function.update_self ..

theorem goto_pc_of_ne {p x : Slot} (k : Pc) (hx : x ≠ p) : (s.goto p k).pc x = s.pc x :=
  Function.update_of_ne hx ..

/-- A step of the kernel, followed by a change of the rest of the state. -/
def lift (l : Label) (f : Around Pc V → Around Pc V) : Option (Except Fault (Around Pc V)) :=
  (kernel.step s.sys l).map fun r => r.map fun sys => f { s with sys := sys }

variable {s}

/-- When every step is at most one step of the kernel, then the state of the kernel in a run is one
that the kernel reaches. -/
theorem sys_reachable
    {L : Type} {M : System (Around Pc V) L Fault} (hinit : ∀ s, M.init s → kernel.init s.sys)
    (hstep : ∀ s l s', M.step s l = some (.ok s') →
      s'.sys = s.sys ∨ ∃ l', kernel.step s.sys l' = some (.ok s'.sys)) (h : M.Reachable s) :
  kernel.Reachable s.sys
  := by
  induction h with
  | init h => exact .init (hinit _ h)
  | step _ _ h ih =>
    rcases hstep _ _ _ h with heq | ⟨l', hl'⟩
    · rw [heq]
      exact ih
    · exact ih.step trivial hl'

end Around

end Xv6.Ptable
