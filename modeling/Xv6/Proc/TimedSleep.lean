import Xv6.Proc.Period
import Xv6.Proc.Sleepers

/-!
# `sys_sleep` and the timer interrupt

`sys_sleep(n)` reads `ticks`, and as long as fewer than `n` ticks have gone by it calls
`sleep(&ticks, 0)`, with no lock that orders its comparison and the `wakeup` of the timer
interrupt.  The steps of `sys_sleep` and of the interrupt are steps of a system around the kernel.
A history variable tells when the interrupt that ends the sleep of a process has finished.
-/

namespace Xv6.Ptable.TimedSleep

/-- The address of `ticks`. -/
def ticksChan : Chan := .other 0

/-- Where a process is in `sys_sleep`, with its `ticks0` and `n`. -/
inductive Pc where
  /-- Outside of `sys_sleep`. -/
  | out
  /-- Before the comparison, or in `sleep` after it gave up the processor. -/
  | test (ticks0 n : UInt32)
  /-- After the comparison, before the test of `killed`. -/
  | check (ticks0 n : UInt32)
  /-- In `sleep`, before `acquire(&ptable.lock)`. -/
  | enter (ticks0 n : UInt32)
  deriving DecidableEq, Repr

namespace Pc

/-- `ticks0` and `n` of a call. -/
def args : Pc → Option (UInt32 × UInt32)
  | .out => none
  | .test ticks0 n | .check ticks0 n | .enter ticks0 n => some (ticks0, n)

/-- The process is between its comparison and the critical section of `sleep`. -/
def between : Pc → Bool
  | .check _ _ | .enter _ _ => true
  | .out | .test _ _ => false

end Pc

/-- The state of the kernel, where each process is in `sys_sleep`, and whether the timer interrupt
has counted a tick and not called `wakeup` yet. -/
abbrev St : Type := Around Pc Bool

/-- The steps of the system. -/
inductive Step where
  /-- The process on `c` calls `sys_sleep(n)` and reads `ticks`. -/
  | start (c : Cpu) (n : UInt32)
  /-- The comparison. -/
  | test (c : Cpu)
  /-- The test of `killed`. -/
  | check (c : Cpu)
  /-- The critical section of `sleep(&ticks, 0)`. -/
  | enter (c : Cpu)
  /-- The timer interrupt increments `ticks`. -/
  | tick
  /-- The timer interrupt calls `wakeup(&ticks)`. -/
  | wake
  /-- A step of the kernel elsewhere. -/
  | kernel (l : Label)
  deriving DecidableEq, Repr

namespace St

/-- A process in `sys_sleep` makes no steps elsewhere, except that it may lose the processor. -/
def allows (s : St) (l : Label) : Bool :=
  match l.cpu with
  | none => l ≠ .tick
  | some c =>
      match s.sys.cpu c with
      | none => true
      | some p => s.pc p = .out ∨ l = .yield c

/-- One step of the system. -/
def step (s : St) : Step → Option (Except Fault St)
  | .start c n =>
      match s.sys.cpu c with
      | none => none
      | some p =>
          if s.pc p = .out ∧ (s.sys.thread p).call = .user then
            some (.ok (s.goto p (.test s.sys.pt.ticks n)))
          else none
  | .test c =>
      match s.sys.cpu c with
      | none => none
      | some p =>
          match s.pc p with
          | .test ticks0 n =>
              some (.ok (s.goto p (if s.sys.pt.ticks - ticks0 < n then .check ticks0 n else .out)))
          | _ => none
  | .check c =>
      match s.sys.cpu c with
      | none => none
      | some p =>
          match s.pc p with
          | .check ticks0 n =>
              some (.ok (s.goto p (if (s.sys.pt.proc p).killed then .out else .enter ticks0 n)))
          | _ => none
  | .enter c =>
      match s.sys.cpu c with
      | none => none
      | some p =>
          match s.pc p with
          | .enter ticks0 n => s.lift (.sleep c ticksChan) (·.goto p (.test ticks0 n))
          | _ => none
  | .tick => if s.var then none else s.lift .tick ({ · with var := true })
  | .wake => if s.var then s.lift (.wakeup ticksChan) ({ · with var := false }) else none
  | .kernel l => if s.allows l then s.lift l id else none

end St

/-- The processes in `sys_sleep`, the timer interrupt and the rest of the kernel. -/
def system : System St Step Fault where
  init s := kernel.init s.sys ∧ s.pc = (fun _ => .out) ∧ s.var = false
  step := St.step

/-! ### Steps -/

/-- What a step does. -/
inductive Moves (s : St) : Step → St → Prop where
  | start {c : Cpu} {p : Slot} (n : UInt32) (hc : s.sys.cpu c = some p) (hpc : s.pc p = .out) :
      Moves s (.start c n) (s.goto p (.test s.sys.pt.ticks n))
  | goOn {c : Cpu} {p : Slot} {ticks0 n : UInt32} (hpc : s.pc p = .test ticks0 n)
      (hlt : s.sys.pt.ticks - ticks0 < n) : Moves s (.test c) (s.goto p (.check ticks0 n))
  | leave {l : Step} {p : Slot} (hl : ∀ c n, l ≠ .start c n) (hl' : l ≠ .tick ∧ l ≠ .wake) :
      Moves s l (s.goto p .out)
  | check {c : Cpu} {p : Slot} {ticks0 n : UInt32} (hpc : s.pc p = .check ticks0 n) :
      Moves s (.check c) (s.goto p (.enter ticks0 n))
  | enter {c : Cpu} {p : Slot} {ticks0 n : UInt32} {sys : Sys} (hc : s.sys.cpu c = some p)
      (hpc : s.pc p = .enter ticks0 n)
      (hstep : kernel.step s.sys (.sleep c ticksChan) = some (.ok sys)) :
      Moves s (.enter c) ({ s with sys := sys }.goto p (.test ticks0 n))
  | tick {sys : Sys} (hstep : kernel.step s.sys .tick = some (.ok sys)) :
      Moves s .tick { s with sys := sys, var := true }
  | wake {sys : Sys} (hstep : kernel.step s.sys (.wakeup ticksChan) = some (.ok sys)) :
      Moves s .wake { s with sys := sys, var := false }
  | kernel {l : Label} {sys : Sys} (hl : s.allows l = true)
      (hstep : kernel.step s.sys l = some (.ok sys)) : Moves s (.kernel l) { s with sys := sys }

theorem moves_of_step {s s' : St} {l : Step} (h : system.step s l = some (.ok s')) :
  Moves s l s'
  := by
  change s.step l = _ at h
  revert h
  -- in the other branches the step is not enabled
  fun_cases St.step s l <;> intro h <;> try (cases h; done)
  case case2 hc hpc =>
    cases h
    exact .start _ hc hpc.1
  case case5 hpc =>
    cases h
    split
    · exact .goOn hpc ‹_›
    · exact .leave nofun ⟨nofun, nofun⟩
  case case8 hpc =>
    cases h
    split
    · exact .leave nofun ⟨nofun, nofun⟩
    · exact .check hpc
  all_goals obtain ⟨sys, hstep, rfl⟩ := System.ok_of_map h
  · exact .enter ‹_› ‹_› hstep
  · exact .tick hstep
  · exact .wake hstep
  · exact .kernel ‹_› hstep

theorem sys_reachable {s : St} (h : system.Reachable s) :
  kernel.Reachable s.sys
  := by
  refine Around.sys_reachable (M := system) (fun _ h => h.1) (fun _ _ _ hstep => ?_) h
  cases moves_of_step hstep with
  | start | goOn | leave | check => exact .inl rfl
  | enter _ _ hl | tick hl | wake hl | kernel _ hl => exact .inr ⟨_, hl⟩

/-! ### The interrupt that ends a sleep -/

/-- What has become of the timer interrupt that makes `ticks - ticks0` equal to `n`. -/
inductive Alarm where
  | waiting
  /-- It has incremented `ticks`. -/
  | struck
  /-- Its `wakeup` has finished. -/
  | finished
  deriving DecidableEq, Repr

/-- The interrupts that end the sleeps, after a step. -/
def watch (s : St) (l : Step) (_ : St) (alarm : Slot → Alarm) (p : Slot) : Alarm :=
  match l with
  | .start c _ => if s.sys.cpu c = some p then .waiting else alarm p
  | .tick =>
      match (s.pc p).args with
      | none => alarm p
      | some (ticks0, n) =>
          if alarm p = .waiting ∧ s.sys.pt.ticks + 1 - ticks0 = n then .struck else alarm p
  | .wake => if alarm p = .struck then .finished else alarm p
  | _ => alarm p

/-- The system with the interrupts that end the sleeps. -/
def watched : System (St × (Slot → Alarm)) Step Fault :=
  system.observe (fun _ _ => .waiting) watch

/-- The tick that makes `ticks - ticks0` equal to `n` does not come while the process is between its
comparison and the critical section of `sleep`, and no tick comes when a call of `sys_sleep` has
lasted `2³² - 1` ticks. -/
def TickInOrder (x : St × (Slot → Alarm)) : Step → Prop
  | .tick => ∀ p, ∀ a ∈ (x.1.pc p).args,
      ((x.1.pc p).between → x.1.sys.pt.ticks + 1 - a.1 ≠ a.2) ∧
        x.1.sys.pt.ticks - a.1 ≠ 0xffffffff
  | _ => True

instance (x : St × (Slot → Alarm)) (l : Step) : Decidable (TickInOrder x l) :=
  match l with
  -- not by trying all pairs of words
  | .tick => @Nat.decidableForallFin _ _ fun _ => Option.decidableForallMem _
  | .start _ _ | .test _ | .check _ | .enter _ | .wake | .kernel _ => .isTrue trivial

/-- The process sleeps on the address of `ticks`. -/
def St.Asleep (s : St) (p : Slot) : Prop :=
  (s.sys.pt.proc p).state = .sleeping ∧ (s.sys.pt.proc p).chan = ticksChan

/-- A process that has compared and found too few ticks is right, unless the interrupt that ends
its sleep is on its way; and when that interrupt has come, there are enough ticks. -/
structure InTime (s : St) (alarm : Slot → Alarm) (p : Slot) (ticks0 n : UInt32) : Prop where
  between : (s.pc p).between → s.sys.pt.ticks - ticks0 < n
  asleep : s.Asleep p → s.sys.pt.ticks - ticks0 < n ∨ alarm p = .struck
  due : alarm p ≠ .waiting → n ≤ s.sys.pt.ticks - ticks0

/-- All processes in `sys_sleep` are in time. -/
def AllInTime (s : St) (alarm : Slot → Alarm) : Prop :=
  ∀ p ticks0 n, (s.pc p).args = some (ticks0, n) → InTime s alarm p ticks0 n

section

variable {s s' : St} {alarm alarm' : Slot → Alarm} {p : Slot} {ticks0 n : UInt32}

/-- A step that does not concern the process. -/
theorem InTime.frame
    (h : InTime s alarm p ticks0 n) (hpc : s'.pc p = s.pc p)
    (hticks : s'.sys.pt.ticks = s.sys.pt.ticks) (hasleep : s'.Asleep p → s.Asleep p)
    (halarm : alarm' p = alarm p) :
  InTime s' alarm' p ticks0 n
  := by
  constructor
  · intro hb
    rw [hpc] at hb
    rw [hticks]
    exact h.between hb
  · intro hs
    rw [hticks, halarm]
    exact h.asleep (hasleep hs)
  · intro hd
    rw [halarm] at hd
    rw [hticks]
    exact h.due hd

theorem watch_tick (ha : (s.pc p).args = some (ticks0, n)) :
  watch s .tick s' alarm p =
    if alarm p = .waiting ∧ s.sys.pt.ticks + 1 - ticks0 = n then .struck else alarm p
  := by
  unfold watch
  rw [ha]

/-- The timer interrupt counts a tick. -/
theorem InTime.tick
    {s₁ : St} (h : InTime s alarm p ticks0 n) (ha : (s.pc p).args = some (ticks0, n))
    (hok : TickInOrder (s, alarm) .tick) (hpc : s'.pc p = s.pc p)
    (hticks : s'.sys.pt.ticks = s.sys.pt.ticks + 1) (hasleep : s'.Asleep p → s.Asleep p) :
  InTime s' (watch s .tick s₁ alarm) p ticks0 n
  := by
  have hnew : s'.sys.pt.ticks - ticks0 = s.sys.pt.ticks - ticks0 + 1 := by
    grind
  constructor
  · intro hb
    rw [hpc] at hb
    have hlt := h.between hb
    have hne := (hok p (ticks0, n) ha).1 hb
    grind
  · intro hs
    rw [hnew, watch_tick ha]
    by_cases hcomes : alarm p = .waiting ∧ s.sys.pt.ticks + 1 - ticks0 = n
    · right
      rw [if_pos hcomes]
    · rw [if_neg hcomes]
      rcases h.asleep (hasleep hs) with hlt | hstruck
      · left
        have hwait : alarm p = .waiting := by
          by_contra hne
          have := h.due hne
          grind
        have hne : s.sys.pt.ticks + 1 - ticks0 ≠ n := fun heq => hcomes ⟨hwait, heq⟩
        grind
      · exact .inr hstruck
  · intro hd
    rw [hnew]
    rw [watch_tick ha] at hd
    by_cases hcomes : alarm p = .waiting ∧ s.sys.pt.ticks + 1 - ticks0 = n
    · have := hcomes.2
      grind
    · rw [if_neg hcomes] at hd
      have hle := h.due hd
      have hmax := (hok p (ticks0, n) ha).2
      grind

/-- The timer interrupt finishes its `wakeup`. -/
theorem InTime.wake
    {s₁ : St} (h : InTime s alarm p ticks0 n) (hpc : s'.pc p = s.pc p)
    (hticks : s'.sys.pt.ticks = s.sys.pt.ticks) (hasleep : ¬ s'.Asleep p) :
  InTime s' (watch s .wake s₁ alarm) p ticks0 n
  := by
  constructor
  · intro hb
    rw [hpc] at hb
    rw [hticks]
    exact h.between hb
  · intro hs
    exact absurd hs hasleep
  · intro hd
    rw [hticks]
    apply h.due
    intro hw
    apply hd
    change (if alarm p = .struck then .finished else alarm p) = .waiting
    rw [hw]
    rfl

/-- A step of one process that does not change `ticks`. -/
theorem AllInTime.of_change
    (h : AllInTime s alarm) (q : Slot) (hpc : ∀ x, x ≠ q → s'.pc x = s.pc x)
    (hticks : s'.sys.pt.ticks = s.sys.pt.ticks)
    (hasleep : ∀ x, x ≠ q → s'.Asleep x → s.Asleep x)
    (halarm : ∀ x, x ≠ q → alarm' x = alarm x)
    (hq : ∀ ticks0 n, (s'.pc q).args = some (ticks0, n) → InTime s' alarm' q ticks0 n) :
  AllInTime s' alarm'
  := by
  intro x ticks0 n ha
  rcases eq_or_ne x q with rfl | hx
  · exact hq ticks0 n ha
  · rw [hpc x hx] at ha
    exact (h x ticks0 n ha).frame (hpc x hx) hticks (hasleep x hx) (halarm x hx)

/-- A process goes on in `sys_sleep`. -/
theorem AllInTime.goto
    (h : AllInTime s alarm) (q : Slot) (k : Pc) (halarm : ∀ x, x ≠ q → alarm' x = alarm x)
    (hq : ∀ ticks0 n, k.args = some (ticks0, n) → InTime (s.goto q k) alarm' q ticks0 n) :
  AllInTime (s.goto q k) alarm'
  := by
  refine h.of_change q (fun x hx => Function.update_of_ne hx ..) rfl (fun _ _ => id) halarm ?_
  intro ticks0 n ha
  rw [Around.goto_pc_self] at ha
  exact hq ticks0 n ha

/-- Every step keeps the processes in time. -/
theorem AllInTime.step
    {l : Step} (h : AllInTime s alarm) (hinv : Inv s.sys) (hok : TickInOrder (s, alarm) l)
    (hmoves : Moves s l s') :
  AllInTime s' (watch s l s' alarm)
  := by
  cases hmoves with
  | @start c q m hc hpc =>
    have hrun : ¬ s.Asleep q := fun hs => nomatch (hinv.running c q hc).symm.trans hs.1
    apply h.goto
    · intro x hx
      apply if_neg
      rw [hc]
      rintro ⟨⟩
      exact hx rfl
    · intro ticks0 n ha
      refine ⟨?_, fun hs => absurd hs hrun, ?_⟩
      · rw [Around.goto_pc_self]
        nofun
      · intro hd
        cases hd (if_pos hc)
  | @goOn c q ticks0 n hpc hlt =>
    apply h.goto _ _ (fun _ _ => rfl)
    rintro _ _ ⟨⟩
    exact ⟨fun _ => hlt, fun _ => .inl hlt, (h q ticks0 n (by rw [hpc]; rfl)).due⟩
  | @leave l q hl hl' =>
    apply h.goto
    · intro x _
      cases l with
      | start c n => cases hl c n rfl
      | tick => cases hl'.1 rfl
      | wake => cases hl'.2 rfl
      | _ => rfl
    · nofun
  | @check c q ticks0 n hpc =>
    apply h.goto _ _ (fun _ _ => rfl)
    rintro _ _ ⟨⟩
    have hq := h q ticks0 n (by rw [hpc]; rfl)
    have hlt := hq.between (by rw [hpc]; rfl)
    exact ⟨fun _ => hlt, fun _ => .inl hlt, hq.due⟩
  | @enter c q ticks0 n sys hc hpc hstep =>
    have hq := h q ticks0 n (by rw [hpc]; rfl)
    have hlt := hq.between (by rw [hpc]; rfl)
    have hticks : sys.pt.ticks = s.sys.pt.ticks := (hinv.view_step hstep).ticks_eq nofun
    refine h.of_change q (fun x hx => Function.update_of_ne hx ..) hticks ?_ (fun _ _ => rfl) ?_
    · intro x hx hs
      refine hinv.asleep_of_step hstep nofun ?_ hs
      rintro c' ⟨⟩ hc'
      exact hx (Option.some.inj (hc'.symm.trans hc))
    · intro ticks0' n' ha
      rw [Around.goto_pc_self] at ha
      obtain ⟨rfl, rfl⟩ := Prod.mk.inj (Option.some.inj ha)
      refine ⟨?_, fun _ => .inl ?_, ?_⟩
      · rw [Around.goto_pc_self]
        nofun
      · change sys.pt.ticks - ticks0 < n
        rw [hticks]
        exact hlt
      · intro hd
        change n ≤ sys.pt.ticks - ticks0
        rw [hticks]
        exact hq.due hd
  | @tick sys hstep =>
    intro q ticks0 n ha
    have hsys := Except.ok.inj (Option.some.inj hstep)
    have hticks : sys.pt.ticks = s.sys.pt.ticks + 1 := by
      rw [← hsys]
    exact (h q ticks0 n ha).tick ha hok rfl hticks (hinv.asleep_of_step hstep nofun nofun)
  | @wake sys hstep =>
    intro q ticks0 n ha
    have hview := hinv.view_step hstep
    refine (h q ticks0 n ha).wake rfl (hview.ticks_eq nofun) ?_
    rintro ⟨hs, hchan⟩
    exact hview.not_asleep hs hchan
  | @kernel l sys hl hstep =>
    intro q ticks0 n ha
    refine (h q ticks0 n ha).frame rfl ((hinv.view_step hstep).ticks_eq ?_) ?_ rfl
    · rintro rfl
      simp [St.allows, Label.cpu] at hl
    refine hinv.asleep_of_step hstep nofun ?_
    rintro c rfl hc
    rw [show s.pc q = .out by simpa [St.allows, Label.cpu, hc] using hl] at ha
    cases ha

end

/-- In every run in which the tick that makes `ticks - ticks0` equal to `n` does not come between a
comparison and the `sleep` after it: when the interrupt of that tick has finished its `wakeup`, the
process in `sys_sleep(n)` does not sleep on `ticks`. -/
theorem timed_sleep_wakes
    {x : St × (Slot → Alarm)} (h : watched.Reach TickInOrder x) {p : Slot} {ticks0 n : UInt32}
    (hp : (x.1.pc p).args = some (ticks0, n)) (hdone : x.2 p = .finished) :
  ¬ ((x.1.sys.pt.proc p).state = .sleeping ∧ (x.1.sys.pt.proc p).chan = ticksChan)
  := by
  have hall : AllInTime x.1 x.2 := by
    apply h.observe_invariant
    · intro s hs p ticks0 n ha
      rw [hs.2.1] at ha
      cases ha
    · intro s alarm l s' hreach hI hok hstep
      exact hI.step (inv_of_reachable (sys_reachable hreach)) hok (moves_of_step hstep)
  intro hs
  have htime := hall p ticks0 n hp
  have hdue := htime.due (by rw [hdone]; nofun)
  rcases htime.asleep hs with hlt | hstruck
  · exact absurd hlt (UInt32.not_lt.mpr hdue)
  · cases hdone.symm.trans hstruck

/-- An initial state of the system. -/
def firstSt : St where
  sys := firstSys
  pc _ := .out
  var := false

theorem watched_firstSt : watched.init (firstSt, fun _ => .waiting) :=
  ⟨⟨booted_firstSys, rfl, rfl⟩, rfl⟩

/-- `init` calls `sys_sleep(1)`. -/
def sleepRun : List Step :=
  initRun.map .kernel ++ [.start 0 1, .test 0, .check 0]

/-- `init` calls `sys_sleep(1)` and sleeps, and the timer interrupt wakes it up. -/
theorem timed_sleep_wakes_init :
  ∃ x, watched.Reach TickInOrder x ∧ x.2 0 = .finished ∧
    ¬ ((x.1.sys.pt.proc 0).state = .sleeping ∧ (x.1.sys.pt.proc 0).chan = ticksChan)
  := by
  obtain ⟨x, hreach, hargs, hdone⟩ := System.exists_of_guard TickInOrder watched watched_firstSt
    (sleepRun ++ [.enter 0, .tick, .wake])
    (fun x => (x.1.pc 0).args = some (0, 1) ∧ x.2 0 = .finished) (by decide +kernel)
  exact ⟨x, hreach, hdone, timed_sleep_wakes hreach hargs hdone⟩

/-- The tick comes between the comparison of `init` and its `sleep`: the process sleeps on, although
its time has come. -/
theorem timed_sleep_misses :
  ∃ x, watched.Reachable x ∧ (x.1.pc 0).args = some (0, 1) ∧ x.2 0 = .finished ∧
    (x.1.sys.pt.proc 0).state = .sleeping ∧ (x.1.sys.pt.proc 0).chan = ticksChan
  := by
  obtain ⟨x, -, hreach, hx⟩ := System.exists_of_run watched watched_firstSt
    (sleepRun ++ [.tick, .wake, .enter 0])
    (fun x => (x.1.pc 0).args = some (0, 1) ∧ x.2 0 = .finished ∧
      (x.1.sys.pt.proc 0).state = .sleeping ∧ (x.1.sys.pt.proc 0).chan = ticksChan)
    (by decide +kernel)
  exact ⟨x, hreach, hx⟩

end Xv6.Ptable.TimedSleep
