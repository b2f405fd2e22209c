import Xv6.Proc.Account
import Xv6.Lib.Word

/-!
# Budgets

As long as no dispatch lasts `2 ^ 31` ticks, the budget of a process is `BUDGET` minus the length
of its completed dispatches since its last reset, and the process loses a priority exactly when
this length reaches `BUDGET`.
-/

namespace Xv6.Ptable

open Function (update_self update_of_ne)

/-- No dispatch lasts `2 ^ 31` ticks or more. -/
def ShortDispatches (x : Sys × Account) (l : Label) : Prop :=
  l = .tick → ∀ c p, x.1.cpu c = some p → x.2.elapsed p + 1 < 2 ^ 31

/-! ### The charge -/

/-- The budget of a slot that was charged `n` ticks. -/
structure Charged (x : Proc) (n : Nat) : Prop where
  lt : (n : Int) < BUDGET.toInt
  budget : x.budget.toInt = BUDGET.toInt - n

/-- The priority after a switch at which `n` ticks have been spent. -/
def lowered (n : Nat) (priority : Nat) : Nat :=
  if BUDGET.toInt ≤ n then priority - 1 else priority

theorem toInt_BUDGET :
  BUDGET.toInt = 125
  := by decide

/-- The 32-bit subtraction in the charge does not overflow. -/
theorem Charged.sub
    {x : Proc} {n : Nat} (h : Charged x n) {d : UInt32} (hd : d.toNat < 2 ^ 31) :
  (x.budget - d.toInt32).toInt = BUDGET.toInt - (n + d.toNat)
  := by
  have hn := h.lt
  have hb := h.budget
  rw [toInt_BUDGET] at hn hb
  rw [Int32.toInt_sub, UInt32.toInt_toInt32, if_pos hd, hb, toInt_BUDGET, Int.bmod_eq_of_le]
  · omega
  · omega
  · omega

/-- What a charge does to the budget and to the priority. -/
theorem Charged.charge
    {x : Proc} {n : Nat} (h : Charged x n) {ticks : UInt32}
    (hd : (ticks - x.cpuTicksIn).toNat < 2 ^ 31) :
  Charged (charge ticks x)
    (if BUDGET.toInt ≤ n + (ticks - x.cpuTicksIn).toNat then 0
      else n + (ticks - x.cpuTicksIn).toNat) ∧
  (Ptable.charge ticks x).priority = lowered (n + (ticks - x.cpuTicksIn).toNat) x.priority
  := by
  have hsub := h.sub hd
  have hle : x.budget - (ticks - x.cpuTicksIn).toInt32 ≤ 0 ↔
      BUDGET.toInt ≤ n + (ticks - x.cpuTicksIn).toNat := by
    rw [Int32.le_iff_toInt_le, hsub, Int32.toInt_zero]
    omega
  simp only [Ptable.charge, lowered, Int.natCast_add]
  by_cases hspent : BUDGET.toInt ≤ n + (ticks - x.cpuTicksIn).toNat
  · rw [if_pos (hle.mpr hspent), if_pos hspent, if_pos hspent]
    refine ⟨⟨by decide, by simp⟩, ?_⟩
    split
    · rfl
    · simp only
      omega
  · rw [if_neg (fun h => hspent (hle.mp h)), if_neg hspent, if_neg hspent]
    refine ⟨⟨?_, ?_⟩, rfl⟩
    · rw [Int.natCast_add]
      omega
    · rw [hsub, Int.natCast_add]

/-! ### The invariant -/

/-- Every slot with a budget has the budget that the account says. -/
structure Funds (v : View) (a : Account) : Prop extends Clock v a where
  short : ∀ c p, v.cpu c = some p → a.elapsed p < 2 ^ 31
  charged : ∀ x, v.Funded x → Charged (v.proc x) (a.spent x)

theorem Charged.of_budget {x y : Proc} {n : Nat} (h : Charged x n) (hy : y.budget = x.budget) :
  Charged y n
  := ⟨h.lt, by rw [hy, h.budget]⟩

theorem Charged.full {x : Proc} (hx : x.budget = BUDGET) :
  Charged x 0
  := ⟨by decide, by simp [hx]⟩

namespace Funds

variable {v v' : View} {a : Account}

theorem silent (h : Funds v a) (hs : Silent v v') :
  Funds v' a
  := by
  refine ⟨h.toClock.silent hs, ?_, ?_⟩
  · rw [hs.cpu]
    apply h.short
  · intro x hx
    apply (h.charged x (hs.funded x hx)).of_budget (hs.times x).budget

theorem event (h : Funds v a) {e : Event} (hne : e ≠ .tick) (he : Happens v e v') :
  Funds v' (a.record e)
  := by
  have hclock := h.toClock.event he
  refine ⟨hclock, ?_, ?_⟩
  · cases he with
    | tick => cases hne rfl
    | create hidle hbudget htotal hothers hfunded hcpu hticks =>
      rw [hcpu]
      apply h.short
    | @dispatch c p _ hc hidle hin hbudget htotal hothers hfunded hcpu hticks =>
      intro c' x hx
      rw [hcpu] at hx
      rcases eq_or_ne x p with rfl | hxp
      · simp [Account.elapsed, Account.record]
      · have hc' : c' ≠ c := by
          rintro rfl
          rw [update_self] at hx
          exact hxp (Option.some.inj hx).symm
        rw [update_of_ne hc'] at hx
        simp only [Account.elapsed, Account.record, update_of_ne hxp]
        apply h.short c' x hx
    | @sched c p charged _ hc hbudget htotal hothers hfunded hcpu hticks =>
      intro c' x hx
      rw [hcpu] at hx
      have hc' : c' ≠ c := by
        rintro rfl
        rw [update_self] at hx
        cases hx
      rw [update_of_ne hc'] at hx
      apply h.short c' x hx
    | reset hbudget hothers hin htotal hfunded hcpu hticks =>
      rw [hcpu]
      apply h.short
  · intro x hx
    cases he with
    | tick => cases hne rfl
    | @create p _ hidle hbudget htotal hothers hfunded hcpu hticks =>
      rcases eq_or_ne x p with rfl | hxp
      · simp only [Account.record, update_self]
        apply Charged.full hbudget
      · simp only [Account.record, update_of_ne hxp]
        apply (h.charged x (hfunded x hxp hx)).of_budget (hothers x hxp).budget
    | @dispatch c p _ hc hidle hin hbudget htotal hothers hfunded hcpu hticks =>
      apply (h.charged x (hfunded x hx)).of_budget
      rcases eq_or_ne x p with rfl | hxp
      · apply hbudget
      · apply (hothers x hxp).budget
    | @sched c p charged _ hc hbudget htotal hothers hfunded hcpu hticks =>
      rcases eq_or_ne x p with rfl | hxp
      · obtain ⟨rfl, hcharge⟩ := hbudget hx
        have hshort := h.short c x hc
        have hel := h.toClock.elapsed hc (by omega)
        have hch := ((h.charged x (hfunded x hx)).charge (by rw [hel]; exact hshort)).1
        rw [hel] at hch
        simp only [Account.record, if_true, update_self]
        apply hch.of_budget hcharge
      · have hspent : (a.record (.sched c p charged)).spent x = a.spent x := by
          simp only [Account.record]
          split
          · rw [update_of_ne hxp]
          · rfl
        rw [hspent]
        apply (h.charged x (hfunded x hx)).of_budget (hothers x hxp).budget
    | @reset ps _ hbudget hothers hin htotal hfunded hcpu hticks =>
      simp only [Account.record]
      split
      · rename_i hmem
        apply Charged.full (hbudget x hmem)
      · rename_i hmem
        apply (h.charged x (hfunded x hx)).of_budget (hothers x hmem)

theorem tick (h : Funds v a) (hshort : ∀ c p, v.cpu c = some p → a.elapsed p + 1 < 2 ^ 31) :
  Funds { v with ticks := v.ticks + 1 } (a.record .tick)
  := by
  refine ⟨h.toClock.event .tick, ?_, h.charged⟩
  intro c p hc
  have hle := (h.stamp c p hc).1
  have hlt := hshort c p hc
  simp only [Account.elapsed, Account.record] at hlt ⊢
  omega

/-- Along a history without ticks. -/
theorem history (h : Funds v a) {es : List Event} (hes : History v es v') (hne : .tick ∉ es) :
  Funds v' (es.foldl Account.record a)
  := by
  apply hes.invariant (I := Funds) _ _ h
  · intro v v' a hv hs
    apply hv.silent hs
  · intro v v' a e he hv
    apply hv.event
    rintro rfl
    apply hne he

theorem step
    {s s' : Sys} {l : Label} (h : Funds s.view a) (hinv : Inv s)
    (hok : ShortDispatches (s, a) l) (hstep : kernel.step s l = some (.ok s')) :
  Funds s'.view (bookStep s l s' a)
  := by
  by_cases hl : l = .tick
  · subst hl
    cases hstep
    apply h.tick
    apply hok rfl
  · apply h.history (hinv.history (hinv.view_step hstep))
    intro hmem
    apply hl (View.from_of_mem_events hmem)

/-- A charge at the end of a dispatch. -/
theorem priority_charge (h : Funds v a) {c : Cpu} {p : Slot} (hc : v.cpu c = some p)
    (hp : v.Funded p) :
  (charge v.ticks (v.proc p)).priority = lowered (a.spent p + a.elapsed p) (v.proc p).priority
  := by
  have hshort := h.short c p hc
  have hel := h.toClock.elapsed hc (by omega)
  rw [((h.charged p hp).charge (by rw [hel]; exact hshort)).2, hel]

end Funds

theorem View.sleep_priority (v : View) (c : Cpu) (p : Slot) (chan : Chan) (call : Call) :
  ((v.sleep c p chan call).proc p).priority = (charge v.ticks (v.proc p)).priority
  := by
  rw [sleep, leave_proc_self, tallied, charge_sleeping]

/-- A pass of the loop of `wait` right after a dispatch changes no priority. -/
theorem Funds.waited_priority
    {v v' : View} {a : Account} (h : Funds v a) {c : Cpu} {p : Slot} (hc : v.cpu c = some p)
    (hp : v.Funded p) (hel : a.elapsed p = 0) (hw : View.Waited v c p v') (x : Slot) :
  (v'.proc x).priority = (v.proc x).priority
  := by
  cases hw with
  | reaped y hstate hparent =>
    rw [View.setCall_proc]
    rcases eq_or_ne x y with rfl | hx
    · rw [View.modify_proc_self]
      rfl
    · rw [View.modify_proc_of_ne _ _ hx]
  | failed => rfl
  | asleep =>
    rcases eq_or_ne x p with rfl | hx
    · rw [View.sleep_priority, h.priority_charge hc hp, hel, lowered, if_neg]
      have hlt := (h.charged x hp).lt
      rw [Nat.add_zero]
      omega
    · rw [View.sleep, View.leave_proc_of_ne _ _ _ _ hx]

theorem funds_of_booted {s : Sys} (h : Booted s) :
  Funds s.view (openBooks s)
  := by
  have hproc : ∀ x, s.view.proc x = zeroProc := h.proc_eq
  obtain ⟨-, hcpu, hthread, hboot⟩ := h
  have hcpu' : s.view.cpu = fun _ => none := hcpu
  have hboot' : s.view.boot = .alloc := hboot
  have hthread' : s.view.thread = fun _ => ⟨.user, false⟩ := hthread
  refine ⟨⟨?_, ?_, ?_⟩, ?_, ?_⟩
  · rw [openBooks, UInt32.ofNat_toNat]
    rfl
  · simp [hcpu']
  · simp [hcpu']
  · simp [hcpu']
  · rintro x (ha | hp)
    · rw [hproc] at ha
      rcases ha with ha | ha | ha <;> cases ha
    · simp [View.Prepared, hboot', hthread'] at hp

theorem funds_of_reach {s : Sys} {a : Account} (h : bookKernel.Reach ShortDispatches (s, a)) :
  Funds s.view a
  := by
  apply h.observe_invariant (I := fun s a => Funds s.view a)
  · intro s hs
    apply funds_of_booted hs
  · intro s a l s' hs hI hok hstep
    apply hI.step (inv_of_reachable hs) hok hstep

/-- A process that is dispatched and goes back to sleep at once keeps its priority. -/
theorem Funds.schedule_priority
    {s : Sys} {a : Account} (h : Funds s.view a) (hinv : Inv s) {c : Cpu} {d : Option Slot}
    {v' : View} (hstep : View.Step s.view (.schedule c) d v') (x : Slot) :
  (v'.proc x).priority = (s.view.promote.proc x).priority
  := by
  cases hstep with
  | idle => rfl
  | @dispatch _ p _ hc hp hmax hres =>
    have hne : ∀ es : List Event, es = (if s.view.Due then [.reset s.view.visited] else []) →
        .tick ∉ es := by
      rintro es rfl
      split <;> simp
    have hprom := h.history (History.promote s.view) (hne _ rfl)
    have hdisp := (hprom.event (by simp) (hinv.happens_dispatch hc hp)).silent (Silent.tidy _ p)
    have hprio : ∀ x, (((s.view.promote.dispatch c p).tidy p).proc x).priority
        = (s.view.promote.proc x).priority := by
      intro x
      rw [View.tidy_priority]
      rcases eq_or_ne x p with rfl | hx
      · rw [View.dispatch_proc_self]
        rfl
      · rw [View.dispatch_proc_of_ne _ _ hx]
    rw [View.Resumed] at hres
    split at hres
    · rw [← hprio x]
      apply hdisp.waited_priority (by simp) (View.dispatch_tidy_funded ..) _ hres
      simp [Account.elapsed, Account.record]
    · rw [hres, hprio]
  | boot hb => cases hb
  | on hc ho =>
    cases ho with
    | allocNone hl | alloc hl | rollback hl => simp at hl

/-- The process `p` on the processor `c` calls `sched` from `yield` or `sleep` in a step. -/
def SwitchesOut (s : Sys) (l : Label) (s' : Sys) (c : Cpu) (p : Slot) : Prop :=
  s.cpu c = some p ∧
    (l = .yield c ∨ (∃ chan, l = .sleep c chan) ∨ l = .wait c ∧ s'.cpu c = none)

theorem Funds.switch_priority
    {s s' : Sys} {a : Account} (h : Funds s.view a) (hinv : Inv s) {l : Label} {c : Cpu} {p : Slot}
    (hstep : kernel.step s l = some (.ok s')) (hout : SwitchesOut s l s' c p) :
  (s'.pt.proc p).priority = lowered (a.spent p + a.elapsed p) (s.pt.proc p).priority
  := by
  obtain ⟨hc, hl⟩ := hout
  have hc' : s.view.cpu c = some p := hc
  have hp : s.view.Funded p := Or.inl (Or.inr (Or.inr (hinv.running c p hc)))
  have hcharge := h.priority_charge hc' hp
  have hview := hinv.view_step hstep
  change (s'.view.proc p).priority = lowered _ (s.view.proc p).priority
  rcases hl with rfl | ⟨chan, rfl⟩ | ⟨rfl, hnone⟩
  · rw [(hview.stepOn rfl hc').yield_eq, View.yield, View.leave_proc_self, ← hcharge]
    rfl
  · rw [(hview.stepOn rfl hc').sleep_eq, View.sleep_priority, hcharge]
  · have hslept : s'.view = s.view.sleep c p (.proc p) .waiting := by
      have hwaited := (hview.stepOn rfl hc').waited
      generalize hv : s'.view = v' at hwaited
      cases hwaited with
      | reaped x | failed => cases hc'.symm.trans ((congrArg (View.cpu · c) hv).symm.trans hnone)
      | asleep => rfl
    rw [hslept, View.sleep_priority, hcharge]

/-- In every run in which no dispatch lasts `2 ^ 31` ticks, every active process has a priority in
range and a budget that is positive and equals `BUDGET` minus the length of its completed
dispatches since its last reset.  A switch from `yield` or `sleep` lowers the priority by one,
unless it is `0`, exactly when this length, with the dispatch that ends, reaches `BUDGET`.  A pass
of `scheduler` changes priorities by promotion only, also if the process that it dispatches goes
back to sleep at once. -/
theorem budget_accounting
    {s : Sys} {a : Account} (h : bookKernel.Reach ShortDispatches (s, a)) :
  (∀ p, Active (s.pt.proc p).state → (s.pt.proc p).priority ≤ maxPrio ∧
    0 < (s.pt.proc p).budget ∧ (s.pt.proc p).budget ≤ BUDGET ∧
    (s.pt.proc p).budget.toInt = BUDGET.toInt - a.spent p) ∧
  (∀ l s' c p, kernel.step s l = some (.ok s') → SwitchesOut s l s' c p →
    (s'.pt.proc p).priority = lowered (a.spent p + a.elapsed p) (s.pt.proc p).priority) ∧
  ∀ c s' p, kernel.step s (.schedule c) = some (.ok s') →
    (s'.pt.proc p).priority = (s.view.promote.proc p).priority
  := by
  have hfunds := funds_of_reach h
  have hinv := inv_of_reachable h.observed
  refine ⟨?_, ?_, ?_⟩
  · intro p hp
    obtain ⟨q, hq⟩ := hinv.good
    obtain ⟨hlt, hbudget⟩ := hfunds.charged p (Or.inl hp)
    change (s.pt.proc p).budget.toInt = _ at hbudget
    refine ⟨hq.bounded p hp, ?_, ?_, hbudget⟩
    · rw [Int32.lt_iff_toInt_lt, hbudget, Int32.toInt_zero]
      omega
    · rw [Int32.le_iff_toInt_le, hbudget]
      omega
  · intro l s' c p hstep hout
    apply hfunds.switch_priority hinv hstep hout
  · intro c s' p hstep
    apply hfunds.schedule_priority hinv (hinv.view_step hstep)

instance (x : Sys × Account) (l : Label) : Decidable (ShortDispatches x l) :=
  decidable_of_iff (l = .tick → ∀ c, (x.1.cpu c).all fun p => x.2.elapsed p + 1 < 2 ^ 31) (by
    simp only [ShortDispatches, Option.all_eq_true, decide_eq_true_eq])

/-- `init` runs for `100` ticks, sleeps, wakes up and runs for `25` ticks. -/
def budgetRun : List Label :=
  initRun ++ List.replicate 100 .tick ++ [.sleep 0 .null, .wakeup .null, .schedule 0] ++
    List.replicate 25 .tick

/-- The ticks before the sleep count: `init` has a budget of `25` left, uses it up, and loses a
priority when it yields. -/
theorem budget_accounting_after_sleep :
  ∃ s a, bookKernel.Reach ShortDispatches (s, a) ∧ (s.pt.proc 0).state = .running ∧
    (s.pt.proc 0).budget.toInt = 25 ∧
    ∀ s', kernel.step s (.yield 0) = some (.ok s') → (s'.pt.proc 0).priority = 5
  := by
  have hinit : bookKernel.init (firstSys, openBooks firstSys) := ⟨booted_firstSys, rfl⟩
  obtain ⟨⟨s, a⟩, hreach, hcpu, hstate, hspent, hel, hprio⟩ :=
    System.exists_of_guard ShortDispatches bookKernel hinit budgetRun (fun x =>
      x.1.cpu 0 = some 0 ∧ (x.1.pt.proc 0).state = .running ∧ x.2.spent 0 = 100 ∧
      x.2.elapsed 0 = 25 ∧ (x.1.pt.proc 0).priority = 6) (by decide +kernel)
  obtain ⟨hbudget, hswitch, -⟩ := budget_accounting hreach
  refine ⟨s, a, hreach, hstate, ?_, ?_⟩
  · rw [(hbudget 0 (Or.inr (Or.inr hstate))).2.2.2, show a.spent 0 = 100 from hspent]
    decide
  · intro s' hstep
    rw [hswitch _ s' 0 0 hstep ⟨hcpu, Or.inl rfl⟩, show a.spent 0 = 100 from hspent,
      show a.elapsed 0 = 25 from hel, show (s.pt.proc 0).priority = 6 from hprio]
    decide

end Xv6.Ptable
