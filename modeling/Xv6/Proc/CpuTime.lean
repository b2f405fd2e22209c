import Mathlib.Algebra.Order.BigOperators.Group.Finset
import Xv6.Proc.Account

/-!
# Processor time

As long as the counter of ticks does not wrap, `cpu_ticks_total` is the length of the completed
dispatches of a process.  The dispatches of one process are disjoint in time, and so are the
dispatches on one processor, which bounds the time of a process by its age and the time of all
processes by the time of the processors in use.
-/

namespace Xv6.Ptable

open Function

/-- The counter of ticks does not wrap, and `scheduler` runs on the processors `C` only. -/
def OnProcessors (C : Finset Cpu) (x : Sys × Account) (l : Label) : Prop :=
  (l = .tick → x.1.pt.ticks.toNat + 1 < 2 ^ 32) ∧ ∀ c, l = .schedule c → c ∈ C

/-- A sum after a change of one term. -/
theorem sum_update {ι : Type*} [DecidableEq ι] {s : Finset ι} {i : ι} (hi : i ∈ s) (f : ι → Nat)
    (b : Nat) :
  ∑ x ∈ s, update f i b x + f i = ∑ x ∈ s, f x + b
  := by
  rw [Finset.sum_update_of_mem hi, Finset.sum_eq_add_sum_sdiff_singleton_of_mem hi f]
  omega

/-- The time of processes and processors.  `busy c` bounds the time that the processor `c` has
spent on completed dispatches. -/
structure Times (C : Finset Cpu) (v : View) (a : Account) : Prop extends Clock v a where
  bounded : a.now < 2 ^ 32
  total : ∀ x, (v.proc x).cpuTicksTotal = UInt32.ofNat (a.total x)
  age : ∀ x, a.created x + a.total x ≤ a.now
  ageRunning : ∀ c p, v.cpu c = some p → a.created p + a.total p ≤ a.since p
  inUse : ∀ c p, v.cpu c = some p → c ∈ C
  busy : ∃ busy : Cpu → Nat, (∀ c, busy c ≤ a.now) ∧
    (∀ c p, v.cpu c = some p → busy c ≤ a.since p) ∧ ∑ x, a.total x ≤ ∑ c ∈ C, busy c

namespace Times

variable {C : Finset Cpu} {v v' : View} {a : Account} {c : Cpu} {p : Slot}

section

variable (h : Times C v a)

include h

theorem silent (hs : Silent v v') :
  Times C v' a
  := by
  refine ⟨h.toClock.silent hs, h.bounded, ?_, h.age, ?_, ?_, ?_⟩
  · intro x
    rw [(hs.times x).cpuTicksTotal]
    apply h.total
  · rw [hs.cpu]
    apply h.ageRunning
  · rw [hs.cpu]
    apply h.inUse
  · rw [hs.cpu]
    apply h.busy

theorem tick (hlt : a.now + 1 < 2 ^ 32) :
  Times C { v with ticks := v.ticks + 1 } (a.record .tick)
  := by
  obtain ⟨busy, hnow, hrun, hsum⟩ := h.busy
  refine ⟨h.toClock.event .tick, hlt, h.total, ?_, h.ageRunning, h.inUse, busy, ?_, hrun, hsum⟩
  · intro x
    apply Nat.le_succ_of_le (h.age x)
  · intro c
    apply Nat.le_succ_of_le (hnow c)

theorem create (he : Happens v (.create p) v') :
  Times C v' (a.record (.create p))
  := by
  have hclock := h.toClock.event he
  obtain ⟨busy, hnow, hrun, hsum⟩ := h.busy
  cases he with
  | create hidle hbudget htotal hothers hfunded hcpu hticks =>
    have hne : ∀ c x, v'.cpu c = some x → v.cpu c = some x ∧ x ≠ p := by
      intro c x hc
      rw [hcpu] at hc
      refine ⟨hc, ?_⟩
      rintro rfl
      apply hidle c hc
    refine ⟨hclock, h.bounded, ?_, ?_, ?_, ?_, busy, hnow, ?_, ?_⟩
    · intro x
      rcases eq_or_ne x p with rfl | hx
      · simp only [Account.record, update_self, htotal]
        rfl
      · simp only [Account.record, update_of_ne hx]
        rw [(hothers x hx).cpuTicksTotal]
        apply h.total
    · intro x
      rcases eq_or_ne x p with rfl | hx
      · simp only [Account.record, update_self]
        apply le_refl
      · simp only [Account.record, update_of_ne hx]
        apply h.age
    · intro c x hc
      obtain ⟨hc, hx⟩ := hne c x hc
      simp only [Account.record, update_of_ne hx]
      apply h.ageRunning c x hc
    · intro c x hc
      apply h.inUse c x (hne c x hc).1
    · intro c x hc
      apply hrun c x (hne c x hc).1
    · apply le_trans _ hsum
      apply Finset.sum_le_sum
      intro x _
      rcases eq_or_ne x p with rfl | hx
      · simp only [Account.record, update_self]
        apply Nat.zero_le
      · simp only [Account.record, update_of_ne hx]
        apply le_refl

theorem dispatch (hC : c ∈ C) (he : Happens v (.dispatch c p) v') :
  Times C v' (a.record (.dispatch c p))
  := by
  have hclock := h.toClock.event he
  obtain ⟨busy, hnow, hrun, hsum⟩ := h.busy
  have hcases {c' x} (hx : v'.cpu c' = some x) := he.cpu_of_dispatch hx
  cases he with
  | dispatch hc hidle hin hbudget htotal hothers hfunded hcpu hticks =>
    refine ⟨hclock, h.bounded, ?_, h.age, ?_, ?_, busy, hnow, ?_, hsum⟩
    · intro x
      rcases eq_or_ne x p with rfl | hx
      · rw [htotal]
        apply h.total
      · rw [(hothers x hx).cpuTicksTotal]
        apply h.total
    · intro c' x hx
      rcases hcases hx with ⟨rfl, rfl⟩ | ⟨hne, hx⟩
      · simp only [Account.record, update_self]
        apply h.age
      · simp only [Account.record, update_of_ne hne]
        apply h.ageRunning c' x hx
    · intro c' x hx
      rcases hcases hx with ⟨rfl, rfl⟩ | ⟨hne, hx⟩
      · apply hC
      · apply h.inUse c' x hx
    · intro c' x hx
      rcases hcases hx with ⟨rfl, rfl⟩ | ⟨hne, hx⟩
      · simp only [Account.record, update_self]
        apply hnow
      · simp only [Account.record, update_of_ne hne]
        apply hrun c' x hx

/-- At the end of a dispatch its length is added to the time of the process and of the
processor. -/
theorem sched {charged : Bool} (he : Happens v (.sched c p charged) v') :
  Times C v' (a.record (.sched c p charged))
  := by
  have hclock := h.toClock.event he
  obtain ⟨busy, hnow, hrun, hsum⟩ := h.busy
  have hcases {c' x} (hx : v'.cpu c' = some x) := h.toClock.cpu_of_sched he hx
  cases he with
  | sched hc hbudget htotal hothers hfunded hcpu hticks =>
    have hle := (h.stamp c p hc).1
    refine ⟨hclock, h.bounded, ?_, ?_, ?_, ?_, update busy c a.now, ?_, ?_, ?_⟩
    · intro x
      rcases eq_or_ne x p with rfl | hx
      · have hel : v.ticks - (v.proc x).cpuTicksIn = UInt32.ofNat (a.elapsed x) := by
          rw [h.ticks, (h.stamp c x hc).2, Account.elapsed, UInt32.ofNat_sub hle]
        simp only [Account.record, update_self]
        rw [htotal, h.total, hel, UInt32.ofNat_add]
      · simp only [Account.record, update_of_ne hx]
        rw [(hothers x hx).cpuTicksTotal]
        apply h.total
    · intro x
      rcases eq_or_ne x p with rfl | hx
      · have hage := h.ageRunning c x hc
        simp only [Account.record, update_self, Account.elapsed]
        omega
      · simp only [Account.record, update_of_ne hx]
        apply h.age
    · intro c' x hx
      obtain ⟨-, hne, hx⟩ := hcases hx
      simp only [Account.record, update_of_ne hne]
      apply h.ageRunning c' x hx
    · intro c' x hx
      apply h.inUse c' x (hcases hx).2.2
    · intro c'
      rcases eq_or_ne c' c with rfl | hc'
      · rw [update_self]
        apply le_refl
      · rw [update_of_ne hc']
        apply hnow
    · intro c' x hx
      obtain ⟨hc', -, hx⟩ := hcases hx
      rw [update_of_ne hc']
      apply hrun c' x hx
    · have hproc := sum_update (Finset.mem_univ p) a.total (a.total p + a.elapsed p)
      have hcpus := sum_update (h.inUse c p hc) busy a.now
      have hbusy := hrun c p hc
      simp only [Account.record, Account.elapsed] at hproc ⊢
      omega

theorem reset {ps : List Slot} (he : Happens v (.reset ps) v') :
  Times C v' (a.record (.reset ps))
  := by
  have hclock := h.toClock.event he
  cases he with
  | reset hbudget hothers hin htotal hfunded hcpu hticks =>
    refine ⟨hclock, h.bounded, ?_, h.age, ?_, ?_, ?_⟩
    · intro x
      rw [htotal]
      apply h.total
    · rw [hcpu]
      apply h.ageRunning
    · rw [hcpu]
      apply h.inUse
    · rw [hcpu]
      apply h.busy

theorem event
    {e : Event} (hne : e ≠ .tick) (hC : ∀ c p, e = .dispatch c p → c ∈ C) (he : Happens v e v') :
  Times C v' (a.record e)
  := by
  cases e with
  | tick => cases hne rfl
  | create p => apply h.create he
  | dispatch c p => apply h.dispatch (hC c p rfl) he
  | sched c p charged => apply h.sched he
  | reset ps => apply h.reset he

end

theorem step
    {s s' : Sys} {l : Label} (h : Times C s.view a) (hinv : Inv s)
    (hok : OnProcessors C (s, a) l) (hstep : kernel.step s l = some (.ok s')) :
  Times C s'.view (bookStep s l s' a)
  := by
  by_cases hl : l = .tick
  · subst hl
    cases hstep
    apply h.tick
    have hlt := hok.1 rfl
    have hticks : s.pt.ticks = UInt32.ofNat a.now := h.ticks
    rw [hticks, UInt32.toNat_ofNat_of_lt' h.bounded] at hlt
    apply hlt
  · apply (hinv.history (hinv.view_step hstep)).invariant (I := Times C) _ _ h
    · intro v v' a hv hs
      apply hv.silent hs
    · intro v v' a e hmem hv
      have hfrom := View.from_of_mem_events hmem
      apply hv.event
      · rintro rfl
        apply hl hfrom
      · rintro c p rfl
        apply hok.2 c hfrom

end Times

theorem times_of_booted {s : Sys} (h : Booted s) (C : Finset Cpu) :
  Times C s.view (openBooks s)
  := by
  have hproc : ∀ x, s.view.proc x = zeroProc := h.proc_eq
  have hcpu : s.view.cpu = fun _ => none := h.2.1
  refine ⟨⟨?_, ?_, ?_⟩, ?_, ?_, ?_, ?_, ?_, fun _ => 0, ?_, ?_, ?_⟩
  · rw [openBooks, UInt32.ofNat_toNat]
    rfl
  · simp [hcpu]
  · simp [hcpu]
  · apply s.pt.ticks.toNat_lt
  · intro x
    rw [hproc]
    rfl
  · simp [openBooks]
  · simp [hcpu]
  · simp [hcpu]
  · simp
  · simp
  · simp [openBooks]

/-- In every run in which the counter of ticks does not wrap and `scheduler` runs on the processors
`C`: `cpu_ticks_total` is the length of the completed dispatches since `allocproc`, at most the
ticks since then, and its sum over all slots is at most the ticks times the number of
processors. -/
theorem cpu_time
    {C : Finset Cpu} {s : Sys} {a : Account} (h : bookKernel.Reach (OnProcessors C) (s, a)) :
  a.now = s.pt.ticks.toNat ∧
  (∀ p, (s.pt.proc p).cpuTicksTotal.toNat = a.total p ∧
    a.created p + (s.pt.proc p).cpuTicksTotal.toNat ≤ s.pt.ticks.toNat) ∧
  ∑ p, (s.pt.proc p).cpuTicksTotal.toNat ≤ C.card * s.pt.ticks.toNat
  := by
  have ht : Times C s.view a := by
    apply h.observe_invariant (I := fun s a => Times C s.view a)
    · intro s hs
      apply times_of_booted hs
    · intro s a l s' hs hI hok hstep
      apply hI.step (inv_of_reachable hs) hok hstep
  have hnow : a.now = s.pt.ticks.toNat := by
    rw [show s.pt.ticks = UInt32.ofNat a.now from ht.ticks, UInt32.toNat_ofNat_of_lt' ht.bounded]
  have htotal : ∀ p, (s.pt.proc p).cpuTicksTotal.toNat = a.total p := by
    intro p
    have hage := ht.age p
    have hlt := ht.bounded
    rw [show (s.pt.proc p).cpuTicksTotal = UInt32.ofNat (a.total p) from ht.total p,
      UInt32.toNat_ofNat', Nat.mod_eq_of_lt (by omega)]
  refine ⟨hnow, ?_, ?_⟩
  · intro p
    have hage := ht.age p
    rw [htotal, ← hnow]
    omega
  · obtain ⟨busy, hle, -, hsum⟩ := ht.busy
    calc ∑ p, (s.pt.proc p).cpuTicksTotal.toNat
        = ∑ p, a.total p := Finset.sum_congr rfl fun p _ => htotal p
      _ ≤ ∑ c ∈ C, busy c := hsum
      _ ≤ C.card * s.pt.ticks.toNat := by
          rw [← hnow]
          apply Finset.sum_le_card_nsmul
          intro c _
          apply hle

instance (C : Finset Cpu) (x : Sys × Account) (l : Label) : Decidable (OnProcessors C x l) :=
  inferInstanceAs (Decidable (_ ∧ _))

/-- Parent and child run on two processors for two ticks, and yield. -/
def twoProcessorRun : List Label :=
  forkRun ++ [.tick, .tick, .yield 0, .tick, .yield 1]

/-- The parent has used two ticks of three and the child all three, of six on two processors. -/
theorem cpu_time_of_two_processors :
  ∃ s a, bookKernel.Reach (OnProcessors {0, 1}) (s, a) ∧ s.pt.ticks.toNat = 3 ∧
    (s.pt.proc 0).cpuTicksTotal.toNat = 2 ∧ (s.pt.proc 1).cpuTicksTotal.toNat = 3 ∧
    ∑ p, (s.pt.proc p).cpuTicksTotal.toNat ≤ 6
  := by
  have hinit : bookKernel.init (firstSys, openBooks firstSys) := ⟨booted_firstSys, rfl⟩
  obtain ⟨⟨s, a⟩, hreach, hticks, h₀, h₁⟩ := System.exists_of_guard (OnProcessors {0, 1})
    bookKernel hinit twoProcessorRun
    (fun x => x.1.pt.ticks.toNat = 3 ∧ x.2.total 0 = 2 ∧ x.2.total 1 = 3) (by decide +kernel)
  obtain ⟨-, htotal, hsum⟩ := cpu_time hreach
  refine ⟨s, a, hreach, hticks, (htotal 0).1.trans h₀, (htotal 1).1.trans h₁, ?_⟩
  rw [show s.pt.ticks.toNat = 3 from hticks] at hsum
  apply hsum

end Xv6.Ptable
