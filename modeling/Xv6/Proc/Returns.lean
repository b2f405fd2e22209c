import Xv6.Proc.Reap

/-!
# What `wait` returns

A history records every process that exits and every return of `wait`.  A process that has exited
is a zombie until one call of `wait`, made by its parent, returns its pid.
-/

namespace Xv6.Ptable

/-- What `wait` returns as an `int`, if the pass returns. -/
def WaitResult.value : WaitResult → Option Int32
  | .reaped pid => some pid.toInt32
  | .failed => some (-1)
  | .asleep => none

/-- The process that runs a pass of the loop of `wait` in a step, and the state in which the pass
starts. -/
def Sys.passes (s : Sys) : Label → Option (Slot × Sys)
  | .wait c =>
      match s.cpu c with
      | some p => if (s.thread p).call = .user then some (p, s) else none
      | none => none
  | .schedule c =>
      if (s.cpu c).isSome then none
      else
        match scheduler s.pt with
        | .ok (some p, t) =>
            if (s.thread p).call = .waiting then
              some (p, Sys.tidied { s with pt := t, cpu := Function.update s.cpu c (some p) } p)
            else none
        | _ => none
  | _ => none

/-- The caller of `wait` to which a step returns, and the result. -/
def Sys.waitReturns (s : Sys) (l : Label) : Option (Slot × Int32) :=
  match s.passes l with
  | none => none
  | some (p, s₁) =>
      match Ptable.wait s₁.pt p with
      | .ok (r, _) => r.value.map (p, ·)
      | .error _ => none

/-- The slot that a step frees after its process has exited. -/
def Sys.freedSlot (s s' : Sys) : Option Slot :=
  (List.finRange NPROC).find? fun x =>
    decide ((s.pt.proc x).state = .zombie ∧ (s'.pt.proc x).state = .unused)

/-- Whether a process has a child in a state other than `UNUSED`. -/
def Sys.hasKids (s : Sys) (p : Slot) : Bool :=
  decide (∃ x, (s.pt.proc x).state ≠ .unused ∧ (s.pt.proc x).parent = some p)

/-! ### The history -/

/-- A process: its slot, how often the slot had been allocated, and its pid. -/
structure Process where
  slot : Slot
  life : Nat
  pid : UInt32
  deriving DecidableEq

/-- A return of `wait`: the caller, the result, the process whose slot was freed with its parent,
and whether the caller had children and was killed. -/
structure Return where
  caller : Slot
  value : Int32
  child : Option Process
  parent : Option Slot
  kids : Bool
  killed : Bool

/-- How often each slot was allocated, the processes that exited, and the returns of `wait`. -/
structure WaitHistory where
  life : Slot → Nat
  exited : List Process
  returns : List Return

namespace WaitHistory

/-- The history at the start. -/
def start : WaitHistory := ⟨fun _ => 0, [], []⟩

/-- The process in a slot. -/
def process (g : WaitHistory) (s : Sys) (x : Slot) : Process := ⟨x, g.life x, (s.pt.proc x).pid⟩

/-- The process that exits in a step. -/
def exits (g : WaitHistory) (s : Sys) : Label → Option Process
  | .exit c => (s.cpu c).map (g.process s)
  | _ => none

/-- The return of `wait` in a step. -/
def return? (g : WaitHistory) (s : Sys) (l : Label) (s' : Sys) : Option Return :=
  (s.waitReturns l).map fun r =>
    { caller := r.1
      value := r.2
      child := (s.freedSlot s').map (g.process s)
      parent := (s.freedSlot s').bind fun x => (s.pt.proc x).parent
      kids := s.hasKids r.1
      killed := (s.pt.proc r.1).killed }

/-- The history after a step. -/
def update (s : Sys) (l : Label) (s' : Sys) (g : WaitHistory) : WaitHistory where
  life x := if (s.pt.proc x).state = .unused ∧ (s'.pt.proc x).state ≠ .unused then g.life x + 1
    else g.life x
  exited := (g.exits s l).toList ++ g.exited
  returns := (g.return? s l s').toList ++ g.returns

/-- The processes that calls of `wait` returned. -/
def reaped (g : WaitHistory) : List Process := g.returns.filterMap (·.child)

end WaitHistory

/-! ### The result of a pass -/

section

variable {s s' : Sys} {l : Label}

/-- A pass of `wait` starts in a state with the same processes in the same stages. -/
theorem Inv.passes_spec (h : Inv s) {p : Slot} {s₁ : Sys} (hp : s.passes l = some (p, s₁)) :
  ∃ c, kernel.step s l = some (s₁.wait c p) ∧ Inv s₁ ∧ s₁.cpu c = some p ∧
    ∀ y, Stays (s.pt.proc y) (s₁.pt.proc y) ∧ (s₁.pt.proc y).parent = (s.pt.proc y).parent ∧
      (s₁.pt.proc y).killed = (s.pt.proc y).killed
  := by
  cases l with
  | wait c =>
    simp only [Sys.passes] at hp
    split at hp
    · rename_i p' hc
      split at hp
      · rename_i hcall
        obtain ⟨rfl, rfl⟩ := Prod.mk.inj (Option.some.inj hp)
        refine ⟨c, ?_, h, hc, fun y => ⟨.refl _, rfl, rfl⟩⟩
        change s.step (.wait c) = _
        simp only [Sys.step, hc, Sys.stepOn, if_pos hcall]
      · cases hp
    · cases hp
  | schedule c =>
    simp only [Sys.passes] at hp
    split at hp
    · cases hp
    rename_i hidle
    obtain ⟨q, hq⟩ := h.good
    rcases h.scheduler_view hq c with ⟨t, ht, -⟩ | ⟨p', t, ht, hinv, hview, hs, -⟩
    · rw [ht] at hp
      cases hp
    · rw [ht] at hp
      simp only at hp
      split at hp
      · rename_i hcall
        obtain ⟨rfl, rfl⟩ := Prod.mk.inj (Option.some.inj hp)
        refine ⟨c, ?_, hinv.tidied p', ?_, ?_⟩
        · change s.step (.schedule c) = _
          simp only [Sys.step, if_neg hidle, Sys.schedule, ht, bind, Except.bind, Sys.resume_eq]
          rw [if_pos (by exact hcall)]
        · rw [Sys.tidied_cpu]
          apply Function.update_self
        · intro y
          have hproc := s.view.dispatch_stays hs c y
          rw [← hview, ← Sys.tidied_view] at hproc
          exact hproc
      · cases hp
  | _ => cases hp

/-- A pass of `wait` is seen as one. -/
theorem passes_of_waits
    {p : Slot} (hstep : kernel.step s l = some (.ok s'))
    (hp : s.view.Waits l (s.dispatched l) p) :
  ∃ s₁, s.passes l = some (p, s₁)
  := by
  rcases hp with ⟨c, rfl, hc, hcall⟩ | ⟨c, rfl, hd, hcall⟩
  · refine ⟨s, ?_⟩
    simp only [Sys.passes, show s.cpu c = some p from hc]
    apply if_pos hcall
  · have hidle : ¬ (s.cpu c).isSome = true := by
      intro hsome
      change s.step (.schedule c) = _ at hstep
      simp only [Sys.step, if_pos hsome] at hstep
      cases hstep
    simp only [Sys.passes, if_neg hidle]
    simp only [Sys.dispatched] at hd
    split at hd
    · rename_i p' t ht
      subst hd
      rw [ht]
      exact ⟨_, if_pos hcall⟩
    · cases hd

/-- What a step returns from `wait`, and the slots that it frees. -/
theorem Inv.waitReturns_spec (h : Inv s) (hstep : kernel.step s l = some (.ok s')) :
  (∃ p x, s.waitReturns l = some (p, (s.pt.proc x).pid.toInt32) ∧
    (s.pt.proc x).state = .zombie ∧ (s.pt.proc x).parent = some p ∧
    (s'.pt.proc x).state = .unused ∧
    ∀ y, y ≠ x → (s.pt.proc y).state = .zombie → (s'.pt.proc y).state ≠ .unused) ∨
  (∀ x, (s.pt.proc x).state = .zombie → (s'.pt.proc x).state ≠ .unused) ∧
    (s.waitReturns l = none ∨ ∃ p, s.waitReturns l = some (p, -1) ∧
      (s.hasKids p = false ∨ (s.pt.proc p).killed = true))
  := by
  cases hpass : s.passes l with
  | none =>
    right
    constructor
    · intro x hx hx'
      rcases (turns_of_step h (h.view_step hstep) x).zombie hx with ⟨hz, -⟩ | ⟨p, hp, -⟩
      · cases hz.symm.trans hx'
      · obtain ⟨s₁, hs₁⟩ := passes_of_waits hstep hp
        cases hpass.symm.trans hs₁
    · left
      simp only [Sys.waitReturns, hpass]
  | some r =>
    obtain ⟨p, s₁⟩ := r
    obtain ⟨c, hstep', hinv, hc, hsame⟩ := h.passes_spec hpass
    obtain ⟨q, hq⟩ := hinv.good
    rw [hstep', Option.some.injEq, Sys.wait] at hstep
    have hzombie : ∀ y, (s₁.pt.proc y).state = .zombie ↔ (s.pt.proc y).state = .zombie := by
      intro y
      rw [zombie_iff_stage, zombie_iff_stage, (hsame y).1.stage]
    have hused : ∀ y, (s₁.pt.proc y).state ≠ .unused ↔ (s.pt.proc y).state ≠ .unused := by
      intro y
      rw [ne_eq, ne_eq, unused_iff_stage, unused_iff_stage, (hsame y).1.stage]
    -- a slot that the pass leaves alone is not freed
    have hkeeps : ∀ y, (s.pt.proc y).state = .zombie →
        (s'.pt.proc y) = s₁.pt.proc y → (s'.pt.proc y).state ≠ .unused := by
      intro y hy heq
      rw [heq, (hzombie y).mpr hy]
      simp
    rcases wait_spec hq (hinv.running c p hc) with ⟨x, t', hw, hz, hpar, hproc, honly, -⟩ |
      ⟨hno, ⟨hw, hkids⟩ | ⟨t', hw, ht', -⟩⟩
    · rw [hw] at hstep
      obtain rfl := Except.ok.inj hstep
      left
      refine ⟨p, x, ?_, (hzombie x).mp hz, (hsame x).2.1.symm.trans hpar, ?_, ?_⟩
      · simp only [Sys.waitReturns, hpass, hw, WaitResult.value, (hsame x).1.pid, Option.map_some]
      · change (t'.proc x).state = .unused
        rw [hproc]
        rfl
      · intro y hy hs
        apply hkeeps y hs
        apply honly.others y hy
    · rw [hw] at hstep
      obtain rfl := Except.ok.inj hstep
      right
      constructor
      · intro x hx
        apply hkeeps x hx rfl
      right
      refine ⟨p, ?_, ?_⟩
      · simp only [Sys.waitReturns, hpass, hw, WaitResult.value, Option.map_some]
      · rcases hkids with hkids | hkilled
        · left
          rw [Sys.hasKids, decide_eq_false_iff_not]
          rintro ⟨x, hx, hpar⟩
          apply hkids x ((hused x).mpr hx)
          rw [(hsame x).2.1, hpar]
        · right
          rw [← (hsame p).2.2, hkilled]
    · rw [hw] at hstep
      obtain rfl := Except.ok.inj hstep
      right
      constructor
      · intro x hx
        obtain ⟨t'', ht'', -, -, honly⟩ := sleep_spec hq (hinv.running c p hc) (.proc p)
        rw [ht', Except.ok.injEq] at ht''
        subst ht''
        apply hkeeps x hx
        apply honly.others
        rintro rfl
        cases ((hzombie x).mpr hx).symm.trans (hinv.running c x hc)
      · left
        simp only [Sys.waitReturns, hpass, hw, WaitResult.value, Option.map_none]

/-- The slot that a step frees belongs to the process that `wait` returns. -/
theorem WaitHistory.return?_spec
    (h : Inv s) (hstep : kernel.step s l = some (.ok s')) (g : WaitHistory) :
  (∃ x r, g.return? s l s' = some r ∧ r.child = some (g.process s x) ∧
    r.parent = some r.caller ∧ r.value = (s.pt.proc x).pid.toInt32 ∧
    (s.pt.proc x).state = .zombie ∧ (s'.pt.proc x).state = .unused ∧
    ∀ y, y ≠ x → (s.pt.proc y).state = .zombie → (s'.pt.proc y).state ≠ .unused) ∨
  (∀ x, (s.pt.proc x).state = .zombie → (s'.pt.proc x).state ≠ .unused) ∧
    ∀ r, g.return? s l s' = some r →
      r.child = none ∧ r.value = -1 ∧ (r.kids = false ∨ r.killed = true)
  := by
  rcases h.waitReturns_spec hstep with ⟨p, x, hret, hz, hpar, hx', hothers⟩ | ⟨hno, hret⟩
  · left
    have hfreed : s.freedSlot s' = some x := by
      cases hf : s.freedSlot s' with
      | none =>
        rw [Sys.freedSlot, List.find?_eq_none] at hf
        have hx := hf x (List.mem_finRange x)
        simp [hz, hx'] at hx
      | some y =>
        have hy := List.find?_some hf
        simp only [decide_eq_true_eq] at hy
        by_contra hne
        apply hothers y _ hy.1 hy.2
        rintro rfl
        apply hne rfl
    have hr : g.return? s l s' = some ⟨p, (s.pt.proc x).pid.toInt32, some (g.process s x), some p,
        s.hasKids p, (s.pt.proc p).killed⟩ := by
      rw [WaitHistory.return?, hret, Option.map_some, hfreed, Option.map_some, Option.bind_some,
        hpar]
    exact ⟨x, _, hr, rfl, rfl, rfl, hz, hx', hothers⟩
  · right
    use hno
    intro r hr
    have hfreed : s.freedSlot s' = none := by
      rw [Sys.freedSlot, List.find?_eq_none]
      intro x _
      simp only [decide_eq_true_eq, not_and]
      apply hno x
    rcases hret with hret | ⟨p, hret, hcase⟩
    · rw [WaitHistory.return?, hret] at hr
      cases hr
    · have hr' : g.return? s l s' = some ⟨p, -1, none, none, s.hasKids p,
          (s.pt.proc p).killed⟩ := by
        rw [WaitHistory.return?, hret, Option.map_some, hfreed, Option.map_none, Option.bind_none]
      obtain rfl := Option.some.inj (hr.symm.trans hr')
      exact ⟨rfl, rfl, hcase⟩

/-! ### The account of the processes that exited -/

/-- What has become of a process that exited. -/
inductive Fate (s : Sys) (g : WaitHistory) (e : Process) : Prop where
  /-- It was reaped, and its slot was allocated again since. -/
  | past (hmem : e ∈ g.reaped) (hlife : e.life < g.life e.slot)
  /-- It was reaped, and its slot is free. -/
  | freed (hmem : e ∈ g.reaped) (hlife : e.life = g.life e.slot)
      (hs : (s.pt.proc e.slot).state = .unused)
  /-- It is a zombie. -/
  | zombie (hmem : e ∉ g.reaped) (hs : (s.pt.proc e.slot).state = .zombie)
      (he : e = g.process s e.slot)

/-- The history accounts for every process that exited. -/
structure Accounts (s : Sys) (g : WaitHistory) : Prop where
  zombie : ∀ x, (s.pt.proc x).state = .zombie → g.process s x ∈ g.exited
  fate : ∀ e ∈ g.exited, Fate s g e
  reaped : ∀ e ∈ g.reaped, e ∈ g.exited
  reaped_nodup : g.reaped.Nodup
  exited_nodup : g.exited.Nodup
  child : ∀ r ∈ g.returns, ∀ e, r.child = some e →
    r.parent = some r.caller ∧ r.value = e.pid.toInt32
  childless : ∀ r ∈ g.returns, r.child = none →
    r.value = -1 ∧ (r.kids = false ∨ r.killed = true)

/-- A process that exits is not yet in the account. -/
theorem Accounts.not_mem_exited
    {g : WaitHistory} (h : Accounts s g) {x : Slot} (hx : Active (s.pt.proc x).state) :
  g.process s x ∉ g.exited
  := by
  intro hmem
  rcases h.fate _ hmem with ⟨-, hlt⟩ | ⟨-, -, hs⟩ | ⟨-, hs, -⟩
  · exact lt_irrefl _ hlt
  all_goals
    change (s.pt.proc x).state = _ at hs
    rw [hs] at hx
    simp [Active] at hx

/-- A zombie has not been reaped. -/
theorem Accounts.not_mem_reaped
    {g : WaitHistory} (h : Accounts s g) {x : Slot} (hx : (s.pt.proc x).state = .zombie) :
  g.process s x ∉ g.reaped
  := by
  intro hmem
  rcases h.fate _ (h.zombie x hx) with ⟨-, hlt⟩ | ⟨-, -, hs⟩ | ⟨hno, -⟩
  · exact lt_irrefl _ hlt
  · cases hx.symm.trans hs
  · apply hno hmem

/-- The process that exits in a step runs before the step and is a zombie after it. -/
theorem WaitHistory.exits_spec
    (h : Inv s) (hstep : kernel.step s l = some (.ok s')) {g : WaitHistory} {e : Process}
    (he : g.exits s l = some e) :
  ∃ x, e = g.process s x ∧ (s.pt.proc x).state = .running ∧ (s'.pt.proc x).state = .zombie ∧
    (s'.pt.proc x).pid = (s.pt.proc x).pid
  := by
  cases l with
  | exit c =>
    rw [WaitHistory.exits, Option.map_eq_some_iff] at he
    obtain ⟨x, hc, rfl⟩ := he
    obtain ⟨hview, -⟩ := ((h.view_step hstep).stepOn rfl hc).exit_eq
    have hproc : s'.pt.proc = (s.view.exit c x).proc := congrArg View.proc hview
    refine ⟨x, rfl, h.running c x hc, ?_, ?_⟩
    · rw [hproc]
      apply View.exit_state_self
    · rw [hproc, View.exit, View.leave_proc_self]
      apply (Stays.bereaved s.view x _).pid
  | _ => cases he

/-- A slot that is in use before a step, or free after it, is not allocated in the step. -/
theorem WaitHistory.update_life_of_not
    {g : WaitHistory} {x : Slot}
    (h : (s.pt.proc x).state ≠ .unused ∨ (s'.pt.proc x).state = .unused) :
  (g.update s l s').life x = g.life x
  := by
  apply if_neg
  rintro ⟨hs, hs'⟩
  rcases h with h | h
  · apply h hs
  · apply hs' h

theorem WaitHistory.update_reaped (g : WaitHistory) :
  (g.update s l s').reaped = ((g.return? s l s').bind (·.child)).toList ++ g.reaped
  := by
  rw [WaitHistory.reaped, WaitHistory.update, List.filterMap_append]
  cases hr : g.return? s l s' with
  | none => rfl
  | some r =>
    cases hc : r.child with
    | none | some e => simp [hc, WaitHistory.reaped]

/-- The process that `wait` returns in a step is the zombie whose slot the step frees. -/
theorem WaitHistory.child_spec
    (h : Inv s) (hstep : kernel.step s l = some (.ok s')) (g : WaitHistory) (e : Process) :
  (g.return? s l s').bind (·.child) = some e ↔
    ∃ x, e = g.process s x ∧ (s.pt.proc x).state = .zombie ∧ (s'.pt.proc x).state = .unused
  := by
  rcases g.return?_spec h hstep with ⟨x, r, hr, hchild, -, -, hz, hx', hothers⟩ | ⟨hno, hret⟩
  · rw [hr, Option.bind_some, hchild, Option.some.injEq]
    constructor
    · rintro rfl
      exact ⟨x, rfl, hz, hx'⟩
    · rintro ⟨y, rfl, hy, hy'⟩
      by_contra hne
      apply hothers y _ hy hy'
      rintro rfl
      apply hne rfl
  · constructor
    · intro hc
      obtain ⟨r, hr, hchild⟩ := Option.bind_eq_some_iff.mp hc
      cases (hret r hr).1.symm.trans hchild
    · rintro ⟨y, -, hy, hy'⟩
      cases hno y hy hy'

/-- What becomes of a process that exited before, in a step. -/
theorem Fate.step
    {g : WaitHistory} {e : Process} (h : Fate s g e) (hinv : Inv s)
    (hstep : kernel.step s l = some (.ok s')) :
  Fate s' (g.update s l s') e
  := by
  have hmono : ∀ e ∈ g.reaped, e ∈ (g.update s l s').reaped := by
    intro e he
    rw [g.update_reaped]
    apply List.mem_append_right _ he
  cases h with
  | past hmem hlife =>
    apply Fate.past (hmono e hmem)
    simp only [WaitHistory.update]
    split
    · omega
    · exact hlife
  | freed hmem hlife hs =>
    by_cases hs' : (s'.pt.proc e.slot).state = .unused
    · apply Fate.freed (hmono e hmem) _ hs'
      rw [WaitHistory.update_life_of_not (.inr hs'), hlife]
    · apply Fate.past (hmono e hmem)
      simp only [WaitHistory.update, if_pos (And.intro hs hs')]
      omega
  | zombie hmem hs he =>
    have hlife : (g.update s l s').life e.slot = g.life e.slot := by
      apply WaitHistory.update_life_of_not
      left
      rw [hs]
      simp
    have hlife' : e.life = g.life e.slot := congrArg Process.life he
    by_cases hs' : (s'.pt.proc e.slot).state = .unused
    · apply Fate.freed _ (hlife'.trans hlife.symm) hs'
      rw [g.update_reaped]
      apply List.mem_append_left
      rw [Option.mem_toList, g.child_spec hinv hstep]
      exact ⟨e.slot, he, hs, hs'⟩
    · rcases (turns_of_step hinv (hinv.view_step hstep) e.slot).zombie hs with
        ⟨hz, hpid⟩ | ⟨p, -, hz⟩
      swap
      · cases hs' hz
      apply Fate.zombie _ hz
      · rw [WaitHistory.process, hlife, show (s'.pt.proc e.slot).pid = _ from hpid]
        exact he
      · rw [g.update_reaped, List.mem_append, not_or]
        refine ⟨?_, hmem⟩
        rw [Option.mem_toList, g.child_spec hinv hstep]
        rintro ⟨y, rfl, -, hy'⟩
        apply hs' hy'

/-- A step keeps the account. -/
theorem Accounts.step
    {g : WaitHistory} (h : Accounts s g) (hinv : Inv s) (hstep : kernel.step s l = some (.ok s')) :
  Accounts s' (g.update s l s')
  := by
  have hexited : (g.update s l s').exited = (g.exits s l).toList ++ g.exited := rfl
  have hsame : ∀ x, (s.pt.proc x).state ≠ .unused → (s'.pt.proc x).pid = (s.pt.proc x).pid →
      (g.update s l s').process s' x = g.process s x := by
    intro x hx hpid
    rw [WaitHistory.process, WaitHistory.process, WaitHistory.update_life_of_not (.inl hx), hpid]
  have hreaped : ∀ e ∈ (g.update s l s').reaped, e ∈ g.reaped ∨
      ∃ x, e = g.process s x ∧ (s.pt.proc x).state = .zombie := by
    intro e he
    rw [g.update_reaped, List.mem_append, Option.mem_toList,
      g.child_spec hinv hstep] at he
    rcases he with ⟨x, rfl, hx, -⟩ | he
    · exact .inr ⟨x, rfl, hx⟩
    · exact .inl he
  constructor
  · intro x hx
    rw [hexited, List.mem_append]
    rcases turns_of_step hinv (hinv.view_step hstep) x with
      hstay | ⟨-, hx', -⟩ | ⟨-, hx'⟩ | ⟨-, hx', -⟩ | ⟨c, rfl, hc, hact, -, hpid⟩ | ⟨p, -, -, hx', -⟩
    · have hz : (s.pt.proc x).state = .zombie := by
        rw [zombie_iff_stage]
        exact hstay.stage.symm.trans (zombie_iff_stage.mp hx)
      right
      rw [hsame x (by rw [hz]; simp) hstay.pid]
      apply h.zombie x hz
    · cases hx.symm.trans hx'
    · cases hx.symm.trans hx'
    · rw [show (s'.view.proc x).state = _ from hx] at hx'
      simp [Active] at hx'
    · left
      have hused : (s.pt.proc x).state ≠ .unused := by
        intro hs
        rw [show (s.view.proc x).state = _ from hs] at hact
        simp [Active] at hact
      rw [hsame x hused hpid, Option.mem_toList, WaitHistory.exits,
        show s.cpu c = some x from hc, Option.map_some]
    · cases hx.symm.trans hx'
  · intro e he
    rw [hexited, List.mem_append, Option.mem_toList] at he
    rcases he with he | he
    · obtain ⟨x, rfl, hrun, hz, hpid⟩ := WaitHistory.exits_spec hinv hstep he
      apply Fate.zombie _ hz
      · symm
        apply hsame x _ hpid
        rw [hrun]
        simp
      · intro hmem
        rcases hreaped _ hmem with hmem | ⟨y, hy, hy'⟩
        · apply h.not_mem_exited (.inr (.inr hrun)) (h.reaped _ hmem)
        · obtain rfl : x = y := congrArg Process.slot hy
          cases hrun.symm.trans hy'
    · apply (h.fate e he).step hinv hstep
  · intro e he
    rw [hexited, List.mem_append]
    right
    rcases hreaped e he with he | ⟨x, rfl, hx⟩
    · apply h.reaped e he
    · apply h.zombie x hx
  · rw [g.update_reaped]
    cases hc : (g.return? s l s').bind (·.child) with
    | none => exact h.reaped_nodup
    | some e =>
      obtain ⟨x, rfl, hx, -⟩ := (g.child_spec hinv hstep e).mp hc
      apply List.Nodup.cons (h.not_mem_reaped hx) h.reaped_nodup
  · rw [hexited]
    cases he : g.exits s l with
    | none => exact h.exited_nodup
    | some e =>
      obtain ⟨x, rfl, hrun, -⟩ := WaitHistory.exits_spec hinv hstep he
      apply List.Nodup.cons (h.not_mem_exited (.inr (.inr hrun))) h.exited_nodup
  · intro r hr e he
    rw [WaitHistory.update, List.mem_append, Option.mem_toList] at hr
    rcases hr with hr | hr
    · rcases g.return?_spec hinv hstep with ⟨x, r', hr', hchild, hparent, hvalue, -⟩ | ⟨-, hret⟩
      · obtain rfl := Option.some.inj (hr.symm.trans hr')
        obtain rfl := Option.some.inj (hchild.symm.trans he)
        exact ⟨hparent, hvalue⟩
      · cases (hret r hr).1.symm.trans he
    · apply h.child r hr e he
  · intro r hr hnone
    rw [WaitHistory.update, List.mem_append, Option.mem_toList] at hr
    rcases hr with hr | hr
    · rcases g.return?_spec hinv hstep with ⟨x, r', hr', hchild, -⟩ | ⟨-, hret⟩
      · obtain rfl := Option.some.inj (hr.symm.trans hr')
        cases hchild.symm.trans hnone
      · exact (hret r hr).2
    · apply h.childless r hr hnone

end

/-! ### Returns of `wait` in every run -/

/-- The kernel with the history. -/
def recorded : System (Sys × WaitHistory) Label Fault :=
  kernel.observe (fun _ => .start) WaitHistory.update

/-- A step does not give out the pid that is `-1` as an `int`. -/
def PidInRange (x : Sys × WaitHistory) (l : Label) : Prop :=
  l.allocates = true → x.1.pt.nextpid ≠ 0xffffffff

instance (x : Sys × WaitHistory) (l : Label) : Decidable (PidInRange x l) :=
  inferInstanceAs (Decidable (_ → _))

/-- The history accounts for the processes, and no process has the pid that is `-1`. -/
structure Numbered (s : Sys) (g : WaitHistory) : Prop where
  accounts : Accounts s g
  pid : ∀ x, (s.pt.proc x).state ≠ .unused → (s.pt.proc x).pid ≠ 0xffffffff
  exited : ∀ e ∈ g.exited, e.pid ≠ 0xffffffff

theorem accounts_start {s : Sys} (h : Booted s) :
  Accounts s .start
  := by
  constructor
  · intro x hx
    rw [h.proc_eq] at hx
    cases hx
  · intro e he
    cases he
  · intro e he
    cases he
  · exact List.nodup_nil
  · exact List.nodup_nil
  · intro r hr
    cases hr
  · intro r hr
    cases hr

theorem Numbered.step
    {s s' : Sys} {g : WaitHistory} {l : Label} (h : Numbered s g) (hinv : Inv s)
    (hok : PidInRange (s, g) l) (hstep : kernel.step s l = some (.ok s')) :
  Numbered s' (g.update s l s')
  := by
  refine ⟨h.accounts.step hinv hstep, ?_, ?_⟩
  · intro x hx
    rcases (turns_of_step hinv (hinv.view_step hstep) x).used hx with ⟨hs, hpid⟩ | ⟨hpid, hl⟩
    · rw [show (s'.pt.proc x).pid = _ from hpid]
      apply h.pid x hs
    · rw [show (s'.pt.proc x).pid = _ from hpid]
      apply hok hl
  · intro e he
    rw [WaitHistory.update, List.mem_append, Option.mem_toList] at he
    rcases he with he | he
    · obtain ⟨x, rfl, hrun, -⟩ := WaitHistory.exits_spec hinv hstep he
      apply h.pid
      rw [hrun]
      simp
    · apply h.exited e he

theorem numbered_of_reach {x : Sys × WaitHistory} (h : recorded.Reach PidInRange x) :
  Numbered x.1 x.2
  := by
  apply h.observe_invariant
  · intro s hs
    refine ⟨accounts_start hs, ?_, ?_⟩
    · intro x hx
      rw [hs.proc_eq] at hx
      cases hx rfl
    · intro e he
      cases he
  · intro s g l s' hreach hI hok hstep
    apply hI.step (inv_of_reachable hreach) hok hstep

theorem pid_of_toInt32 {pid : UInt32} (h : pid.toInt32 = -1) :
  pid = 0xffffffff
  := by
  have hpid := congrArg Int32.toUInt32 h
  rw [UInt32.toUInt32_toInt32] at hpid
  exact hpid

/-- Every exited child is reaped once and never missed.  In every run in which the pid that is
`-1` as an `int` is not given out: each process that exits is returned by at most one call of
`wait`, made by its parent at that time, which returns its pid, and until then it is a zombie;
`wait` returns `-1` only if the caller has no child or is killed; and no process sleeps in `wait`
while it has a zombie child. -/
theorem wait_reaps_once {x : Sys × WaitHistory} (h : recorded.Reach PidInRange x) :
  x.2.exited.Nodup ∧ (x.2.returns.filterMap (·.child)).Nodup ∧
  (∀ r ∈ x.2.returns, ∀ e, r.child = some e →
    e ∈ x.2.exited ∧ r.parent = some r.caller ∧ r.value = e.pid.toInt32) ∧
  (∀ r ∈ x.2.returns, r.child = none → r.value = -1) ∧
  (∀ r ∈ x.2.returns, r.value = -1 → r.kids = false ∨ r.killed = true) ∧
  (∀ e ∈ x.2.exited, (∃ r ∈ x.2.returns, r.child = some e) ∨
    (x.1.pt.proc e.slot).state = .zombie ∧ e = x.2.process x.1 e.slot) ∧
  ∀ p, (x.1.thread p).call = .waiting → (x.1.pt.proc p).state = .sleeping →
    (x.1.pt.proc p).chan = .proc p ∧
      ∀ y, (x.1.pt.proc y).state = .zombie → (x.1.pt.proc y).parent ≠ some p
  := by
  obtain ⟨hacc, -, hpid⟩ := numbered_of_reach h
  refine ⟨hacc.exited_nodup, hacc.reaped_nodup, ?_, ?_, ?_, ?_, ?_⟩
  · intro r hr e he
    obtain ⟨hparent, hvalue⟩ := hacc.child r hr e he
    exact ⟨hacc.reaped e (List.mem_filterMap.mpr ⟨r, hr, he⟩), hparent, hvalue⟩
  · intro r hr hnone
    exact (hacc.childless r hr hnone).1
  · intro r hr hvalue
    cases hchild : r.child with
    | none => exact (hacc.childless r hr hchild).2
    | some e =>
      have he := hacc.reaped e (List.mem_filterMap.mpr ⟨r, hr, hchild⟩)
      rw [(hacc.child r hr e hchild).2] at hvalue
      cases hpid e he (pid_of_toInt32 hvalue)
  · intro e he
    rcases hacc.fate e he with ⟨hmem, -⟩ | ⟨hmem, -⟩ | ⟨-, hs, heq⟩
    · exact .inl (List.mem_filterMap.mp hmem)
    · exact .inl (List.mem_filterMap.mp hmem)
    · exact .inr ⟨hs, heq⟩
  · intro p hcall hs
    rcases parked_of_reachable h.observed p hcall with hs' | ⟨-, hchan, hno⟩
    · cases hs.symm.trans hs'
    · exact ⟨hchan, hno⟩

theorem recorded_init :
  recorded.init (firstSys, .start)
  := ⟨booted_firstSys, rfl⟩

/-- `init` forks, its child exits, and `init` waits. -/
def forkWaitRun : List Label :=
  forkRun ++ [.exitClose 1, .exit 1, .wait 0]

/-- `init` forks, its child exits, and `wait` of `init` returns the pid of the child. -/
theorem wait_reaps_once_of_init :
  ∃ x, recorded.Reach PidInRange x ∧ ∃ r ∈ x.2.returns, ∃ e, r.child = some e ∧ r.caller = 0 ∧
    r.value = 2 ∧ e ∈ x.2.exited
  := by
  obtain ⟨x, hreach, r, hr, hchild, hcaller, hvalue⟩ := System.exists_of_guard PidInRange
    recorded recorded_init forkWaitRun
    (fun x => ∃ r ∈ x.2.returns, r.child.isSome = true ∧ r.caller = 0 ∧ r.value = 2)
    (by decide +kernel)
  obtain ⟨e, he⟩ := Option.isSome_iff_exists.mp hchild
  exact ⟨x, hreach, r, hr, e, he, hcaller, hvalue, ((wait_reaps_once hreach).2.2.1 r hr e he).1⟩

/-! ### The pid that is `-1` -/

theorem recorded_step
    {s s' : Sys} {g : WaitHistory} {l : Label} (h : recorded.Reachable (s, g))
    (hstep : kernel.step s l = some (.ok s')) :
  recorded.Reachable (s', g.update s l s')
  := by
  apply System.Reach.step h trivial
  apply System.observe_step.mpr
  exact ⟨hstep, rfl⟩

/-- `init` runs alone, in user mode. -/
structure InitAlone (v : View) : Prop where
  cpu : v.cpu 0 = some 0
  idle : v.cpu 1 = none
  call : (v.thread 0).call = .user
  others : ∀ x, x ≠ 0 → (v.proc x).state = .unused
  initproc : v.initproc = some 0
  killed : (v.proc 0).killed = false

namespace InitAlone

/-- After the start `init` runs alone. -/
theorem of_initRun :
  ∃ s g, recorded.Reachable (s, g) ∧ InitAlone s.view ∧ s.pt.nextpid = 2
  := by
  obtain ⟨⟨s, g⟩, -, hreach, hpid, hcpu, hidle, hcall, hothers, hinit, hkilled⟩ :=
    System.exists_of_run recorded recorded_init initRun (fun x =>
      x.1.pt.nextpid = 2 ∧ x.1.cpu 0 = some 0 ∧ x.1.cpu 1 = none ∧ (x.1.thread 0).call = .user ∧
      (∀ y : Slot, y ≠ 0 → (x.1.pt.proc y).state = .unused) ∧ x.1.pt.initproc = some 0 ∧
      (x.1.pt.proc 0).killed = false) (by decide +kernel)
  exact ⟨s, g, hreach, ⟨hcpu, hidle, hcall, hothers, hinit, hkilled⟩, hpid⟩

variable {s : Sys} {g : WaitHistory}

section

variable (h : InitAlone s.view) (hreach : recorded.Reachable (s, g))

include h hreach

/-- `allocproc` in `fork` of `init` takes a free slot. -/
theorem allocproc :
  ∃ np s' g', recorded.Reachable (s', g') ∧ np ≠ 0 ∧ s'.cpu 0 = some 0 ∧
    (s'.thread 0).call = .alloc np ∧ s'.view = (s.view.alloc np).setCall 0 (.alloc np)
  := by
  have hinv := inv_of_reachable hreach.observed
  have hcpu : s.cpu 0 = some 0 := h.cpu
  have hcall : (s.thread 0).call = .user := h.call
  cases hhead : (s.pt.list .unused).head with
  | none => cases hinv.no_unused_of_head hhead 1 (h.others 1 (by decide))
  | some np =>
    have hnp := hinv.unused_of_head hhead
    obtain ⟨q, hq⟩ := hinv.good
    obtain ⟨t', ht', -, hview⟩ := hq.allocLocked_view hnp
    have hstep : kernel.step s (.allocproc 0) =
        some (.ok (Sys.setCall { s with pt := t' } 0 (.alloc np))) := by
      simp only [kernel, Sys.step, hcpu, Sys.stepOn, if_pos hcall, hhead, Sys.allocLock, ht', bind,
        Except.bind]
    refine ⟨np, _, _, recorded_step hreach hstep, ?_, hcpu, by simp [Sys.setCall], ?_⟩
    · rintro rfl
      cases (hinv.running 0 0 hcpu).symm.trans hnp
    · exact congrArg (fun v => View.setCall v 0 (.alloc np)) hview

/-- A `fork` of `init` that finds no memory takes a pid. -/
theorem failedFork :
  ∃ s' g', recorded.Reachable (s', g') ∧ InitAlone s'.view ∧
    s'.pt.nextpid = s.pt.nextpid + 1
  := by
  obtain ⟨np, s₁, g₁, hreach₁, hnp, hcpu₁, hcall₁, hview₁⟩ := h.allocproc hreach
  have hinv₁ := inv_of_reachable hreach₁.observed
  obtain ⟨q, hq⟩ := hinv₁.good
  obtain ⟨t', ht', -, hview⟩ := hq.rollback_view (p := 0) (hinv₁.embryo_of_call hcall₁ rfl)
  have hstep : kernel.step s₁ (.kalloc 0 false) =
      some (.ok (Sys.setCall { s₁ with pt := t' } 0 .user)) := by
    simp only [kernel, Sys.step, hcpu₁, Sys.stepOn, hcall₁, Sys.kalloc, Bool.false_eq_true,
      if_false, ht', bind, Except.bind]
  have hothers : ∀ x, x ≠ np →
      (((s₁.view.modify np View.rolledBack).setCall 0 .user).proc x) = s.view.proc x := by
    intro x hx
    rw [View.setCall_proc, View.modify_proc_of_ne _ _ hx, hview₁, View.setCall_proc,
      View.alloc_proc_of_ne _ hx]
  refine ⟨_, _, recorded_step hreach₁ hstep, ?_, ?_⟩
  · rw [hview]
    refine ⟨hcpu₁, ?_, ?_, ?_, ?_, ?_⟩
    · rw [hview₁]
      exact h.idle
    · rw [View.setCall, View.setThread_thread_self]
    · intro x hx
      rcases eq_or_ne x np with rfl | hne
      · rw [View.setCall_proc, View.modify_proc_self]
        rfl
      · rw [hothers x hne]
        apply h.others x hx
    · rw [hview₁]
      exact h.initproc
    · rw [hothers 0 hnp.symm]
      exact h.killed
  · change (Sys.setCall { s₁ with pt := t' } 0 .user).view.nextpid = _
    rw [hview, hview₁]
    rfl

/-- After enough failing calls of `fork` the next pid is any number. -/
theorem failedForks (n : Nat) :
  ∃ s' g', recorded.Reachable (s', g') ∧ InitAlone s'.view ∧
    s'.pt.nextpid = s.pt.nextpid + UInt32.ofNat n
  := by
  induction n with
  | zero => exact ⟨s, g, hreach, h, (UInt32.add_zero _).symm⟩
  | succ n ih =>
    obtain ⟨s₁, g₁, hreach₁, h₁, hpid₁⟩ := ih
    obtain ⟨s₂, g₂, hreach₂, h₂, hpid₂⟩ := h₁.failedFork hreach₁
    refine ⟨s₂, g₂, hreach₂, h₂, ?_⟩
    rw [hpid₂, hpid₁, UInt32.ofNat_add, UInt32.add_assoc]
    rfl

end

end InitAlone

/-- `init` runs in user mode and has one child, in the slot `np`. -/
structure InitParent (v : View) (np : Slot) (pid : UInt32) (st : ProcState) : Prop where
  ne : np ≠ 0
  cpu : v.cpu 0 = some 0
  call : (v.thread 0).call = .user
  others : ∀ x, x ≠ 0 → x ≠ np → (v.proc x).state = .unused
  initproc : v.initproc = some 0
  killed : (v.proc 0).killed = false
  state : (v.proc np).state = st
  parent : (v.proc np).parent = some 0
  pid : (v.proc np).pid = pid

/-- `fork` of `init`. -/
theorem InitAlone.fork
    {s : Sys} {g : WaitHistory} (h : InitAlone s.view) (hreach : recorded.Reachable (s, g)) :
  ∃ np s' g', recorded.Reachable (s', g') ∧ InitParent s'.view np s.pt.nextpid .runnable ∧
    s'.cpu 1 = none ∧ s'.thread np = ⟨.user, false⟩
  := by
  obtain ⟨np, s₁, g₁, hreach₁, hnp, hcpu₁, hcall₁, hview₁⟩ := h.allocproc hreach
  -- memory is found for the kernel stack and for the copy of the address space
  obtain ⟨s₂, hs₂⟩ : ∃ s₂, s₂ = (Sys.setCall { s₁ with pt := allocSetup s₁.pt np } np .user).setCall
      0 (.setup np) := ⟨_, rfl⟩
  have hstep₂ : kernel.step s₁ (.kalloc 0 true) = some (.ok s₂) := by
    simp only [kernel, Sys.step, hcpu₁, Sys.stepOn, hcall₁, Sys.kalloc, if_true, hs₂]
  obtain ⟨s₃, hs₃⟩ : ∃ s₃, s₃ = Sys.setCall { s₂ with pt := forkFill s₂.pt 0 np } 0 (.filled np) :=
    ⟨_, rfl⟩
  have hcpu₂ : s₂.cpu 0 = some 0 := by
    rw [hs₂]
    exact hcpu₁
  have hstep₃ : kernel.step s₂ (.copyuvm 0 true) = some (.ok s₃) := by
    have hcall₂ : (s₂.thread 0).call = .setup np := by
      simp [hs₂, Sys.setCall]
    simp only [kernel, Sys.step, hcpu₂, Sys.stepOn, hcall₂, Sys.copyuvm, if_true, hs₃]
  have hreach₃ := recorded_step (recorded_step hreach₁ hstep₂) hstep₃
  have hcall₃ : (s₃.thread 0).call = .filled np := by
    simp [hs₃, Sys.setCall]
  have hcpu₃ : s₃.cpu 0 = some 0 := by
    rw [hs₃]
    exact hcpu₂
  have hview₃ : s₃.view = ((((s₁.view.modify np View.preparedProc).setCall np .user).setCall 0
      (.setup np)).modify np (View.filledProc 0 (s₂.view.proc 0))).setCall 0 (.filled np) := by
    rw [hs₃, hs₂]
    rfl
  have hinv₃ := inv_of_reachable hreach₃.observed
  obtain ⟨q, hq⟩ := hinv₃.good
  obtain ⟨t', ht', -, hview₄⟩ := hinv₃.forkEnqueue_view hq hcall₃
  have hstep₄ : kernel.step s₃ (.forkEnqueue 0) =
      some (.ok (Sys.setCall { s₃ with pt := t' } 0 .user)) := by
    simp only [kernel, Sys.step, hcpu₃, Sys.stepOn, hcall₃, ht', bind, Except.bind]
  rw [hview₃, hview₁] at hview₄
  -- the slots other than that of the child stay as they are
  have hothers : ∀ x, x ≠ np →
      ((Sys.setCall { s₃ with pt := t' } 0 .user).view.proc x) = s.view.proc x := by
    intro x hx
    simp only [hview₄, View.setCall_proc, View.modify_proc_of_ne _ _ hx, View.alloc_proc_of_ne _ hx]
  have hchild : (Sys.setCall { s₃ with pt := t' } 0 .user).view.proc np =
      { View.filledProc 0 (s₂.view.proc 0) (View.preparedProc
        { s.view.proc np with state := .embryo, pid := s.pt.nextpid }) with
        state := .runnable } := by
    simp only [hview₄, View.setCall_proc, View.modify_proc_self, View.alloc_proc_self]
    rfl
  refine ⟨np, _, _, recorded_step hreach₃ hstep₄, ⟨hnp, hcpu₃, ?_, ?_, ?_, ?_, ?_, ?_, ?_⟩, ?_, ?_⟩
  · rw [hview₄, View.setCall, View.setThread_thread_self]
  · intro x hx hx'
    rw [hothers x hx']
    apply h.others x hx
  · rw [hview₄]
    exact h.initproc
  · rw [hothers 0 hnp.symm]
    exact h.killed
  · rw [hchild]
  · rw [hchild]
    rfl
  · rw [hchild]
    rfl
  · change (Sys.setCall { s₃ with pt := t' } 0 .user).view.cpu 1 = _
    rw [hview₄]
    exact h.idle
  · change (Sys.setCall { s₃ with pt := t' } 0 .user).view.thread np = _
    simp [hview₄, View.setCall, View.setThread, View.modify, hnp]

namespace InitParent

variable {s : Sys} {g : WaitHistory} {np : Slot} {pid : UInt32}

/-- The child gets a processor. -/
theorem schedule
    (h : InitParent s.view np pid .runnable) (hreach : recorded.Reachable (s, g))
    (hidle : s.cpu 1 = none) (hthread : s.thread np = ⟨.user, false⟩) :
  ∃ s' g', recorded.Reachable (s', g') ∧ InitParent s'.view np pid .running ∧
    s'.cpu 1 = some np ∧ (s'.thread np).call = .user
  := by
  have hinv := inv_of_reachable hreach.observed
  obtain ⟨q, hq⟩ := hinv.good
  rcases hinv.scheduler_view hq 1 with ⟨t, -, -, -, hno⟩ | ⟨p, t, ht, -, hview, hp, -⟩
  · cases hno np h.state
  obtain rfl : p = np := by
    by_contra hne
    rcases eq_or_ne p 0 with rfl | hp0
    · cases (hinv.running 0 0 h.cpu).symm.trans hp
    · cases (h.others p hp0 hne).symm.trans hp
  have hstep : kernel.step s (.schedule 1) =
      some (.ok { s with pt := t, cpu := Function.update s.cpu 1 (some p) }) := by
    simp only [kernel, Sys.step, hidle, Option.isSome_none, Bool.false_eq_true, if_false,
      Sys.schedule, ht, bind, Except.bind, Sys.resume, hthread, reduceCtorEq]
  -- the process was not in `sleep`
  have hstays := s.view.dispatch_stays hp 1
  have htidy : (s.view.promote.dispatch 1 p).tidy p = s.view.promote.dispatch 1 p := by
    rw [← hview]
    apply if_neg
    simp [Sys.view, hthread]
  rw [htidy, ← hview] at hstays
  refine ⟨_, _, recorded_step hreach hstep, ⟨h.ne, h.cpu, h.call, ?_, ?_, ?_, ?_, ?_, ?_⟩, ?_, ?_⟩
  · intro x hx hx'
    rw [unused_iff_stage, (hstays x).1.stage, h.others x hx hx']
    rfl
  · rw [hview]
    change s.view.promote.initproc = _
    rw [View.promote]
    split <;> exact h.initproc
  · rw [(hstays 0).2.2]
    exact h.killed
  · rw [hview, View.dispatch_proc_self]
    rfl
  · rw [(hstays p).2.1]
    exact h.parent
  · rw [(hstays p).1.pid]
    exact h.pid
  · change Function.update s.cpu 1 (some p) 1 = _
    apply Function.update_self
  · change (s.thread p).call = _
    rw [hthread]

/-- The child exits. -/
theorem exit
    (h : InitParent s.view np pid .running) (hreach : recorded.Reachable (s, g))
    (hcpu : s.cpu 1 = some np) (hcall : (s.thread np).call = .user) :
  ∃ s' g', recorded.Reachable (s', g') ∧ InitParent s'.view np pid .zombie
  := by
  obtain ⟨s₁, hs₁⟩ : ∃ s₁, s₁ = Sys.setCall { s with
      pt := s.pt.modify np ({ · with ofile := fun _ => none, cwd := none }) } np .exiting :=
    ⟨_, rfl⟩
  have hinit : ¬ s.pt.initproc = some np := by
    rw [show s.pt.initproc = some 0 from h.initproc, Option.some.injEq]
    exact h.ne.symm
  have hstep₁ : kernel.step s (.exitClose 1) = some (.ok s₁) := by
    simp only [kernel, Sys.step, hcpu, Sys.stepOn, if_pos hcall, if_neg hinit, hs₁]
  have hreach₁ := recorded_step hreach hstep₁
  have hinv₁ := inv_of_reachable hreach₁.observed
  have hcpu₁ : s₁.cpu 1 = some np := by
    rw [hs₁]
    exact hcpu
  have hcall₁ : (s₁.thread np).call = .exiting := by
    simp [hs₁, Sys.setCall]
  obtain ⟨q, hq⟩ := hinv₁.good
  obtain ⟨t', q', ht', -⟩ := exit_spec hq (hinv₁.running 1 np hcpu₁)
  have hstep₂ : kernel.step s₁ (.exit 1) = some (.ok (s₁.leave 1 np t' ⟨.user, false⟩)) := by
    simp only [kernel, Sys.step, hcpu₁, Sys.stepOn, if_pos hcall₁, ht', bind, Except.bind]
  obtain ⟨hview, -⟩ := ((hinv₁.view_step hstep₂).stepOn rfl hcpu₁).exit_eq
  -- closing the files changes neither the state nor the family of a slot
  have hclosed : ∀ x, Stays (s.view.proc x) (s₁.view.proc x) ∧
      (s₁.view.proc x).parent = (s.view.proc x).parent ∧
      (s₁.view.proc x).killed = (s.view.proc x).killed := by
    intro x
    rw [hs₁]
    rcases eq_or_ne x np with rfl | hx
    · simp only [Sys.view, Sys.setCall, PTable.modify, Function.update_self]
      exact ⟨⟨rfl, rfl⟩, trivial, trivial⟩
    · simp only [Sys.view, Sys.setCall, PTable.modify, Function.update_of_ne hx]
      exact ⟨.refl _, trivial, trivial⟩
  have hothers : ∀ x, x ≠ np →
      (s₁.view.exit 1 np).proc x = s₁.view.bereaved np (s₁.view.proc x) :=
    fun x hx => View.leave_proc_of_ne _ _ _ _ hx
  refine ⟨_, _, recorded_step hreach₁ hstep₂, ?_⟩
  rw [hview]
  refine ⟨h.ne, ?_, ?_, ?_, ?_, ?_, View.exit_state_self .., ?_, ?_⟩
  · rw [hs₁]
    exact h.cpu
  · change ((s₁.view.setThread np ⟨.user, false⟩).thread 0).call = _
    rw [View.setThread_thread_of_ne _ _ h.ne.symm, hs₁]
    exact (congrArg Thread.call (Function.update_of_ne h.ne.symm ..)).trans h.call
  · intro x hx hx'
    rw [hothers x hx', unused_iff_stage, (Stays.bereaved ..).stage, (hclosed x).1.stage,
      h.others x hx hx']
    rfl
  · rw [hs₁]
    exact h.initproc
  · obtain ⟨st, parent, heq, -⟩ := s₁.view.bereaved_eq np (s₁.view.proc 0)
    rw [hothers 0 h.ne.symm, heq]
    exact (hclosed 0).2.2.trans h.killed
  · rw [(family_of_reachable hreach₁.observed).exit_parent, (hclosed np).2.1, h.parent, if_neg]
    rw [Option.some.injEq]
    exact h.ne.symm
  · rw [View.exit, View.leave_proc_self]
    exact (Stays.bereaved ..).pid.trans ((hclosed np).1.pid.trans h.pid)

/-- `wait` of `init` returns the pid of the child. -/
theorem wait (h : InitParent s.view np pid .zombie) (hreach : recorded.Reachable (s, g)) :
  ∃ x, recorded.Reachable x ∧ ∃ r ∈ x.2.returns,
    r.value = pid.toInt32 ∧ r.kids = true ∧ r.killed = false
  := by
  have hinv := inv_of_reachable hreach.observed
  have hcpu : s.cpu 0 = some 0 := h.cpu
  have hcall : (s.thread 0).call = .user := h.call
  obtain ⟨q, hq⟩ := hinv.good
  rcases wait_spec hq (hinv.running 0 0 hcpu) with ⟨x, t', hw, hz, -⟩ | ⟨hno, -⟩
  · obtain rfl : x = np := by
      by_contra hne
      rcases eq_or_ne x 0 with rfl | hx0
      · cases (hinv.running 0 0 hcpu).symm.trans hz
      · cases (h.others x hx0 hne).symm.trans hz
    have hstep : kernel.step s (.wait 0)
        = some (.ok (Sys.setCall { s with pt := t' } 0 .user)) := by
      simp only [kernel, Sys.step, hcpu, Sys.stepOn, if_pos hcall, Sys.wait, hw, bind, Except.bind]
    refine ⟨_, recorded_step hreach hstep, ?_⟩
    have hret : s.waitReturns (.wait 0) = some (0, (s.pt.proc x).pid.toInt32) := by
      simp only [Sys.waitReturns, Sys.passes, hcpu, if_pos hcall, hw, WaitResult.value,
        Option.map_some]
    have hr := congrArg (Option.map fun r : Slot × Int32 => Return.mk r.1 r.2
      ((s.freedSlot (Sys.setCall { s with pt := t' } 0 .user)).map (g.process s))
      ((s.freedSlot (Sys.setCall { s with pt := t' } 0 .user)).bind fun x => (s.pt.proc x).parent)
      (s.hasKids r.1) (s.pt.proc r.1).killed) hret
    refine ⟨_, List.mem_append_left _ (Option.mem_toList.mpr hr), ?_, ?_, ?_⟩
    · exact congrArg UInt32.toInt32 h.pid
    · apply decide_eq_true
      refine ⟨x, ?_, h.parent⟩
      rw [hz]
      simp
    · exact h.killed
  · cases hno np h.state h.parent

end InitParent

/-- `init` calls `fork` until the next pid is `-1` as an `int`, with no memory for the children.
Then `fork` succeeds, the child exits, and `wait` returns `-1`, although `init` has a child and is
not killed. -/
theorem wait_returns_minus_one :
  ∃ x, recorded.Reachable x ∧ ∃ r ∈ x.2.returns, r.value = -1 ∧ r.kids = true ∧ r.killed = false
  := by
  obtain ⟨s, g, hreach, halone, hpid⟩ := InitAlone.of_initRun
  obtain ⟨s₁, g₁, hreach₁, halone₁, hpid₁⟩ := halone.failedForks hreach 4294967293
  obtain ⟨np, s₂, g₂, hreach₂, hparent₂, hidle₂, hthread₂⟩ := halone₁.fork hreach₁
  obtain ⟨s₃, g₃, hreach₃, hparent₃, hcpu₃, hcall₃⟩ := hparent₂.schedule hreach₂ hidle₂ hthread₂
  obtain ⟨s₄, g₄, hreach₄, hparent₄⟩ := hparent₃.exit hreach₃ hcpu₃ hcall₃
  obtain ⟨x, hreach₅, r, hr, hvalue, hkids, hkilled'⟩ := hparent₄.wait hreach₄
  refine ⟨x, hreach₅, r, hr, ?_, hkids, hkilled'⟩
  rw [hvalue, hpid₁, hpid]
  decide

end Xv6.Ptable
