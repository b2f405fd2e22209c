import Xv6.Proc.Reachable

/-!
# Accounting of processor time

The steps of the kernel that matter for processor time are events: ticks, the end of `allocproc`,
dispatches, calls of `sched`, and resets of budgets.  An `Account` is kept from the events alone:
the number of ticks, when each process was created and last dispatched, and the lengths of its
completed dispatches since it was created and since its budget was last reset.
-/

namespace Xv6.Ptable

open Function (update update_self update_of_ne)

/-! ### Events -/

/-- What the steps of the kernel do to the time of processes. -/
inductive Event where
  | tick
  /-- The end of `allocproc`. -/
  | create (p : Slot)
  | dispatch (c : Cpu) (p : Slot)
  /-- `sched`, called from `yield` or `sleep` if `charged` and otherwise from `exit`. -/
  | sched (c : Cpu) (p : Slot) (charged : Bool)
  /-- The budgets of the slots are set to `BUDGET`. -/
  | reset (ps : List Slot)

/-- What the events say about the time of processes. -/
structure Account where
  /-- The number of ticks. -/
  now : Nat
  /-- When a process was created. -/
  created : Slot → Nat
  /-- When a process was last dispatched. -/
  since : Slot → Nat
  /-- The length of all completed dispatches of a process. -/
  total : Slot → Nat
  /-- The length of the completed dispatches of a process since its last reset: its creation, a
  reset of its budget, or a switch to another process at which this length reached `BUDGET`. -/
  spent : Slot → Nat

namespace Account

/-- The length of the dispatch that ends now. -/
def elapsed (a : Account) (p : Slot) : Nat := a.now - a.since p

/-- The account after an event. -/
def record (a : Account) : Event → Account
  | .tick => { a with now := a.now + 1 }
  | .create p =>
      { a with created := Function.update a.created p a.now
               total := Function.update a.total p 0
               spent := Function.update a.spent p 0 }
  | .dispatch _ p => { a with since := Function.update a.since p a.now }
  | .sched _ p charged =>
      { a with total := Function.update a.total p (a.total p + a.elapsed p)
               spent := if charged then Function.update a.spent p
                   (if BUDGET.toInt ≤ a.spent p + a.elapsed p then 0 else a.spent p + a.elapsed p)
                 else a.spent }
  | .reset ps => { a with spent := fun x => if x ∈ ps then 0 else a.spent x }

end Account

/-- The slots whose budget a promotion resets. -/
def View.visited (v : View) : List Slot :=
  (List.finRange NPROC).filter fun x =>
    (v.proc x).state = .sleeping ∨ (v.proc x).state = .running ∨
      (v.proc x).state = .runnable ∧ (v.proc x).priority < maxPrio

/-- The slots whose priority differs. -/
def View.changed (v v' : View) : List Slot :=
  (List.finRange NPROC).filter fun x => (v'.proc x).priority ≠ (v.proc x).priority

/-- The events of a step from `v` to `v'` that dispatches `d`. -/
def View.events (v : View) (l : Label) (d : Option Slot) (v' : View) : List Event :=
  match l with
  | .tick => [.tick]
  | .schedule c =>
      (if v.Due then [.reset v.visited] else []) ++
        match d with
        | none => []
        | some p => .dispatch c p :: if v'.cpu c = none then [.sched c p true] else []
  | .yield c | .sleep c _ =>
      match v.cpu c with
      | none => []
      | some p => [.sched c p true]
  | .wait c =>
      match v.cpu c with
      | none => []
      | some p => if v'.cpu c = none then [.sched c p true] else []
  | .exit c =>
      match v.cpu c with
      | none => []
      | some p => [.sched c p false]
  | .setpriority _ _ => [.reset (v.changed v')]
  | .kalloc c ok =>
      match v.cpu c with
      | none => []
      | some p =>
          match (v.thread p).call with
          | .alloc np => if ok then [.create np] else []
          | _ => []
  | .bootKalloc ok =>
      match v.boot with
      | .kalloc np => if ok then [.create np] else []
      | _ => []
  | .wakeup _ | .exitClose _ | .kill _ | .allocproc _ | .allocRead _ | .allocLock _ | .copyuvm _ _
  | .forkEnqueue _ | .bootAlloc | .bootSetup _ _ | .bootEnqueue => []

/-- The account after a step. -/
def bookStep (s : Sys) (l : Label) (s' : Sys) (a : Account) : Account :=
  (s.view.events l (s.dispatched l) s'.view).foldl Account.record a

/-- The account at the start. -/
def openBooks (s : Sys) : Account where
  now := s.pt.ticks.toNat
  created := fun _ => 0
  since := fun _ => 0
  total := fun _ => 0
  spent := fun _ => 0

/-- The kernel with an account. -/
def bookKernel : System (Sys × Account) Label Fault :=
  kernel.observe openBooks bookStep

/-! ### What events do to a view -/

/-- `allocproc` has set up the slot, and it is not runnable yet. -/
def View.Prepared (v : View) (x : Slot) : Prop :=
  v.boot = .setup x ∨ v.boot = .filled x ∨
    ∃ p, (v.thread p).call = .setup x ∨ (v.thread p).call = .filled x

/-- The slots that have a budget. -/
def View.Funded (v : View) (x : Slot) : Prop :=
  Active (v.proc x).state ∨ v.Prepared x

/-- The fields for the time of a process are the same. -/
structure SameTimes (x y : Proc) : Prop where
  budget : y.budget = x.budget
  cpuTicksIn : y.cpuTicksIn = x.cpuTicksIn
  cpuTicksTotal : y.cpuTicksTotal = x.cpuTicksTotal

/-- A change that is no event. -/
structure Silent (v v' : View) : Prop where
  times : ∀ x, SameTimes (v.proc x) (v'.proc x)
  funded : ∀ x, v'.Funded x → v.Funded x
  cpu : v'.cpu = v.cpu
  ticks : v'.ticks = v.ticks

/-- A change that is an event. -/
inductive Happens (v : View) : Event → View → Prop where
  | tick : Happens v .tick { v with ticks := v.ticks + 1 }
  | create {p : Slot} {v' : View} (hidle : ∀ c, v.cpu c ≠ some p)
      (hbudget : (v'.proc p).budget = BUDGET) (htotal : (v'.proc p).cpuTicksTotal = 0)
      (hothers : ∀ x, x ≠ p → SameTimes (v.proc x) (v'.proc x))
      (hfunded : ∀ x, x ≠ p → v'.Funded x → v.Funded x)
      (hcpu : v'.cpu = v.cpu) (hticks : v'.ticks = v.ticks) :
      Happens v (.create p) v'
  | dispatch {c : Cpu} {p : Slot} {v' : View} (hc : v.cpu c = none)
      (hidle : ∀ c, v.cpu c ≠ some p) (hin : (v'.proc p).cpuTicksIn = v.ticks)
      (hbudget : (v'.proc p).budget = (v.proc p).budget)
      (htotal : (v'.proc p).cpuTicksTotal = (v.proc p).cpuTicksTotal)
      (hothers : ∀ x, x ≠ p → SameTimes (v.proc x) (v'.proc x))
      (hfunded : ∀ x, v'.Funded x → v.Funded x)
      (hcpu : v'.cpu = Function.update v.cpu c (some p)) (hticks : v'.ticks = v.ticks) :
      Happens v (.dispatch c p) v'
  | sched {c : Cpu} {p : Slot} {charged : Bool} {v' : View} (hc : v.cpu c = some p)
      (hbudget : v'.Funded p → charged = true ∧
        (v'.proc p).budget = (charge v.ticks (v.proc p)).budget)
      (htotal : (v'.proc p).cpuTicksTotal =
        (v.proc p).cpuTicksTotal + (v.ticks - (v.proc p).cpuTicksIn))
      (hothers : ∀ x, x ≠ p → SameTimes (v.proc x) (v'.proc x))
      (hfunded : ∀ x, v'.Funded x → v.Funded x)
      (hcpu : v'.cpu = Function.update v.cpu c none) (hticks : v'.ticks = v.ticks) :
      Happens v (.sched c p charged) v'
  | reset {ps : List Slot} {v' : View} (hbudget : ∀ x ∈ ps, (v'.proc x).budget = BUDGET)
      (hothers : ∀ x ∉ ps, (v'.proc x).budget = (v.proc x).budget)
      (hin : ∀ x, (v'.proc x).cpuTicksIn = (v.proc x).cpuTicksIn)
      (htotal : ∀ x, (v'.proc x).cpuTicksTotal = (v.proc x).cpuTicksTotal)
      (hfunded : ∀ x, v'.Funded x → v.Funded x)
      (hcpu : v'.cpu = v.cpu) (hticks : v'.ticks = v.ticks) :
      Happens v (.reset ps) v'

/-- A sequence of events, with silent changes between them. -/
inductive History : View → List Event → View → Prop where
  | nil (v : View) : History v [] v
  | silent {v v₁ v' : View} {es : List Event} (h : Silent v v₁) (hs : History v₁ es v') :
      History v es v'
  | event {v v₁ v' : View} {e : Event} {es : List Event} (h : Happens v e v₁)
      (hs : History v₁ es v') :
      History v (e :: es) v'

theorem History.append {v v₁ v' : View} {es es' : List Event} (h : History v es v₁)
    (h' : History v₁ es' v') :
  History v (es ++ es') v'
  := by
  induction h with
  | nil => apply h'
  | silent hs _ ih => apply History.silent hs (ih h')
  | event he _ ih => apply History.event he (ih h')

theorem History.of_silent {v v' : View} (h : Silent v v') :
  History v [] v'
  := .silent h (.nil v')

theorem History.of_event {v v' : View} {e : Event} (h : Happens v e v') :
  History v [e] v'
  := .event h (.nil v')

/-- What silent changes and events keep relates the account to the view along a history. -/
theorem History.invariant
    {I : View → Account → Prop} {v v' : View} {es : List Event} (h : History v es v')
    (hsilent : ∀ v v' a, I v a → Silent v v' → I v' a)
    (hevent : ∀ v v' a e, e ∈ es → I v a → Happens v e v' → I v' (a.record e))
    {a : Account} (hI : I v a) :
  I v' (es.foldl Account.record a)
  := by
  induction h generalizing a with
  | nil => apply hI
  | silent hs _ ih => apply ih hevent (hsilent _ _ _ hI hs)
  | event he _ ih =>
    apply ih
    · intro v v' a e' hmem
      apply hevent v v' a e' (List.mem_cons_of_mem _ hmem)
    · apply hevent _ _ _ _ List.mem_cons_self hI he

/-! ### Every step is a history of its events -/

section

variable {v v' : View} {c : Cpu} {p : Slot}

theorem SameTimes.refl (x : Proc) :
  SameTimes x x
  := ⟨rfl, rfl, rfl⟩

theorem Silent.refl (v : View) :
  Silent v v
  := ⟨fun _ => .refl _, fun _ => id, rfl, rfl⟩

theorem View.Prepared.of_setThread {th : Thread} {x : Slot} (h : (v.setThread p th).Prepared x) :
  v.Prepared x ∨ th.call = .setup x ∨ th.call = .filled x
  := by
  rcases h with hb | hb | ⟨p', hcall⟩
  · exact Or.inl (Or.inl hb)
  · exact Or.inl (Or.inr (Or.inl hb))
  · rcases eq_or_ne p' p with rfl | hp'
    · rw [View.setThread_thread_self] at hcall
      exact Or.inr hcall
    · rw [View.setThread_thread_of_ne _ _ hp'] at hcall
      exact Or.inl (Or.inr (Or.inr ⟨p', hcall⟩))

theorem View.Prepared.of_user {b : Bool} {x : Slot} (h : (v.setThread p ⟨.user, b⟩).Prepared x) :
  v.Prepared x
  := by
  rcases h.of_setThread with hx | hx | hx
  · apply hx
  · cases hx
  · cases hx

/-- What a change of one slot does to the slots that have a budget. -/
theorem View.funded_update
    {y : Proc} (hproc : v'.proc = update v.proc p y)
    (hy : Active y.state → v.Funded p) (hprep : ∀ x, v'.Prepared x → v.Prepared x) (x : Slot)
    (hx : v'.Funded x) :
  v.Funded x
  := by
  rcases hx with hx | hx
  · rw [hproc] at hx
    rcases eq_or_ne x p with rfl | hne
    · rw [update_self] at hx
      apply hy hx
    · rw [update_of_ne hne] at hx
      exact Or.inl hx
  · exact Or.inr (hprep x hx)

/-- A change of one slot that is no event. -/
theorem Silent.update
    {y : Proc} (hproc : v'.proc = update v.proc p y) (hsame : SameTimes (v.proc p) y)
    (hy : Active y.state → v.Funded p) (hprep : ∀ x, v'.Prepared x → v.Prepared x)
    (hcpu : v'.cpu = v.cpu) (hticks : v'.ticks = v.ticks) :
  Silent v v'
  := by
  refine ⟨?_, View.funded_update hproc hy hprep, hcpu, hticks⟩
  intro x
  rw [hproc]
  rcases eq_or_ne x p with rfl | hne
  · rw [update_self]
    apply hsame
  · rw [update_of_ne hne]
    apply SameTimes.refl

/-- A thread that goes on without preparing a slot. -/
theorem Silent.setThread {th : Thread}
    (hth : ∀ x, th.call = .setup x ∨ th.call = .filled x → v.Prepared x) :
  Silent v (v.setThread p th)
  := by
  refine ⟨fun x => SameTimes.refl _, ?_, rfl, rfl⟩
  intro x hx
  rcases hx with hx | hx
  · exact Or.inl hx
  · rcases hx.of_setThread with hx | hx
    · exact Or.inr hx
    · exact Or.inr (hth x hx)

/-- A silent change, after which a process goes where it prepares no slot. -/
theorem History.setCall
    {call : Call} (h : Silent v v') (hcall : ∀ x, call ≠ .setup x ∧ call ≠ .filled x) :
  History v [] (v'.setCall p call)
  := by
  apply History.silent h
  apply History.of_silent
  apply Silent.setThread
  rintro x (hx | hx)
  · cases (hcall x).1 hx
  · cases (hcall x).2 hx

/-- `sched` in `yield` and `sleep`. -/
theorem Happens.leave
    (hc : v.cpu c = some p) {th : Thread} {f : Proc → Proc}
    (hbudget : (f (v.proc p)).budget = (charge v.ticks (v.proc p)).budget)
    (htotal : (f (v.proc p)).cpuTicksTotal =
      (v.proc p).cpuTicksTotal + (v.ticks - (v.proc p).cpuTicksIn))
    (hp : v.Funded p) (hth : ∀ x, th.call = .setup x ∨ th.call = .filled x → v.Prepared x) :
  Happens v (.sched c p true) (v.leave c p th f)
  := by
  refine Happens.sched hc ?_ ?_ ?_ ?_ rfl rfl
  · intro _
    rw [View.leave_proc_self]
    exact ⟨rfl, hbudget⟩
  · rw [View.leave_proc_self, htotal]
  · intro x hx
    rw [View.leave_proc_of_ne v c th f hx]
    apply SameTimes.refl
  · apply View.funded_update rfl (fun _ => hp)
    intro x hx
    have hx' : (v.setThread p th).Prepared x := hx
    rcases hx'.of_setThread with hx | hx
    · apply hx
    · apply hth x hx

theorem charge_cpuTicksTotal (ticks : UInt32) (x : Proc) :
  (charge ticks x).cpuTicksTotal = x.cpuTicksTotal
  := by
  simp only [charge]
  split <;> rfl

theorem charge_cpuTicksIn (ticks : UInt32) (x : Proc) :
  (charge ticks x).cpuTicksIn = x.cpuTicksIn
  := by
  simp only [charge]
  split <;> rfl

theorem Happens.yield (hc : v.cpu c = some p) (hp : v.Funded p) :
  Happens v (.sched c p true) (v.yield c p)
  := by
  apply Happens.leave hc _ _ hp
  · intro x hx
    exact Or.inr (Or.inr ⟨p, hx⟩)
  · rfl
  · simp only [tallied, charge_cpuTicksTotal, charge_cpuTicksIn]

theorem Happens.sleep (hc : v.cpu c = some p) (hp : v.Funded p) (chan : Chan) {call : Call}
    (hcall : ∀ x, call = .setup x ∨ call = .filled x → v.Prepared x) :
  Happens v (.sched c p true) (v.sleep c p chan call)
  := by
  apply Happens.leave hc _ _ hp hcall
  · simp only [tallied, charge_sleeping]
  · simp only [tallied, charge_cpuTicksTotal, charge_cpuTicksIn]

/-- A pass of the loop of `wait` is silent, or it ends in `sleep`. -/
theorem History.waited (hc : v.cpu c = some p) (hp : v.Funded p) (h : View.Waited v c p v') :
  History v (if v'.cpu c = none then [.sched c p true] else []) v'
  := by
  have hcpu : ¬ v.cpu c = none := by
    simp [hc]
  cases h with
  | reaped x hstate hparent =>
    rw [if_neg (show ¬ ((v.modify x View.reaped).setCall p .user).cpu c = none from hcpu)]
    have hreap : Silent v (v.modify x View.reaped) := by
      refine Silent.update rfl ⟨rfl, rfl, rfl⟩ ?_ (fun _ => id) rfl rfl
      rintro (ha | ha | ha) <;> cases ha
    exact History.setCall hreap fun _ => ⟨nofun, nofun⟩
  | failed =>
    rw [if_neg (show ¬ (v.setCall p .user).cpu c = none from hcpu)]
    exact History.setCall (.refl v) fun _ => ⟨nofun, nofun⟩
  | asleep =>
    have hcpu : (v.sleep c p (.proc p) .waiting).cpu c = none := update_self ..
    rw [if_pos hcpu]
    apply History.of_event
    apply Happens.sleep hc hp
    rintro x (hx | hx) <;> cases hx

/-- The promotion resets the budgets of the slots that it visits. -/
theorem History.promote (v : View) :
  History v (if v.Due then [.reset v.visited] else []) v.promote
  := by
  by_cases hdue : v.Due
  · rw [if_pos hdue, View.promote, if_pos hdue]
    apply History.of_event
    refine Happens.reset ?_ ?_ ?_ ?_ ?_ rfl rfl
    · intro x hx
      simp only [promotion]
      rw [if_pos (by simpa [View.visited] using hx)]
      rfl
    · intro x hx
      simp only [promotion]
      rw [if_neg fun h => hx (by simpa [View.visited] using h)]
    · intro x
      simp only [promotion]
      split <;> rfl
    · intro x
      simp only [promotion]
      split <;> rfl
    · rintro x (ha | hp)
      · rw [promotion_state] at ha
        exact Or.inl ha
      · exact Or.inr hp
  · rw [if_neg hdue, View.promote, if_neg hdue]
    apply History.nil

theorem Happens.dispatched_slot
    (hc : v.cpu c = none) (hidle : ∀ c, v.cpu c ≠ some p) (hp : v.Funded p) :
  Happens v (.dispatch c p) (v.dispatch c p)
  := by
  refine Happens.dispatch hc hidle ?_ ?_ ?_ ?_ ?_ rfl rfl
  · rw [View.dispatch_proc_self]
    rfl
  · rw [View.dispatch_proc_self]
    rfl
  · rw [View.dispatch_proc_self]
    rfl
  · intro x hx
    rw [View.dispatch_proc_of_ne v c hx]
    apply SameTimes.refl
  · apply View.funded_update rfl (fun _ => hp)
    intro x
    exact id

theorem Silent.tidy (v : View) (p : Slot) :
  Silent v (v.tidy p)
  := by
  have hprep : ∀ x, (v.tidy p).Prepared x → v.Prepared x := by
    intro x hx
    simpa only [View.Prepared, View.tidy_boot, View.tidy_call] using hx
  rw [View.tidy] at hprep ⊢
  split
  · rename_i ha
    rw [if_pos ha] at hprep
    refine Silent.update rfl ⟨rfl, rfl, rfl⟩ ?_ hprep rfl rfl
    intro hx
    exact Or.inl hx
  · apply Silent.refl

theorem Silent.wake (v : View) (chan : Chan) :
  Silent v (v.wake chan)
  := by
  refine ⟨?_, ?_, rfl, rfl⟩
  · intro x
    obtain ⟨st, hx, -⟩ := View.woken_eq chan (v.proc x)
    simp only [View.wake, hx]
    exact ⟨rfl, rfl, rfl⟩
  · rintro x (ha | hp)
    · obtain ⟨st, hx, rfl | ⟨hs, -⟩⟩ := View.woken_eq chan (v.proc x)
      · simp only [View.wake, hx] at ha
        exact Or.inl ha
      · exact Or.inl (Or.inl hs)
    · exact Or.inr hp

/-- `exit` wakes up processes and changes parents, and then calls `sched`. -/
theorem History.exit (hc : v.cpu c = some p) (hp : ¬ v.Prepared p) :
  History v [.sched c p false] (v.exit c p)
  := by
  have hb : Silent v { v with proc := fun x => v.bereaved p (v.proc x) } := by
    refine ⟨?_, ?_, rfl, rfl⟩
    · intro x
      obtain ⟨st, parent, hx, -, -⟩ := v.bereaved_eq p (v.proc x)
      simp only [hx]
      exact ⟨rfl, rfl, rfl⟩
    · rintro x (ha | hprep)
      · obtain ⟨st, parent, hx, rfl | ⟨hs, -⟩, -⟩ := v.bereaved_eq p (v.proc x)
        · simp only [hx] at ha
          exact Or.inl ha
        · exact Or.inl (Or.inl hs)
      · exact Or.inr hprep
  have hprep : ∀ x, (v.exit c p).Prepared x → v.Prepared x :=
    fun _ => View.Prepared.of_user (v := v) (p := p) (b := false)
  have hothers : ∀ x, x ≠ p → (v.exit c p).proc x = v.bereaved p (v.proc x) :=
    fun _ hx => update_of_ne hx ..
  have hself : (v.exit c p).proc p
      = tallied v.ticks { v.bereaved p (v.proc p) with state := .zombie } :=
    update_self ..
  have hzombie : ¬ Active ((v.exit c p).proc p).state := by
    rw [hself]
    rintro (ha | ha | ha) <;> cases ha
  apply History.silent hb
  apply History.of_event
  refine Happens.sched hc ?_ ?_ ?_ ?_ rfl rfl
  · rintro (ha | hx)
    · cases hzombie ha
    · cases hp (hprep p hx)
  · rw [hself]
    rfl
  · intro x hx
    rw [hothers x hx]
    apply SameTimes.refl
  · rintro x (ha | hx)
    · rcases eq_or_ne x p with rfl | hne
      · cases hzombie ha
      · rw [hothers x hne] at ha
        exact Or.inl ha
    · exact Or.inr (hprep x hx)

/-- `setpriority` resets the budget if it changes the priority. -/
theorem Happens.reprioritized (hp : Active (v.proc p).state) (priority : Nat) :
  Happens v (.reset (v.changed (v.modify p (reprioritized priority))))
    (v.modify p (reprioritized priority))
  := by
  have hcases : ∀ x, (v.modify p (Ptable.reprioritized priority)).proc x = v.proc x ∨
      (v.modify p (Ptable.reprioritized priority)).proc x
        = { v.proc x with priority := priority, budget := BUDGET } ∧
      (v.proc x).priority ≠ priority := by
    intro x
    rcases eq_or_ne x p with rfl | hx
    · rw [View.modify_proc_self, Ptable.reprioritized]
      split
      · rename_i hne
        exact Or.inr ⟨rfl, hne⟩
      · exact Or.inl rfl
    · exact Or.inl (View.modify_proc_of_ne v _ hx)
  refine Happens.reset ?_ ?_ ?_ ?_ ?_ rfl rfl
  · intro x hx
    simp only [View.changed, List.mem_filter, List.mem_finRange, true_and, decide_eq_true_eq] at hx
    rcases hcases x with heq | ⟨heq, -⟩
    · rw [heq] at hx
      cases hx rfl
    · rw [heq]
  · intro x hx
    simp only [View.changed, List.mem_filter, List.mem_finRange, true_and, decide_eq_true_eq] at hx
    rcases hcases x with heq | ⟨heq, hne⟩
    · rw [heq]
    · rw [heq] at hx
      cases hx (Ne.symm hne)
  · intro x
    rcases hcases x with heq | ⟨heq, -⟩ <;> rw [heq]
  · intro x
    rcases hcases x with heq | ⟨heq, -⟩ <;> rw [heq]
  · apply View.funded_update rfl (fun _ => Or.inl hp)
    intro x
    exact id

/-- The end of `allocproc`. -/
theorem History.prepare
    {np : Slot} (hidle : ∀ c, v.cpu c ≠ some np) {v₁ : View}
    (hproc : v₁.proc = (v.modify np View.preparedProc).proc) (hcpu : v₁.cpu = v.cpu)
    (hticks : v₁.ticks = v.ticks) (hprep : ∀ x, x ≠ np → v₁.Prepared x → v.Prepared x) :
  History v [.create np] v₁
  := by
  have hothers : ∀ x, x ≠ np → v₁.proc x = v.proc x := by
    intro x hx
    rw [hproc, View.modify_proc_of_ne v _ hx]
  apply History.of_event
  refine Happens.create hidle ?_ ?_ ?_ ?_ hcpu hticks
  · rw [hproc, View.modify_proc_self]
    rfl
  · rw [hproc, View.modify_proc_self]
    rfl
  · intro x hx
    rw [hothers x hx]
    apply SameTimes.refl
  · rintro x hx (ha | hp)
    · rw [hothers x hx] at ha
      exact Or.inl ha
    · exact Or.inr (hprep x hx hp)

end

section

variable {s : Sys} {v' : View} {c : Cpu} {p : Slot} {l : Label}

/-- A slot that is set up is an embryo. -/
theorem Inv.embryo_of_prepared (h : Inv s) {x : Slot} (hx : s.view.Prepared x) :
  (s.pt.proc x).state = .embryo
  := by
  rcases hx with hb | hb | ⟨p, hcall | hcall⟩
  · apply h.embryo_of_boot hb rfl
  · apply h.embryo_of_boot hb rfl
  · apply h.embryo_of_call hcall rfl
  · apply h.embryo_of_call hcall rfl

theorem Inv.history_stepOn (h : Inv s) (hc : s.view.cpu c = some p)
    (hstep : View.StepOn s.view c p l v') :
  History s.view (s.view.events l none v') v'
  := by
  have hrun : (s.view.proc p).state = .running := h.running c p hc
  have hp : s.view.Funded p := Or.inl (Or.inr (Or.inr hrun))
  cases hstep with
  | yield =>
    simp only [View.events, hc]
    apply History.of_event (Happens.yield hc hp)
  | sleep chan =>
    simp only [View.events, hc]
    apply History.of_event
    apply Happens.sleep hc hp
    intro x hx
    exact Or.inr (Or.inr ⟨p, hx⟩)
  | exitClose hcall hinit =>
    have hmod : Silent s.view (s.view.modify p ({ · with ofile := fun _ => none, cwd := none })) :=
      Silent.update rfl ⟨rfl, rfl, rfl⟩ (fun _ => hp) (fun _ => id) rfl rfl
    exact History.setCall hmod fun _ => ⟨nofun, nofun⟩
  | exit hcall =>
    simp only [View.events, hc]
    apply History.exit hc
    intro hprep
    cases hrun.symm.trans (h.embryo_of_prepared hprep)
  | wait hcall hw =>
    simp only [View.events, hc]
    apply History.waited hc hp hw
  | allocNone hl hcall hno =>
    rcases hl with rfl | rfl <;> apply History.nil
  | allocRead hcall hnp => exact History.setCall (.refl _) fun _ => ⟨nofun, nofun⟩
  | @alloc _ np hl hnp =>
    have hev : s.view.events l none ((s.view.alloc np).setCall p (.alloc np)) = [] := by
      rcases hl with ⟨rfl, -⟩ | ⟨rfl, -⟩ <;> rfl
    rw [hev]
    have halloc : Silent s.view (s.view.alloc np) := by
      refine Silent.update rfl ⟨rfl, rfl, rfl⟩ ?_ (fun _ => id) rfl rfl
      rintro (ha | ha | ha) <;> cases ha
    exact History.setCall halloc fun _ => ⟨nofun, nofun⟩
  | @kalloc np hcall =>
    have hpend : s.view.pending (.proc p) = some np := congrArg Call.pending hcall
    simp only [View.events, hc, hcall]
    refine History.prepare (h.owned.cpu_ne_pending hpend) rfl rfl rfl ?_
    intro x hne hx
    rcases View.Prepared.of_setThread hx with hx | hx | hx
    · apply View.Prepared.of_user hx
    · cases hx
      cases hne rfl
    · cases hx
  | @copyuvm np hcall =>
    have hnp : s.view.Prepared np := Or.inr (Or.inr ⟨p, Or.inl hcall⟩)
    have hmod : Silent s.view (s.view.modify np (View.filledProc p (s.view.proc p))) :=
      Silent.update rfl ⟨rfl, rfl, rfl⟩ (fun _ => Or.inr hnp) (fun _ => id) rfl rfl
    apply History.silent hmod
    apply History.of_silent (Silent.setThread ?_)
    intro x hx
    rcases hx with hx | hx
    · cases hx
    · cases hx
      apply hnp
  | @rollback _ np hl =>
    have hev : s.view.events l none ((s.view.modify np View.rolledBack).setCall p .user) = [] := by
      rcases hl with ⟨rfl, hcall⟩ | ⟨rfl, -⟩
      · simp [View.events, hc, hcall]
      · rfl
    rw [hev]
    have hmod : Silent s.view (s.view.modify np View.rolledBack) := by
      refine Silent.update rfl ⟨rfl, rfl, rfl⟩ ?_ (fun _ => id) rfl rfl
      rintro (ha | ha | ha) <;> cases ha
    exact History.setCall hmod fun _ => ⟨nofun, nofun⟩
  | @forkEnqueue np hcall =>
    have hnp : s.view.Prepared np := Or.inr (Or.inr ⟨p, Or.inr hcall⟩)
    have hmod : Silent s.view (s.view.modify np ({ · with state := .runnable })) :=
      Silent.update rfl ⟨rfl, rfl, rfl⟩ (fun _ => Or.inr hnp) (fun _ => id) rfl rfl
    exact History.setCall hmod fun _ => ⟨nofun, nofun⟩

theorem Inv.history_stepBoot (h : Inv s) (hstep : View.StepBoot s.view l v') :
  History s.view (s.view.events l none v') v'
  := by
  cases hstep with
  | @alloc np hboot hnp =>
    refine History.of_silent (Silent.update rfl ⟨rfl, rfl, rfl⟩ ?_ ?_ rfl rfl)
    · rintro (ha | ha | ha) <;> cases ha
    · rintro x (hb | hb | hx)
      · cases hb
      · cases hb
      · exact Or.inr (Or.inr hx)
  | @kalloc np hboot =>
    have hpend : s.view.pending .boot = some np := congrArg Boot.pending hboot
    simp only [View.events, hboot]
    refine History.prepare (h.owned.cpu_ne_pending hpend) rfl rfl rfl ?_
    rintro x hne (hb | hb | hx)
    · cases hb
      cases hne rfl
    · cases hb
    · apply View.Prepared.of_user (p := np) (b := false)
      exact Or.inr (Or.inr hx)
  | @setup np hboot root =>
    have hnp : s.view.Prepared np := Or.inl hboot
    refine History.of_silent (Silent.update rfl ⟨rfl, rfl, rfl⟩ (fun _ => Or.inr hnp) ?_ rfl rfl)
    rintro x (hb | hb | hx)
    · cases hb
    · cases hb
      apply hnp
    · exact Or.inr (Or.inr hx)
  | @enqueue np hboot =>
    have hnp : s.view.Prepared np := Or.inr (Or.inl hboot)
    refine History.of_silent (Silent.update rfl ⟨rfl, rfl, rfl⟩ (fun _ => Or.inr hnp) ?_ rfl rfl)
    rintro x (hb | hb | hx)
    · cases hb
    · cases hb
    · exact Or.inr (Or.inr hx)

/-- The dispatch of a runnable process. -/
theorem Inv.happens_dispatch (h : Inv s) (hc : s.view.cpu c = none)
    (hp : (s.view.proc p).state = .runnable) :
  Happens s.view.promote (.dispatch c p) (s.view.promote.dispatch c p)
  := by
  have hcpu : s.view.promote.cpu = s.view.cpu := by
    rw [View.promote]
    split <;> rfl
  apply Happens.dispatched_slot
  · rw [hcpu, hc]
  · intro c' hc'
    rw [hcpu] at hc'
    cases hp.symm.trans (h.running c' p hc')
  · left
    rw [View.promote_state, hp]
    exact Or.inr (Or.inl rfl)

/-- A dispatched process has a budget. -/
theorem View.dispatch_tidy_funded (v : View) (c : Cpu) (p : Slot) :
  ((v.dispatch c p).tidy p).Funded p
  := by
  left
  rw [View.tidy_state, View.dispatch_proc_self]
  exact Or.inr (Or.inr rfl)

/-- Every step of the kernel is a history of its events. -/
theorem Inv.history (h : Inv s) {d : Option Slot} (hstep : View.Step s.view l d v') :
  History s.view (s.view.events l d v') v'
  := by
  cases hstep with
  | tick => apply History.of_event Happens.tick
  | idle hc hno =>
    simp only [View.events, List.append_nil]
    apply History.promote
  | @dispatch c p _ hc hp hmax hres =>
    simp only [View.events]
    apply (History.promote s.view).append
    apply History.event (h.happens_dispatch hc hp)
    apply History.silent (Silent.tidy _ p)
    rw [View.Resumed] at hres
    split at hres
    · apply History.waited (by simp) _ hres
      apply View.dispatch_tidy_funded
    · rw [hres, if_neg (by simp)]
      apply History.nil
  | wakeup chan => apply History.of_silent (Silent.wake s.view chan)
  | killNone => apply History.nil
  | @kill pid p hp hpid =>
    refine History.of_silent (Silent.update rfl ⟨rfl, rfl, rfl⟩ ?_ (fun _ => id) rfl rfl)
    intro ha
    simp only [killed] at ha
    split at ha
    · rename_i hs
      exact Or.inl (Or.inl hs)
    · exact Or.inl ha
  | setpriorityNone =>
    apply History.of_event
    refine Happens.reset ?_ (fun _ _ => rfl) (fun _ => rfl) (fun _ => rfl) (fun _ => id) rfl rfl
    intro x hx
    simp [View.changed] at hx
  | @setpriority pid priority p hvalid hp hpid =>
    apply History.of_event (Happens.reprioritized hp _)
  | boot hb => apply h.history_stepBoot hb
  | on hc ho => apply h.history_stepOn hc ho

end

/-! ### The clock -/

/-- The label that an event comes from: ticks come from the timer, and dispatches from a pass of
`scheduler` on the same processor. -/
def Event.From (l : Label) : Event → Prop
  | .tick => l = .tick
  | .dispatch c _ => l = .schedule c
  | _ => True

theorem View.from_of_mem_events
    {v v' : View} {l : Label} {d : Option Slot} {e : Event} (h : e ∈ v.events l d v') :
  e.From l
  := by
  rw [View.events.eq_def] at h
  split at h <;> grind [Event.From]

/-- The stamps of the kernel are the times of the account. -/
structure Clock (v : View) (a : Account) : Prop where
  ticks : v.ticks = UInt32.ofNat a.now
  stamp : ∀ c p, v.cpu c = some p →
    a.since p ≤ a.now ∧ (v.proc p).cpuTicksIn = UInt32.ofNat (a.since p)
  inj : ∀ c c' p, v.cpu c = some p → v.cpu c' = some p → c = c'

/-- Who runs after a dispatch. -/
theorem Happens.cpu_of_dispatch
    {v v' : View} {c c' : Cpu} {p x : Slot} (h : Happens v (.dispatch c p) v')
    (hx : v'.cpu c' = some x) :
  (c' = c ∧ x = p) ∨ (x ≠ p ∧ v.cpu c' = some x)
  := by
  cases h with
  | dispatch hc hidle hin hbudget htotal hothers hfunded hcpu hticks =>
    rw [hcpu] at hx
    rcases eq_or_ne c' c with rfl | hc'
    · left
      simpa [eq_comm] using hx
    · right
      rw [update_of_ne hc'] at hx
      refine ⟨?_, hx⟩
      rintro rfl
      apply hidle c' hx

namespace Clock

variable {v v' : View} {a : Account}

/-- Who runs after the end of a dispatch. -/
theorem cpu_of_sched
    {c c' : Cpu} {p x : Slot} {charged : Bool} (h : Clock v a)
    (he : Happens v (.sched c p charged) v') (hx : v'.cpu c' = some x) :
  c' ≠ c ∧ x ≠ p ∧ v.cpu c' = some x
  := by
  cases he with
  | sched hc hbudget htotal hothers hfunded hcpu hticks =>
    rw [hcpu] at hx
    rcases eq_or_ne c' c with rfl | hc'
    · rw [update_self] at hx
      cases hx
    · rw [update_of_ne hc'] at hx
      refine ⟨hc', ?_, hx⟩
      rintro rfl
      apply hc' (h.inj c' c x hx hc)

/-- The length of a dispatch as the kernel computes it. -/
theorem elapsed (h : Clock v a) {c : Cpu} {p : Slot} (hc : v.cpu c = some p)
    (hlt : a.elapsed p < 2 ^ 32) :
  (v.ticks - (v.proc p).cpuTicksIn).toNat = a.elapsed p
  := by
  obtain ⟨hle, hin⟩ := h.stamp c p hc
  rw [h.ticks, hin, ← UInt32.ofNat_sub hle]
  apply UInt32.toNat_ofNat_of_lt' hlt

theorem silent (h : Clock v a) (hs : Silent v v') :
  Clock v' a
  := by
  refine ⟨hs.ticks.trans h.ticks, ?_, ?_⟩
  · intro c p hc
    rw [hs.cpu] at hc
    rw [(hs.times p).cpuTicksIn]
    apply h.stamp c p hc
  · rw [hs.cpu]
    apply h.inj

theorem event (h : Clock v a) {e : Event} (he : Happens v e v') :
  Clock v' (a.record e)
  := by
  have happens := he
  cases he with
  | tick =>
    refine ⟨?_, ?_, h.inj⟩
    · rw [Account.record, UInt32.ofNat_add, ← h.ticks]
      rfl
    · intro c p hc
      obtain ⟨hle, hin⟩ := h.stamp c p hc
      exact ⟨Nat.le_succ_of_le hle, hin⟩
  | @create p _ hidle hbudget htotal hothers hfunded hcpu hticks =>
    refine ⟨hticks.trans h.ticks, ?_, ?_⟩
    · intro c x hc
      rw [hcpu] at hc
      have hne : x ≠ p := by
        rintro rfl
        apply hidle c hc
      rw [(hothers x hne).cpuTicksIn]
      apply h.stamp c x hc
    · rw [hcpu]
      apply h.inj
  | @dispatch c p _ hc hidle hin hbudget htotal hothers hfunded hcpu hticks =>
    refine ⟨hticks.trans h.ticks, ?_, ?_⟩
    · intro c' x hx
      rcases happens.cpu_of_dispatch hx with ⟨rfl, rfl⟩ | ⟨hne, hx⟩
      · simp only [Account.record, update_self]
        exact ⟨le_refl _, hin.trans h.ticks⟩
      · simp only [Account.record, update_of_ne hne]
        rw [(hothers x hne).cpuTicksIn]
        apply h.stamp c' x hx
    · intro c₁ c₂ x h₁ h₂
      rcases happens.cpu_of_dispatch h₁ with ⟨rfl, rfl⟩ | ⟨hne, h₁⟩
      · rcases happens.cpu_of_dispatch h₂ with ⟨rfl, -⟩ | ⟨hne, -⟩
        · rfl
        · cases hne rfl
      · rcases happens.cpu_of_dispatch h₂ with ⟨-, rfl⟩ | ⟨-, h₂⟩
        · cases hne rfl
        · apply h.inj c₁ c₂ x h₁ h₂
  | @sched c p charged _ hc hbudget htotal hothers hfunded hcpu hticks =>
    refine ⟨hticks.trans h.ticks, ?_, ?_⟩
    · intro c' x hx
      obtain ⟨-, hne, hx⟩ := h.cpu_of_sched happens hx
      rw [(hothers x hne).cpuTicksIn]
      apply h.stamp c' x hx
    · intro c₁ c₂ x h₁ h₂
      apply h.inj c₁ c₂ x (h.cpu_of_sched happens h₁).2.2 (h.cpu_of_sched happens h₂).2.2
  | reset hbudget hothers hin htotal hfunded hcpu hticks =>
    refine ⟨hticks.trans h.ticks, ?_, ?_⟩
    · intro c p hc
      rw [hcpu] at hc
      rw [hin]
      apply h.stamp c p hc
    · rw [hcpu]
      apply h.inj

end Clock

end Xv6.Ptable
