import Xv6.Proc.Owners

/-!
# The kernel refines its view

Every step of the kernel from a state that satisfies the invariant keeps the table good and is a
step of the view, or it fails with a fault that does not come from the list code, as long as
`allocproc` enters its critical section with a slot that is still free.  `ready[MAXPRIO]` is a
queue: slots join it at its end and leave it from its head, unless `setpriority` is applied to them.
-/

namespace Xv6.Ptable

open Function

/-- The list `ready[MAXPRIO]`. -/
abbrev top : ListId := .ready (Fin.last maxPrio)

/-! ### Lists -/

theorem prefix_move (q : ListId → List Slot) (p : Slot) {a : ListId} (b : ListId) {id : ListId}
    (hid : id ≠ a) :
  q id <+: move q p a b id
  := by
  rw [move, if_neg hid]
  apply List.prefix_append

/-- The promotion of ready lists adds to the end of `ready[MAXPRIO]`. -/
theorem prefix_raisedAll (q : ListId → List Slot) {js : List (Fin (maxPrio + 1))}
    (hjs : ∀ j ∈ js, j ≠ Fin.last maxPrio) :
  q top <+: raisedAll q js top
  := by
  induction js generalizing q with
  | nil => apply List.prefix_rfl
  | cons j js ih =>
    have hraised : q top <+: raised q j (q (.ready j)) [] top := by
      simp only [raised, top]
      rw [if_neg (Ne.symm (hjs j List.mem_cons_self))]
      split
      · apply List.prefix_append
      · apply List.prefix_rfl
    apply hraised.trans
    apply ih
    intro i hi
    apply hjs i (List.mem_cons_of_mem j hi)

/-- A search down a list finds the greatest entry with the property. -/
theorem le_of_find?_eq_some
    {js : List (Fin (maxPrio + 1))} (hdown : js.Pairwise (· > ·)) {P : Fin (maxPrio + 1) → Bool}
    {j : Fin (maxPrio + 1)} (hj : js.find? P = some j) {i : Fin (maxPrio + 1)} (hi : i ∈ js)
    (hP : P i) :
  i ≤ j
  := by
  induction js with
  | nil => cases hi
  | cons k js ih =>
    obtain ⟨hk, hdown⟩ := List.pairwise_cons.mp hdown
    rw [List.find?_cons] at hj
    split at hj
    · obtain rfl := Option.some.inj hj
      rcases List.mem_cons.mp hi with rfl | hi
      · apply le_refl
      · apply le_of_lt (hk i hi)
    · rename_i hnot
      rcases List.mem_cons.mp hi with rfl | hi
      · rw [hnot] at hP
        cases hP
      · apply ih hdown hj hi

theorem mem_readyDown (j : Fin (maxPrio + 1)) :
  j ∈ readyDown
  := by
  revert j
  decide

/-- The slot that `dispatch` takes has the highest priority of all runnable slots. -/
theorem Good.priority_le
    {t : PTable} {q : ListId → List Slot} (h : Good t q) {j : Fin (maxPrio + 1)} {p : Slot}
    (hj : readyDown.find? (fun i => q (.ready i) ≠ []) = some j)
    (hp : (q (.ready j)).head? = some p) {x : Slot} (hx : (t.proc x).state = .runnable) :
  (t.proc x).priority ≤ (t.proc p).priority
  := by
  have hlt : (t.proc x).priority < maxPrio + 1 := by
    apply Nat.lt_succ_of_le (h.bounded x _)
    simp [Active, hx]
  have hmem : x ∈ q (.ready ⟨_, hlt⟩) := (h.listInvariant.ready _ x).mpr ⟨hx, rfl⟩
  have hle := le_of_find?_eq_some (by decide) hj (mem_readyDown ⟨_, hlt⟩)
    (by simpa using List.ne_nil_of_mem hmem)
  rw [(h.of_mem_ready (List.mem_of_head? hp)).2]
  apply hle

/-- What a step that dispatches `d` does to `ready[MAXPRIO]`: some slots `k` stay, and others join
at the end.  Only the dispatched slot and slots that `setpriority` is applied to leave, and a
dispatch takes the head. -/
def Queues (s : Sys) (l : Label) (d : Option Slot) (now next : List Slot) : Prop :=
  ∃ k, k.Sublist now ∧ k <+: next ∧ (d ≠ none → k.Sublist now.tail) ∧
    ∀ x ∈ now, x ∉ k → d = some x ∨
      ∃ pid priority, l = .setpriority pid priority ∧ (s.pt.proc x).pid = pid.toUInt32

variable {s : Sys} {t t' : PTable} {q : ListId → List Slot} {c : Cpu} {p : Slot}

theorem Queues.of_prefix {l : Label} {now next : List Slot} (h : now <+: next) :
  Queues s l none now next
  := ⟨now, List.Sublist.refl _, h, by simp, fun _ hx hk => absurd hx hk⟩

/-- A dispatch that takes the head of `ready[MAXPRIO]`, if there is one. -/
theorem Queues.of_tail
    {l : Label} {now next : List Slot} (hp : now = [] ∨ now.head? = some p)
    (h : now.tail <+: next) :
  Queues s l (some p) now next
  := by
  refine ⟨now.tail, List.tail_sublist now, h, fun _ => List.Sublist.refl _, ?_⟩
  intro x hx hnot
  left
  cases now with
  | nil => cases hx
  | cons a now =>
    rw [(List.mem_cons.mp hx).resolve_right hnot]
    simpa [eq_comm] using hp

/-- The dispatch takes the head of `ready[MAXPRIO]`, if there is one. -/
theorem dispatch_top
    {j : Fin (maxPrio + 1)} (hj : readyDown.find? (fun i => q (.ready i) ≠ []) = some j)
    (hp : (q (.ready j)).head? = some p) :
  (q top = [] ∨ (q top).head? = some p) ∧
    move q p (.ready j) (.list .running) top = (q top).tail
  := by
  rcases eq_or_ne j (Fin.last maxPrio) with rfl | hlast
  · refine ⟨Or.inr hp, ?_⟩
    obtain ⟨l, hl⟩ : ∃ l, q top = p :: l := List.head?_eq_some_iff.mp hp
    simp [move, hl]
  · have hnil : q top = [] := by
      by_contra hne
      have hle := le_of_find?_eq_some (by decide) hj (mem_readyDown (Fin.last maxPrio))
        (decide_eq_true hne)
      apply hlast (Fin.last_le_iff.mp hle)
    refine ⟨Or.inl hnil, ?_⟩
    rw [move, if_neg (by simpa using Ne.symm hlast), hnil]
    rfl

/-- The table is good, and `ready[MAXPRIO]` holds the slots `l` and perhaps others behind them. -/
def Grown (l : List Slot) (t : PTable) : Prop := ∃ q, Good t q ∧ l <+: q top

theorem Good.grown (h : Good t q) :
  Grown (q top) t
  := ⟨q, h, List.prefix_rfl⟩

theorem Good.grown_move {a b : ListId} (h : Good t (move q p a b)) (ha : top ≠ a) :
  Grown (q top) t
  := ⟨_, h, prefix_move q p b ha⟩

/-- The table is good, and `ready[MAXPRIO]` has changed from `now` as in a step with the label
`l`. -/
def Queued (s : Sys) (l : Label) (now : List Slot) (t : PTable) : Prop :=
  ∃ q, Good t q ∧ Queues s l (s.dispatched l) now (q top)

theorem Queued.of_grown
    {l : Label} {now : List Slot} (hd : s.dispatched l = none) (h : Grown now t) :
  Queued s l now t
  := by
  obtain ⟨q, hq, hpre⟩ := h
  refine ⟨q, hq, ?_⟩
  rw [hd]
  apply Queues.of_prefix hpre

/-! ### Views -/

/-- The slots after a change of one of them. -/
theorem ChangesOnly.proc_eq {t : PTable} (h : ChangesOnly p t t') {x : Proc} (hp : t'.proc p = x) :
  t'.proc = update t.proc p x
  := by
  exact Function.eq_update_iff.mpr ⟨hp, h.others⟩

theorem ChangesOnly.view_modify
    (h : ChangesOnly p s.pt t') {f : Proc → Proc} (hp : t'.proc p = f (s.pt.proc p)) :
  Sys.view { s with pt := t' } = s.view.modify p f
  := by
  simp only [Sys.view, View.modify, h.proc_eq hp, h.promoteAtTime, h.nextpid, h.initproc, h.ticks]

theorem ChangesOnly.view_leave
    (h : ChangesOnly p s.pt t') {f : Proc → Proc} (hp : t'.proc p = f (s.pt.proc p)) (c : Cpu)
    (th : Thread) :
  (s.leave c p t' th).view = s.view.leave c p th f
  := by
  simp only [Sys.view, Sys.leave, View.leave, View.setCpu, View.setThread, View.modify,
    h.proc_eq hp, h.promoteAtTime, h.nextpid, h.initproc, h.ticks]

/-- The state after `sleep` of a dispatched process has cleared the channel. -/
def Sys.tidied (s : Sys) (p : Slot) : Sys :=
  if (s.thread p).asleep then
    Sys.setCall { s with pt := sleepTidy s.pt p } p (s.thread p).call
  else s

theorem Sys.resume_eq (s : Sys) (c : Cpu) (p : Slot) :
  s.resume c p = if (s.thread p).call = .waiting then (s.tidied p).wait c p else .ok (s.tidied p)
  := rfl

theorem Sys.tidied_view (s : Sys) (p : Slot) :
  (s.tidied p).view = s.view.tidy p
  := by
  rw [Sys.tidied, View.tidy]
  split
  · rename_i ha
    rw [if_pos (by exact ha)]
    rfl
  · rename_i ha
    rw [if_neg (by exact ha)]

theorem Sys.tidied_cpu (s : Sys) (p : Slot) :
  (s.tidied p).cpu = s.cpu
  := by
  rw [Sys.tidied]
  split <;> rfl

theorem Good.tidied (hq : Good s.pt q) (p : Slot) :
  Good (s.tidied p).pt q
  := by
  have htidy : Good (sleepTidy s.pt p) q := hq.modify_same rfl rfl
  rw [Sys.tidied]
  split
  · apply htidy
  · apply hq

/-- A step after which the table satisfies `T` and the view `P`, or that fails with a fault that
does not come from the list code. -/
abbrev Refines (T : PTable → Prop) (P : View → Prop) : Option (Except Fault Sys) → Prop :=
  System.Outcome (fun f => f.outsideLists = false) (fun s => T s.pt ∧ P s.view)

theorem Refines.of_view
    {T : PTable → Prop} {P : View → Prop} {v : View} (hT : T s.pt) (hview : s.view = v) (h : P v) :
  Refines T P (some (.ok s))
  := by
  subst hview
  exact ⟨hT, h⟩

/-! ### The critical sections -/

/-- A pass of the loop of `wait`: what it returns, and what it does to the table. -/
theorem wait_spec (hq : Good t q) (hp : (t.proc p).state = .running) :
  (∃ x t', Ptable.wait t p = .ok (.reaped (t.proc x).pid, t') ∧
    (t.proc x).state = .zombie ∧ (t.proc x).parent = some p ∧
    t'.proc x = View.reaped (t.proc x) ∧ ChangesOnly x t t' ∧ Grown (q top) t') ∨
  (∀ x, (t.proc x).state = .zombie → (t.proc x).parent ≠ some p) ∧
    (Ptable.wait t p = .ok (.failed, t) ∧
      ((∀ x, (t.proc x).state ≠ .unused → (t.proc x).parent ≠ some p) ∨
        (t.proc p).killed = true) ∨
    ∃ t', Ptable.wait t p = .ok (.asleep, t') ∧ Ptable.sleep t p (.proc p) = .ok t' ∧
      (∃ x, (t.proc x).state ≠ .unused ∧ (t.proc x).parent = some p) ∧
      (t.proc p).killed = false)
  := by
  rw [wait_eq hq p]
  cases hf : (q (.list .zombie)).find? fun x => (t.proc x).parent = some p with
  | some x =>
    have hz := (hq.state_of_mem_list (List.mem_of_find?_eq_some hf)).1
    have hpar : (t.proc x).parent = some p := by
      simpa using List.find?_some hf
    obtain ⟨t', ht', hq', hproc, honly⟩ := reap_spec hq hz
    left
    refine ⟨x, t', ?_, hz, hpar, hproc, honly, hq'.grown_move (by simp)⟩
    simp only [ht', Except.map]
  | none =>
    have hzombie : ∀ x, (t.proc x).state = .zombie → (t.proc x).parent ≠ some p := by
      intro x hx
      rw [List.find?_eq_none] at hf
      simpa using hf x ((hq.listInvariant.list .zombie (by decide) x).mpr hx)
    have hkids : childIn t p [.embryo, .sleeping, .runnable, .running] = true ↔
        ∃ x, (t.proc x).state ≠ .unused ∧ (t.proc x).parent = some p := by
      simp only [childIn, List.any_eq_true, List.mem_finRange, true_and, decide_eq_true_eq]
      apply exists_congr
      intro x
      have hx := hzombie x
      cases hs : (t.proc x).state <;> simp_all
    right
    use hzombie
    simp only
    split
    · rename_i hno
      left
      refine ⟨rfl, ?_⟩
      rcases hno with hno | hkilled
      · left
        intro x hx hpar
        rw [Bool.not_eq_true', hkids.mpr ⟨x, hx, hpar⟩] at hno
        cases hno
      · right
        apply hkilled
    · rename_i hno
      rw [not_or, Bool.not_eq_true', Bool.not_eq_false, hkids, Bool.not_eq_true] at hno
      obtain ⟨t', ht', -, -, -⟩ := sleep_spec hq hp (.proc p)
      right
      refine ⟨t', ?_, ht', hno⟩
      simp only [ht', Except.map]

section

variable (hq : Good s.pt q)

include hq

/-- The promotion at the start of a pass of `scheduler`. -/
theorem Good.promoteAll_view :
  ∃ t q', promoteAll s.pt = .ok t ∧ Good t q' ∧ q top <+: q' top ∧
    Sys.view { s with pt := t } = s.view.promote
  := by
  by_cases hdue : s.view.Due
  · obtain ⟨t, ht, hq', hproc, hvars⟩ := promoteAll_spec hq hdue
    refine ⟨t, _, ht, hq', prefix_raisedAll q (by decide), ?_⟩
    have hproc' : t.proc = fun x => promotion (s.pt.proc x) := funext hproc
    rw [View.promote, if_pos hdue]
    simp only [Sys.view, hproc', hvars.promoteAtTime, hvars.nextpid, hvars.initproc, hvars.ticks]
  · refine ⟨s.pt, q, if_neg hdue, hq, List.prefix_rfl, ?_⟩
    rw [View.promote, if_neg hdue]

/-- The critical section of `allocproc`. -/
theorem Good.allocLocked_view {np : Slot} (hnp : (s.pt.proc np).state = .unused) :
  ∃ t', allocLocked s.pt np = .ok t' ∧ Grown (q top) t' ∧
    Sys.view { s with pt := t' } = s.view.alloc np
  := by
  obtain ⟨t', ht', hq', hself, hothers, hpid, hinit, hticks, htime⟩ := allocLocked_spec hq hnp
  have hproc : t'.proc = update s.pt.proc np
      { s.pt.proc np with state := .embryo, pid := s.pt.nextpid } :=
    Function.eq_update_iff.mpr ⟨hself, hothers⟩
  refine ⟨t', ht', hq'.grown_move (by simp), ?_⟩
  simp only [Sys.view, View.alloc, View.modify, hproc, hpid, hinit, hticks, htime]

/-- The rollback of a slot in preparation. -/
theorem Good.rollback_view {np : Slot} (hnp : (s.pt.proc np).state = .embryo) :
  ∃ t', rollback s.pt np = .ok t' ∧ Grown (q top) t' ∧
    (Sys.setCall { s with pt := t' } p .user).view
      = (s.view.modify np View.rolledBack).setCall p .user
  := by
  obtain ⟨t', ht', hq', hproc, honly⟩ := rollback_spec hq hnp
  refine ⟨t', ht', hq'.grown_move (by simp), ?_⟩
  apply congrArg (fun v => View.setCall v p .user) (honly.view_modify hproc)

end

namespace Inv

section

variable (h : Inv s)

include h

/-- The head of the free list is a free slot. -/
theorem unused_of_head {np : Slot} (hnp : (s.pt.list .unused).head = some np) :
  (s.pt.proc np).state = .unused
  := by
  obtain ⟨q, hq⟩ := h.good
  have hhead := (hq.head_eq (.list .unused)).symm.trans hnp
  apply (hq.state_of_mem_list (List.mem_of_head? hhead)).1

/-- If the free list is empty then no slot is free. -/
theorem no_unused_of_head (hnp : (s.pt.list .unused).head = none) (x : Slot) :
  (s.pt.proc x).state ≠ .unused
  := by
  obtain ⟨q, hq⟩ := h.good
  have hhead := (hq.head_eq (.list .unused)).symm.trans hnp
  intro hx
  have hmem := (hq.listInvariant.list .unused (by decide) x).mpr hx
  rw [List.head?_eq_none_iff.mp hhead] at hmem
  cases hmem

theorem tidied (p : Slot) :
  Inv (s.tidied p)
  := by
  obtain ⟨q, hq⟩ := h.good
  have hview : (s.tidied p).view.Owned := by
    rw [Sys.tidied_view]
    apply h.owned.tidy
  apply hview.inv (hq.tidied p)

section

variable (hq : Good s.pt q)

include hq

section

variable (hc : s.cpu c = some p)

include hc

/-- `sleep` of a process in a call. -/
theorem sleep_view (chan : Chan) (call : Call) :
  ∃ t', Ptable.sleep s.pt p chan = .ok t' ∧ Grown (q top) t' ∧
    (s.leave c p t' ⟨call, true⟩).view = s.view.sleep c p chan call
  := by
  obtain ⟨t', ht', hq', hproc, honly⟩ := sleep_spec hq (h.running c p hc) chan
  exact ⟨t', ht', hq'.grown_move (by simp), honly.view_leave hproc c _⟩

/-- A pass of the loop of `wait`. -/
theorem refines_waited :
  Refines (Grown (q top)) (View.Waited s.view c p) (some (s.wait c p))
  := by
  rcases wait_spec hq (h.running c p hc) with ⟨x, t', hw, hz, hpar, hproc, honly, hgrown⟩ |
    ⟨hzombie, ⟨hw, hno⟩ | ⟨t', hw, ht', hkid, hkilled⟩⟩
  · have hview : (Sys.setCall { s with pt := t' } p .user).view
        = (s.view.modify x View.reaped).setCall p .user :=
      congrArg (fun v => View.setCall v p .user) (honly.view_modify hproc)
    simp only [Sys.wait, hw, bind, Except.bind]
    exact .of_view hgrown hview (.reaped x hz hpar)
  · simp only [Sys.wait, hw, bind, Except.bind]
    exact .of_view hq.grown rfl (.failed hzombie hno)
  · obtain ⟨t'', ht'', hgrown, hview⟩ := h.sleep_view hq hc (.proc p) .waiting
    rw [ht', Except.ok.injEq] at ht''
    subst ht''
    simp only [Sys.wait, hw, bind, Except.bind]
    exact .of_view hgrown hview (.asleep hzombie hkid hkilled)

/-- A dispatched process leaves its critical section. -/
theorem refines_resumed :
  Refines (Grown (q top)) (View.Resumed s.view c p) (some (s.resume c p))
  := by
  rw [Sys.resume_eq]
  split
  · rename_i hcall
    have hw := (h.tidied p).refines_waited (hq.tidied p) ((Sys.tidied_cpu s p).symm ▸ hc)
    rw [Sys.tidied_view] at hw
    have heq : View.Resumed s.view c p = View.Waited (s.view.tidy p) c p := by
      funext v'
      apply if_pos hcall
    rw [heq]
    apply hw
  · rename_i hcall
    apply Refines.of_view (hq.tidied p).grown (Sys.tidied_view s p)
    rw [View.Resumed, if_neg (by exact hcall)]

end

/-- A pass of `scheduler`: there is no runnable slot, or one of the highest priority is dispatched,
from the head of `ready[MAXPRIO]` if there is one. -/
theorem scheduler_view (c : Cpu) :
  (∃ t, scheduler s.pt = .ok (none, t) ∧ Grown (q top) t ∧
    Sys.view { s with pt := t } = s.view.promote ∧ ∀ x, (s.pt.proc x).state ≠ .runnable) ∨
  ∃ p t, scheduler s.pt = .ok (some p, t) ∧
    Inv { s with pt := t, cpu := update s.cpu c (some p) } ∧
    Sys.view { s with pt := t, cpu := update s.cpu c (some p) }
      = s.view.promote.dispatch c p ∧
    (s.pt.proc p).state = .runnable ∧
    (∀ x, (s.pt.proc x).state = .runnable →
      (s.view.promote.proc x).priority ≤ (s.view.promote.proc p).priority) ∧
    (q top = [] ∨ (q top).head? = some p) ∧ Grown (q top).tail t
  := by
  obtain ⟨t, q₁, ht, hq₁, hpre, hview⟩ := hq.promoteAll_view
  have hproc : t.proc = s.view.promote.proc := congrArg View.proc hview
  have hstate : ∀ x, (t.proc x).state = (s.pt.proc x).state := by
    intro x
    rw [hproc]
    apply View.promote_state
  rw [scheduler, ht]
  simp only [bind, Except.bind]
  rcases dispatch_spec hq₁ readyDown with ⟨hd, hno⟩ | ⟨t', p, j, hd, hj, hhead, hq', hp, honly⟩
  · left
    refine ⟨t, hd, ⟨q₁, hq₁, hpre⟩, hview, ?_⟩
    intro x hx
    have hx' := (hstate x).trans hx
    have hmem : x ∈ q₁ (.ready ⟨_, Nat.lt_succ_of_le (hq₁.homed hx')⟩) :=
      (hq₁.listInvariant.ready _ x).mpr ⟨hx', rfl⟩
    rw [hno _ (mem_readyDown _)] at hmem
    cases hmem
  · right
    have hs := (hstate p).symm.trans (hq₁.of_mem_ready (List.mem_of_head? hhead)).1
    have hview' : Sys.view { s with pt := t', cpu := update s.cpu c (some p) }
        = s.view.promote.dispatch c p := by
      rw [← hview]
      simp only [Sys.view, View.dispatch, View.setCpu, View.modify, honly.proc_eq hp,
        honly.promoteAtTime, honly.nextpid, honly.initproc, honly.ticks]
    have hinv : View.Owned
        (Sys.view { s with pt := t', cpu := update s.cpu c (some p) }) := by
      rw [hview']
      apply h.owned.promote.dispatch
      rw [View.promote_state]
      apply hs
    obtain ⟨htop, hmove⟩ := dispatch_top hj hhead
    obtain ⟨r, hr⟩ := hpre
    refine ⟨p, t', hd, hinv.inv hq', hview', hs, ?_, ?_, _, hq', ?_⟩
    · intro x hx
      rw [← hproc]
      apply hq₁.priority_le hj hhead ((hstate x).trans hx)
    · cases hl : q top with
      | nil => exact Or.inl rfl
      | cons a l =>
        rw [← hr, hl, List.cons_append] at htop
        simpa using htop
    · rw [hmove, ← hr]
      cases q top with
      | nil => apply List.nil_prefix
      | cons a l => apply List.prefix_append

omit h in
theorem refines_allocLock
    {np : Slot} (hnp : (s.pt.proc np).state = .unused) {l : Label}
    (hl : l = .allocproc c ∧ (s.thread p).call = .user ∨
      l = .allocLock c ∧ (s.thread p).call = .allocRead np) :
  Refines (Grown (q top)) (View.StepOn s.view c p l) (some (s.allocLock p np))
  := by
  obtain ⟨t', ht', hgrown, hview⟩ := hq.allocLocked_view hnp
  have hview' : (Sys.setCall { s with pt := t' } p (.alloc np)).view
      = (s.view.alloc np).setCall p (.alloc np) :=
    congrArg (fun v => View.setCall v p (.alloc np)) hview
  simp only [Sys.allocLock, ht', bind, Except.bind]
  exact .of_view hgrown hview' (.alloc hl hnp)

theorem refines_kalloc {np : Slot} (hcall : (s.thread p).call = .alloc np) (ok : Bool) :
  Refines (Grown (q top)) (View.StepOn s.view c p (.kalloc c ok)) (some (s.kalloc p np ok))
  := by
  have hnp := h.embryo_of_call hcall rfl
  cases ok with
  | true => exact .of_view (allocSetup_spec hq hnp).1.grown rfl (.kalloc hcall)
  | false =>
    obtain ⟨t', ht', hgrown, hview⟩ := hq.rollback_view hnp
    simp only [Sys.kalloc, Bool.false_eq_true, if_false, ht', bind, Except.bind]
    exact .of_view hgrown hview (.rollback (.inl ⟨rfl, hcall⟩))

theorem refines_copyuvm {np : Slot} (hcall : (s.thread p).call = .setup np) (ok : Bool) :
  Refines (Grown (q top)) (View.StepOn s.view c p (.copyuvm c ok)) (some (s.copyuvm p np ok))
  := by
  cases ok with
  | true => exact .of_view (forkFill_spec hq p np).1.grown rfl (.copyuvm hcall)
  | false =>
    obtain ⟨t', ht', hgrown, hview⟩ := hq.rollback_view (h.embryo_of_call hcall rfl)
    simp only [Sys.copyuvm, Bool.false_eq_true, if_false, ht', bind, Except.bind]
    exact .of_view hgrown hview (.rollback (.inr ⟨rfl, hcall⟩))

/-- The last critical section of `fork`. -/
theorem forkEnqueue_view {np : Slot} (hcall : (s.thread p).call = .filled np) :
  ∃ t', Ptable.forkEnqueue s.pt np = .ok t' ∧ Grown (q top) t' ∧
    (Sys.setCall { s with pt := t' } p .user).view
      = (s.view.modify np ({ · with state := .runnable })).setCall p .user
  := by
  have ho : s.pending (.proc p) = some np := congrArg Call.pending hcall
  obtain ⟨t', ht', hq', hproc, honly⟩ := forkEnqueue_spec hq (h.embryo _ _ ho)
    (h.prepared _ _ ho (congrArg Call.prepared hcall))
  exact ⟨t', ht', hq'.grown_move (by simp),
    congrArg (fun v => View.setCall v p .user) (honly.view_modify hproc)⟩

theorem refines_exit (hc : s.cpu c = some p) :
  Refines (Grown (q top)) (View.StepOn s.view c p (.exit c)) (s.stepOn c p (.exit c))
  := by
  obtain ⟨t', q', ht', hq', hpre, hothers, hself, hvars⟩ := exit_spec hq (h.running c p hc)
  have hproc : t'.proc = update (fun x => s.view.bereaved p (s.pt.proc x)) p
      (tallied s.pt.ticks { s.view.bereaved p (s.pt.proc p) with state := .zombie }) :=
    Function.eq_update_iff.mpr ⟨hself, hothers⟩
  have hview : (s.leave c p t' ⟨.user, false⟩).view = s.view.exit c p := by
    simp only [Sys.view, Sys.leave, View.exit, View.leave, View.setCpu, View.setThread,
      View.modify, hproc, hvars.promoteAtTime, hvars.nextpid, hvars.initproc, hvars.ticks]
  apply System.Outcome.guard
  intro hcall
  simp only [ht', bind, Except.bind]
  exact Refines.of_view ⟨q', hq', hpre _⟩ hview (.exit hcall)

/-- The steps of a process are steps of the view, and add to the end of `ready[MAXPRIO]` at most. -/
theorem refines_stepOn
    (hc : s.cpu c = some p) {l : Label} (hlc : l.cpu = some c) (hl : AllocFresh s l) :
  Refines (Grown (q top)) (View.StepOn s.view c p l) (s.stepOn c p l)
  := by
  cases l with
  | yield c' =>
    cases hlc
    obtain ⟨t', j, ht', hq', -, hproc, honly⟩ := yield_spec hq (h.running c p hc)
    simp only [Sys.stepOn, ht', bind, Except.bind]
    exact .of_view (hq'.grown_move (by simp)) (honly.view_leave hproc c _) .yield
  | sleep c' chan =>
    cases hlc
    obtain ⟨t', ht', hgrown, hview⟩ := h.sleep_view hq hc chan (s.thread p).call
    simp only [Sys.stepOn, ht', bind, Except.bind]
    exact .of_view hgrown hview (.sleep chan)
  | exitClose c' =>
    cases hlc
    have hclose : Good (s.pt.modify p ({ · with ofile := fun _ => none, cwd := none })) q :=
      hq.modify_same rfl rfl
    apply System.Outcome.guard
    intro hcall
    split
    · simp [System.Outcome, Fault.outsideLists]
    · rename_i hinit
      exact Refines.of_view hclose.grown rfl (.exitClose hcall hinit)
  | exit c' =>
    cases hlc
    apply h.refines_exit hq hc
  | wait c' =>
    cases hlc
    apply System.Outcome.guard
    intro hcall
    apply (h.refines_waited hq hc).mono
    rintro s' ⟨hgrown, hs'⟩
    exact ⟨hgrown, .wait hcall hs'⟩
  | allocproc c' =>
    cases hlc
    apply System.Outcome.guard
    intro hcall
    split
    · rename_i hnp
      exact Refines.of_view hq.grown rfl (.allocNone (.inl rfl) hcall (h.no_unused_of_head hnp))
    · rename_i np hnp
      apply refines_allocLock hq (h.unused_of_head hnp) (.inl ⟨rfl, hcall⟩)
  | allocRead c' =>
    cases hlc
    apply System.Outcome.guard
    intro hcall
    split
    · rename_i hnp
      exact Refines.of_view hq.grown rfl (.allocNone (.inr rfl) hcall (h.no_unused_of_head hnp))
    · rename_i np hnp
      exact Refines.of_view hq.grown rfl (.allocRead hcall (h.unused_of_head hnp))
  | allocLock c' =>
    cases hlc
    simp only [Sys.stepOn]
    split
    · rename_i np hcall
      apply refines_allocLock hq (hl p np hc hcall) (.inr ⟨rfl, hcall⟩)
    · trivial
  | kalloc c' ok =>
    cases hlc
    simp only [Sys.stepOn]
    split
    · rename_i np hcall
      apply h.refines_kalloc hq hcall
    · trivial
  | copyuvm c' ok =>
    cases hlc
    simp only [Sys.stepOn]
    split
    · rename_i np hcall
      apply h.refines_copyuvm hq hcall
    · trivial
  | forkEnqueue c' =>
    cases hlc
    simp only [Sys.stepOn]
    split
    · rename_i np hcall
      obtain ⟨t', ht', hgrown, hview⟩ := h.forkEnqueue_view hq hcall
      simp only [ht', bind, Except.bind]
      exact .of_view hgrown hview (.forkEnqueue hcall)
    · trivial
  | _ => cases hlc

/-- The steps of `userinit` are steps of the view, and add to the end of `ready[MAXPRIO]` at
most. -/
theorem refines_stepBoot (l : Label) :
  Refines (Grown (q top)) (View.StepBoot s.view l) (s.stepBoot l)
  := by
  cases l with
  | bootAlloc =>
    simp only [Sys.stepBoot]
    split
    · rename_i hb
      split
      · simp [System.Outcome, Fault.outsideLists]
      · rename_i np hnp
        have hun := h.unused_of_head hnp
        obtain ⟨t', ht', hgrown, hview⟩ := hq.allocLocked_view hun
        have hview' : Sys.view { s with pt := t', boot := .kalloc np }
            = { s.view.alloc np with boot := .kalloc np } :=
          congrArg (fun v : View => { v with boot := .kalloc np }) hview
        simp only [ht', bind, Except.bind]
        exact .of_view hgrown hview' (.alloc hb hun)
    · trivial
  | bootKalloc ok =>
    simp only [Sys.stepBoot]
    split
    · rename_i np hb
      have hnp := h.embryo_of_boot hb rfl
      split
      · rename_i hok
        subst hok
        exact .of_view (allocSetup_spec hq hnp).1.grown rfl (.kalloc hb)
      · obtain ⟨t', ht', -⟩ := rollback_spec hq hnp
        simp [ht', bind, Except.bind, System.Outcome, Fault.outsideLists]
    · trivial
  | bootSetup ok root =>
    simp only [Sys.stepBoot]
    split
    · rename_i np hb
      split
      · rename_i hok
        subst hok
        exact .of_view (userinitFill_spec hq np root).1.grown rfl (.setup hb root)
      · simp [System.Outcome, Fault.outsideLists]
    · trivial
  | bootEnqueue =>
    simp only [Sys.stepBoot]
    split
    · rename_i np hb
      have ho : s.pending .boot = some np := congrArg Boot.pending hb
      obtain ⟨t', ht', hq', hproc, honly⟩ := userinitEnqueue_spec hq (h.embryo _ _ ho)
        (h.prepared _ _ ho (congrArg Boot.prepared hb))
      simp only [ht', bind, Except.bind]
      refine ⟨hq'.grown_move (by simp), ?_⟩
      simp only [Sys.view, honly.proc_eq hproc, honly.promoteAtTime, honly.nextpid,
        honly.initproc, honly.ticks]
      apply View.StepBoot.enqueue hb
    · trivial
  | _ => trivial

/-! ### Steps -/

theorem refines_schedule (c : Cpu) :
  Refines (Queued s (.schedule c) (q top))
    (View.Step s.view (.schedule c) (s.dispatched (.schedule c))) (s.step (.schedule c))
  := by
  simp only [Sys.step]
  split
  · trivial
  rename_i hidle
  have hc : s.view.cpu c = none := Option.not_isSome_iff_eq_none.mp hidle
  rw [Sys.schedule]
  rcases h.scheduler_view hq c with ⟨t, ht, hgrown, hview, hno⟩ |
    ⟨p, t, ht, hinv, hview, hs, hmax, htop, q₁, hq₁, hpre⟩
  · have hd : s.dispatched (.schedule c) = none := by
      rw [Sys.dispatched, ht]
    rw [ht, hd]
    exact .of_view (.of_grown hd hgrown) hview (.idle hc hno)
  · have hd : s.dispatched (.schedule c) = some p := by
      rw [Sys.dispatched, ht]
    rw [ht]
    simp only [bind, Except.bind]
    apply (hinv.refines_resumed hq₁ (update_self ..)).mono
    rintro s' ⟨⟨q', hq', hpre'⟩, hres⟩
    rw [hview] at hres
    rw [Queued, hd]
    exact ⟨⟨q', hq', .of_tail htop (hpre.trans hpre')⟩, .dispatch hc hs hmax hres⟩

omit h in
theorem refines_setpriority (pid priority : Int32) :
  Refines (Queued s (.setpriority pid priority) (q top))
    (View.Step s.view (.setpriority pid priority) none) (s.step (.setpriority pid priority))
  := by
  have hactive : ∀ st : ProcState, st ∈ [ProcState.sleeping, .runnable, .running] ↔ Active st := by
    intro st
    simp [Active]
  rcases hq.toLinked.setpriority (fun _ => hq.homed) pid priority with
    ⟨hk, hfinds⟩ | ⟨p, id, t', q', hk, hvalid, hfinds, hl, hproc, honly, hlists⟩
  · simp only [Sys.step, hk, bind, Except.bind]
    refine .of_view (.of_grown rfl hq.grown) rfl (.setpriorityNone ?_)
    intro hvalid x hx
    apply hfinds hvalid x ((hactive _).mpr hx)
  · have hbounded : ∀ x, Active (t'.proc x).state → (t'.proc x).priority ≤ maxPrio := by
      intro x hx
      rcases eq_or_ne x p with rfl | hne
      · rw [hproc, reprioritized_priority]
        apply hvalid.toNat_le
      · rw [honly.others x hne] at hx ⊢
        apply hq.bounded x hx
    simp only [Sys.step, hk, bind, Except.bind]
    refine .of_view ⟨q', ⟨hl, hbounded⟩, ?_⟩ (honly.view_modify hproc)
      (.setpriority hvalid ((hactive _).mp hfinds.2.1) hfinds.2.2)
    rw [hlists]
    split
    · by_cases hi : top = .ready (Fin.ofNat _ (s.pt.proc p).priority)
      · refine ⟨(q top).erase p, List.erase_sublist, ?_, fun hd => absurd rfl hd, ?_⟩
        · rw [move, if_pos hi, ← hi]
          apply List.prefix_append
        · intro x hx hnot
          right
          refine ⟨pid, priority, rfl, ?_⟩
          have hxp : x = p := by
            by_contra hne
            apply hnot ((List.mem_erase_of_ne hne).mpr hx)
          rw [hxp]
          apply hfinds.2.2
      · apply Queues.of_prefix
        apply prefix_move q p _ hi
    · apply Queues.of_prefix List.prefix_rfl

omit h in
theorem refines_kill (pid : Int32) :
  Refines (Grown (q top)) (View.Step s.view (.kill pid) none) (s.step (.kill pid))
  := by
  have hscan : ∀ st : ProcState, st ∈ scanStates ↔ st ≠ .unused := by
    intro st
    cases st <;> decide
  rcases kill_spec hq pid with ⟨hk, hfinds⟩ | ⟨p, id, t', q', hk, hfinds, hq', hw, hproc, honly⟩
  · simp only [Sys.step, hk, bind, Except.bind]
    refine .of_view hq.grown rfl (.killNone ?_)
    intro x hx
    apply hfinds x ((hscan _).mpr hx)
  · simp only [Sys.step, hk, bind, Except.bind]
    exact .of_view ⟨q', hq', hw.ready _⟩ (honly.view_modify hproc)
      (.kill ((hscan _).mp hfinds.2.1) hfinds.2.2)

omit h in
theorem refines_wakeup (chan : Chan) :
  Refines (Grown (q top)) (View.Step s.view (.wakeup chan) none) (s.step (.wakeup chan))
  := by
  obtain ⟨t', q', ht', hq', hw, hproc, hvars⟩ := wakeup1_woken hq chan
  have hproc' : t'.proc = fun x => woken chan (s.pt.proc x) := funext hproc
  have hview : Sys.view { s with pt := t' } = s.view.wake chan := by
    simp only [Sys.view, View.wake, hproc', hvars.promoteAtTime, hvars.nextpid, hvars.initproc,
      hvars.ticks]
  simp only [Sys.step, ht', bind, Except.bind]
  exact .of_view ⟨q', hq', hw.ready _⟩ hview (.wakeup chan)

/-- Every step of the kernel is a step of the view. -/
theorem refines_step {l : Label} (hl : AllocFresh s l) :
  Refines (Queued s l (q top)) (View.Step s.view l (s.dispatched l)) (s.step l)
  := by
  have hgrown : ∀ {x P}, s.dispatched l = none → Refines (Grown (q top)) P x →
      (∀ v, P v → View.Step s.view l none v) →
      Refines (Queued s l (q top)) (View.Step s.view l (s.dispatched l)) x := by
    intro x P hd hx hP
    apply hx.mono
    rintro s' ⟨hg, hs'⟩
    rw [hd]
    exact ⟨.of_grown hd hg, hP _ hs'⟩
  have hboot := h.refines_stepBoot hq l
  cases l with
  | tick =>
    refine .of_view (.of_grown rfl ⟨q, hq.of_eq _ rfl rfl ?_, List.prefix_rfl⟩) rfl .tick
    intro id
    cases id <;> rfl
  | schedule c => apply h.refines_schedule hq
  | wakeup chan => apply hgrown rfl (refines_wakeup hq chan) fun _ => id
  | kill pid => apply hgrown rfl (refines_kill hq pid) fun _ => id
  | setpriority pid priority => apply refines_setpriority hq
  | bootAlloc | bootKalloc ok | bootSetup ok root | bootEnqueue =>
    apply hgrown rfl hboot fun _ => .boot
  | yield c | sleep c chan | exitClose c | exit c | wait c | allocproc c | allocRead c
  | allocLock c | kalloc c ok | copyuvm c ok | forkEnqueue c =>
    rw [Sys.step]
    cases hc : s.cpu c with
    | none => trivial
    | some p => apply hgrown rfl (h.refines_stepOn hq hc rfl hl) fun v hv => .on hc hv

end

end

end Inv

end Xv6.Ptable
