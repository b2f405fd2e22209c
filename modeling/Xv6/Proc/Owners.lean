import Xv6.Proc.View

/-!
# The invariant of the kernel

In every state between critical sections the table is good, the processors run distinct running
slots, and every slot that `fork` or `userinit` prepares is an embryo with one owner.  All of this
but the first is about the view, and every step of the view keeps it.
-/

namespace Xv6.Ptable

open Function (update update_self update_of_ne)

/-! ### Slots in preparation -/

/-- The slot that a call prepares. -/
def Call.pending : Call → Option Slot
  | .alloc np | .setup np | .filled np => some np
  | _ => none

/-- Whether `allocproc` has set up the slot that a call prepares. -/
def Call.prepared : Call → Bool
  | .setup _ | .filled _ => true
  | _ => false

/-- The slot that `userinit` prepares. -/
def Boot.pending : Boot → Option Slot
  | .kalloc p | .setup p | .filled p => some p
  | _ => none

/-- Whether `allocproc` has set up the slot that `userinit` prepares. -/
def Boot.prepared : Boot → Bool
  | .setup _ | .filled _ => true
  | _ => false

/-- Who prepares a slot. -/
inductive Owner where
  | boot
  | proc (p : Slot)
  deriving DecidableEq

namespace Sys

/-- The slot that an owner prepares. -/
def pending (s : Sys) : Owner → Option Slot
  | .boot => s.boot.pending
  | .proc p => (s.thread p).call.pending

/-- Whether `allocproc` has set up the slot that an owner prepares. -/
def prepared (s : Sys) : Owner → Bool
  | .boot => s.boot.prepared
  | .proc p => (s.thread p).call.prepared

end Sys

/-- The invariant of the kernel between critical sections. -/
structure Inv (s : Sys) : Prop where
  good : ∃ q, Good s.pt q
  running : ∀ c p, s.cpu c = some p → (s.pt.proc p).state = .running
  cpu_inj : ∀ c c' p, s.cpu c = some p → s.cpu c' = some p → c = c'
  embryo : ∀ o np, s.pending o = some np → (s.pt.proc np).state = .embryo
  prepared : ∀ o np, s.pending o = some np → s.prepared o → (s.pt.proc np).priority = maxPrio
  owner : ∀ o o' np, s.pending o = some np → s.pending o' = some np → o = o'

/-- The slot that `allocproc` has read is still free when it enters its critical section. -/
def AllocFresh (s : Sys) : Label → Prop
  | .allocLock c => ∀ p np, s.cpu c = some p → (s.thread p).call = .allocRead np →
      (s.pt.proc np).state = .unused
  | _ => True

theorem AllocFresh.of_atomic (s : Sys) (l : Label) (h : l.allocAtomic) :
  AllocFresh s l
  := by cases l <;> trivial

namespace View

/-- The slot that an owner prepares. -/
def pending (v : View) : Owner → Option Slot
  | .boot => v.boot.pending
  | .proc p => (v.thread p).call.pending

/-- Whether `allocproc` has set up the slot that an owner prepares. -/
def prepared (v : View) : Owner → Bool
  | .boot => v.boot.prepared
  | .proc p => (v.thread p).call.prepared

/-- The invariant of the kernel without the lists. -/
structure Owned (v : View) : Prop where
  running : ∀ c p, v.cpu c = some p → (v.proc p).state = .running
  cpu_inj : ∀ c c' p, v.cpu c = some p → v.cpu c' = some p → c = c'
  embryo : ∀ o np, v.pending o = some np → (v.proc np).state = .embryo
  prepared : ∀ o np, v.pending o = some np → v.prepared o → (v.proc np).priority = maxPrio
  owner : ∀ o o' np, v.pending o = some np → v.pending o' = some np → o = o'

end View

theorem Inv.owned {s : Sys} (h : Inv s) :
  s.view.Owned
  := ⟨h.running, h.cpu_inj, h.embryo, h.prepared, h.owner⟩

theorem View.Owned.inv {s : Sys} (h : s.view.Owned) {q : ListId → List Slot} (hq : Good s.pt q) :
  Inv s
  := ⟨⟨q, hq⟩, h.running, h.cpu_inj, h.embryo, h.prepared, h.owner⟩

/-- A slot stays an embryo with its priority, or stays running, if it was. -/
structure Steady (x y : Proc) : Prop where
  embryo : x.state = .embryo → y.state = .embryo ∧ y.priority = x.priority
  running : x.state = .running → y.state = .running

namespace Steady

variable {x y : Proc}

theorem of_same (hs : y.state = x.state) (hp : y.priority = x.priority) :
  Steady x y
  := ⟨fun h => ⟨hs.trans h, hp⟩, fun h => hs.trans h⟩

/-- A slot that is no embryo and not running may change. -/
theorem of_ne (he : x.state ≠ .embryo) (hr : x.state ≠ .running) :
  Steady x y
  := ⟨fun h => absurd h he, fun h => absurd h hr⟩

/-- Only sleeping slots change their state. -/
theorem of_woken
    {st : ProcState} {parent : Option Slot}
    (h : st = x.state ∨ x.state = .sleeping ∧ st = .runnable) :
  Steady x { x with state := st, parent := parent }
  := by
  rcases h with h | ⟨hs, -⟩
  · exact of_same h rfl
  · apply of_ne
    · simp [hs]
    · simp [hs]

end Steady

namespace View

/-- Another thread changes nothing for an owner. -/
theorem setThread_others (v : View) {p : Slot} (th : Thread) {o : Owner} (ho : o ≠ .proc p) :
  (v.setThread p th).pending o = v.pending o ∧ (v.setThread p th).prepared o = v.prepared o
  := by
  cases o with
  | boot => exact ⟨rfl, rfl⟩
  | proc x =>
    have hx : x ≠ p := by
      rintro rfl
      apply ho rfl
    simp only [pending, prepared, setThread_thread_of_ne v th hx, and_self]

namespace Owned

variable {v v' : View} {l : Label} {d : Option Slot} {c : Cpu} {p : Slot}

section

variable (h : v.Owned)

include h

/-- A slot in preparation is on no processor. -/
theorem cpu_ne_pending {o : Owner} {np : Slot} (ho : v.pending o = some np) (c : Cpu) :
  v.cpu c ≠ some np
  := by
  intro hc
  cases (h.running c np hc).symm.trans (h.embryo o np ho)

/-! ### Rules -/

/-- A step after which the owners have no new slots and the processors no new processes, and which
does not disturb those that they have, keeps the invariant. -/
theorem frame
    (hpend : ∀ o x, v'.pending o = some x →
      v.pending o = some x ∧ (v'.prepared o → v.prepared o) ∧ Steady (v.proc x) (v'.proc x))
    (hcpu : ∀ c x, v'.cpu c = some x → v.cpu c = some x ∧ Steady (v.proc x) (v'.proc x)) :
  v'.Owned
  := by
  refine ⟨?_, ?_, ?_, ?_, ?_⟩
  · intro c x hx
    obtain ⟨hx, hu⟩ := hcpu c x hx
    apply hu.running (h.running c x hx)
  · intro c₁ c₂ x h₁ h₂
    apply h.cpu_inj c₁ c₂ x (hcpu c₁ x h₁).1 (hcpu c₂ x h₂).1
  · intro o x ho
    obtain ⟨ho, -, hu⟩ := hpend o x ho
    apply (hu.embryo (h.embryo o x ho)).1
  · intro o x ho hpre
    obtain ⟨ho, hpre', hu⟩ := hpend o x ho
    rw [(hu.embryo (h.embryo o x ho)).2]
    apply h.prepared o x ho (hpre' hpre)
  · intro o o' x ho ho'
    apply h.owner o o' x (hpend o x ho).1 (hpend o' x ho').1

/-- A change of the slots that disturbs none of them. -/
theorem steady
    (hproc : ∀ x, Steady (v.proc x) (v'.proc x)) (hcpu : v'.cpu = v.cpu)
    (hpend : v'.pending = v.pending) (hprep : v'.prepared = v.prepared) :
  v'.Owned
  := by
  apply h.frame
  · intro o x ho
    rw [hpend] at ho
    exact ⟨ho, fun hpre => hprep ▸ hpre, hproc x⟩
  · intro c x hx
    rw [hcpu] at hx
    exact ⟨hx, hproc x⟩

theorem modify {f : Proc → Proc} (hf : Steady (v.proc p) (f (v.proc p))) :
  (v.modify p f).Owned
  := by
  refine h.steady ?_ rfl rfl rfl
  intro x
  rcases eq_or_ne x p with rfl | hx
  · rw [View.modify_proc_self]
    apply hf
  · rw [View.modify_proc_of_ne v f hx]
    exact .of_same rfl rfl

/-- The owners have no new slots if one thread changes and prepares none, or the same. -/
theorem setThread {th : Thread} (hth : th.call.pending = none ∨ th.call = (v.thread p).call) :
  (v.setThread p th).Owned
  := by
  apply h.frame
  · intro o x ho
    refine and_assoc.mp ⟨?_, .of_same rfl rfl⟩
    rcases eq_or_ne o (.proc p) with rfl | hne
    · simp only [pending, View.prepared, setThread_thread_self] at ho ⊢
      rcases hth with hth | hth
      · cases hth.symm.trans ho
      · rw [← hth]
        exact ⟨ho, id⟩
    · obtain ⟨hpend, hprep⟩ := setThread_others v th hne
      exact ⟨hpend ▸ ho, fun hpre => hprep ▸ hpre⟩
  · intro c x hx
    exact ⟨hx, .of_same rfl rfl⟩

/-- A process that gives up its processor. -/
theorem leave
    (hc : v.cpu c = some p) {th : Thread} (f : Proc → Proc)
    (hth : th.call.pending = none ∨ th.call = (v.thread p).call) :
  (v.leave c p th f).Owned
  := by
  have h₁ : (v.setThread p th).Owned := h.setThread hth
  have hne : ∀ x, x ≠ p → Steady (v.proc x) ((v.leave c p th f).proc x) := by
    intro x hx
    rw [leave_proc_of_ne v c th f hx]
    exact .of_same rfl rfl
  apply h₁.frame
  · intro o x ho
    refine ⟨ho, id, hne x ?_⟩
    rintro rfl
    apply h₁.cpu_ne_pending ho c hc
  · intro c' x hx
    rcases eq_or_ne c' c with rfl | hc'
    · simp [View.leave, setCpu] at hx
    · simp only [View.leave, setCpu, update_of_ne hc'] at hx
      refine ⟨hx, hne x ?_⟩
      rintro rfl
      apply hc' (h.cpu_inj c' c x hx hc)

/-- A runnable process that gets a processor. -/
theorem dispatch (hp : (v.proc p).state = .runnable) :
  (v.dispatch c p).Owned
  := by
  have hpend : ∀ o x, v.pending o = some x → x ≠ p := by
    rintro o x ho rfl
    cases hp.symm.trans (h.embryo o x ho)
  have hcases : ∀ c' x, (v.dispatch c p).cpu c' = some x →
      c' = c ∧ x = p ∨ x ≠ p ∧ v.cpu c' = some x := by
    intro c' x hx
    rcases eq_or_ne c' c with rfl | hc'
    · left
      simpa [eq_comm] using hx
    · right
      simp only [View.dispatch, setCpu, update_of_ne hc'] at hx
      refine ⟨?_, hx⟩
      rintro rfl
      cases hp.symm.trans (h.running c' x hx)
  refine ⟨?_, ?_, ?_, ?_, h.owner⟩
  · intro c' x hx
    rcases hcases c' x hx with ⟨-, rfl⟩ | ⟨hxp, hx⟩
    · rw [dispatch_proc_self]
      rfl
    · rw [dispatch_proc_of_ne v c hxp]
      apply h.running c' x hx
  · intro c₁ c₂ x h₁ h₂
    rcases hcases c₁ x h₁ with ⟨rfl, rfl⟩ | ⟨hxp, h₁⟩
    · rcases hcases c₂ x h₂ with ⟨rfl, -⟩ | ⟨hxp, -⟩
      · rfl
      · cases hxp rfl
    · rcases hcases c₂ x h₂ with ⟨-, rfl⟩ | ⟨-, h₂⟩
      · cases hxp rfl
      · apply h.cpu_inj c₁ c₂ x h₁ h₂
  · intro o x ho
    rw [dispatch_proc_of_ne v c (hpend o x ho)]
    apply h.embryo o x ho
  · intro o x ho hpre
    rw [dispatch_proc_of_ne v c (hpend o x ho)]
    apply h.prepared o x ho hpre

/-- A step of the owner `o` on the slot `np` that it prepares, or that is free. -/
theorem own
    {o : Owner} {np : Slot} (hnp : v.pending o = some np ∨ (v.proc np).state = .unused) {y : Proc}
    (hcpu : v'.cpu = v.cpu) (hproc : v'.proc = update v.proc np y)
    (hothers : ∀ o', o' ≠ o → v'.pending o' = v.pending o' ∧ v'.prepared o' = v.prepared o')
    (hnew : ∀ x, v'.pending o = some x → x = np ∧ y.state = .embryo ∧
      (v'.prepared o → y.priority = maxPrio)) :
  v'.Owned
  := by
  have hold : ∀ o' x, o' ≠ o → v'.pending o' = some x → v.pending o' = some x ∧ x ≠ np := by
    intro o' x ho' hx
    rw [(hothers o' ho').1] at hx
    use hx
    rintro rfl
    rcases hnp with ho | hun
    · apply ho' (h.owner o' o x hx ho)
    · cases hun.symm.trans (h.embryo o' x hx)
  refine ⟨?_, ?_, ?_, ?_, ?_⟩
  · intro c x hx
    rw [hcpu] at hx
    have hne : x ≠ np := by
      rintro rfl
      rcases hnp with ho | hun
      · apply h.cpu_ne_pending ho c hx
      · cases hun.symm.trans (h.running c x hx)
    rw [hproc, update_of_ne hne]
    apply h.running c x hx
  · rw [hcpu]
    apply h.cpu_inj
  · intro o' x hx
    rcases eq_or_ne o' o with rfl | ho'
    · obtain ⟨rfl, hs, -⟩ := hnew x hx
      rw [hproc, update_self, hs]
    · obtain ⟨hx, hne⟩ := hold o' x ho' hx
      rw [hproc, update_of_ne hne]
      apply h.embryo o' x hx
  · intro o' x hx hpre
    rcases eq_or_ne o' o with rfl | ho'
    · obtain ⟨rfl, -, hprio⟩ := hnew x hx
      rw [hproc, update_self, hprio hpre]
    · obtain ⟨hx, hne⟩ := hold o' x ho' hx
      rw [(hothers o' ho').2] at hpre
      rw [hproc, update_of_ne hne]
      apply h.prepared o' x hx hpre
  · intro o₁ o₂ x h₁ h₂
    rcases eq_or_ne o₁ o with rfl | ho₁
    · rcases eq_or_ne o₂ o₁ with rfl | ho₂
      · rfl
      · cases (hold o₂ x ho₂ h₂).2 (hnew x h₁).1
    · rcases eq_or_ne o₂ o with rfl | ho₂
      · cases (hold o₁ x ho₁ h₁).2 (hnew x h₂).1
      · apply h.owner o₁ o₂ x (hold o₁ x ho₁ h₁).1 (hold o₂ x ho₂ h₂).1

/-- A step of a process on the slot that it prepares, or that is free. -/
theorem own_setCall
    {np : Slot} (hnp : v.pending (.proc p) = some np ∨ (v.proc np).state = .unused) {y : Proc}
    {call : Call} (hcpu : v'.cpu = v.cpu) (hthread : v'.thread = v.thread)
    (hboot : v'.boot = v.boot) (hproc : v'.proc = update v.proc np y)
    (hnew : ∀ x, call.pending = some x → x = np ∧ y.state = .embryo ∧
      (call.prepared → y.priority = maxPrio)) :
  (v'.setCall p call).Owned
  := by
  refine h.own (o := .proc p) hnp hcpu hproc ?_ ?_
  · intro o ho
    obtain ⟨hpend, hprep⟩ := setThread_others v' ⟨call, false⟩ ho
    rw [setCall, hpend, hprep]
    cases o with
    | boot => simp only [pending, View.prepared, hboot, and_self]
    | proc x => simp only [pending, View.prepared, hthread, and_self]
  · intro x hx
    simp only [pending, View.prepared, setCall, setThread_thread_self] at hx ⊢
    apply hnew x hx

/-- A step of `userinit` on the slot that it prepares, or that is free. -/
theorem own_boot
    {np : Slot} (hnp : v.pending .boot = some np ∨ (v.proc np).state = .unused) {y : Proc}
    (hcpu : v'.cpu = v.cpu) (hthread : v'.thread = v.thread) (hproc : v'.proc = update v.proc np y)
    (hnew : ∀ x, v'.boot.pending = some x → x = np ∧ y.state = .embryo ∧
      (v'.boot.prepared → y.priority = maxPrio)) :
  v'.Owned
  := by
  apply h.own hnp hcpu hproc _ hnew
  intro o ho
  cases o with
  | boot => cases ho rfl
  | proc x => simp only [pending, View.prepared, hthread, and_self]

/-! ### The steps keep the invariant -/

theorem promote :
  v.promote.Owned
  := by
  rw [View.promote]
  split
  · refine h.steady ?_ rfl rfl rfl
    intro x
    change Steady (v.proc x) (promotion (v.proc x))
    constructor
    · intro hs
      rw [promotion, if_neg (by simp [hs])]
      exact ⟨hs, rfl⟩
    · intro hs
      rw [promotion, if_pos (by simp [hs])]
      apply hs
  · apply h

theorem tidy :
  (v.tidy p).Owned
  := by
  rw [View.tidy]
  split
  · exact (h.modify (f := ({ · with chan := .null })) (.of_same rfl rfl)).setThread (.inr rfl)
  · apply h

theorem waited (hc : v.cpu c = some p) (hw : Waited v c p v') :
  v'.Owned
  := by
  cases hw with
  | reaped x hz =>
    refine (h.modify (.of_ne ?_ ?_)).setThread (.inl rfl)
    · simp [hz]
    · simp [hz]
  | failed => apply h.setThread (.inl rfl)
  | asleep => apply h.leave hc _ (.inl rfl)

theorem stepOn (hc : v.cpu c = some p) (hstep : StepOn v c p l v') :
  v'.Owned
  := by
  cases hstep with
  | yield => apply h.leave hc _ (.inr rfl)
  | sleep => exact h.leave hc _ (.inr rfl)
  | exitClose => exact (h.modify (.of_same rfl rfl)).setThread (.inl rfl)
  | exit =>
    have hbereaved : View.Owned { v with proc := fun x => v.bereaved p (v.proc x) } := by
      refine h.steady ?_ rfl rfl rfl
      intro x
      change Steady (v.proc x) (v.bereaved p (v.proc x))
      obtain ⟨st, parent, heq, hst, -⟩ := v.bereaved_eq p (v.proc x)
      rw [heq]
      exact .of_woken hst
    apply hbereaved.leave hc _ (.inl rfl)
  | wait _ hw => apply h.waited hc hw
  | allocNone => apply h
  | allocRead => apply h.setThread (.inl rfl)
  | alloc _ hnp =>
    refine h.own_setCall (.inr hnp) rfl rfl rfl rfl ?_
    rintro x ⟨⟩
    exact ⟨rfl, rfl, by rintro ⟨⟩⟩
  | @kalloc np hcall =>
    have ho : v.pending (.proc p) = some np := congrArg Call.pending hcall
    have hne : p ≠ np := by
      rintro rfl
      apply h.cpu_ne_pending ho c hc
    -- the thread of the new slot starts afresh, and then the slot is set up
    have h₁ : (v.setCall np .user).Owned := h.setThread (.inl rfl)
    have ho₁ : (v.setCall np .user).pending (.proc p) = some np := by
      simp only [pending, setCall, setThread_thread_of_ne _ _ hne]
      apply ho
    refine h₁.own_setCall (.inl ho₁) rfl rfl rfl rfl ?_
    rintro x ⟨⟩
    exact ⟨rfl, h.embryo _ _ ho, fun _ => rfl⟩
  | @copyuvm np hcall =>
    have ho : v.pending (.proc p) = some np := congrArg Call.pending hcall
    refine h.own_setCall (.inl ho) rfl rfl rfl rfl ?_
    rintro x ⟨⟩
    exact ⟨rfl, h.embryo _ _ ho, fun _ => h.prepared _ _ ho (congrArg Call.prepared hcall)⟩
  | @rollback l np hl =>
    have ho : v.pending (.proc p) = some np := by
      rcases hl with ⟨-, hcall⟩ | ⟨-, hcall⟩
      · exact congrArg Call.pending hcall
      · exact congrArg Call.pending hcall
    exact h.own_setCall (.inl ho) rfl rfl rfl rfl (by rintro _ ⟨⟩)
  | forkEnqueue hcall =>
    exact h.own_setCall (.inl (congrArg Call.pending hcall)) rfl rfl rfl rfl (by rintro _ ⟨⟩)

theorem stepBoot (hstep : StepBoot v l v') :
  v'.Owned
  := by
  cases hstep with
  | alloc _ hnp =>
    refine h.own_boot (.inr hnp) rfl rfl rfl ?_
    rintro x ⟨⟩
    exact ⟨rfl, rfl, by rintro ⟨⟩⟩
  | @kalloc np hb =>
    have ho : v.pending .boot = some np := congrArg Boot.pending hb
    have h₁ : (v.setCall np .user).Owned := h.setThread (.inl rfl)
    refine h₁.own_boot (.inl ho) rfl rfl rfl ?_
    rintro x ⟨⟩
    exact ⟨rfl, h.embryo _ _ ho, fun _ => rfl⟩
  | @setup np hb root =>
    have ho : v.pending .boot = some np := congrArg Boot.pending hb
    refine h.own_boot (.inl ho) rfl rfl rfl ?_
    rintro x ⟨⟩
    exact ⟨rfl, h.embryo _ _ ho, fun _ => h.prepared _ _ ho (congrArg Boot.prepared hb)⟩
  | enqueue hb => exact h.own_boot (.inl (congrArg Boot.pending hb)) rfl rfl rfl (by rintro _ ⟨⟩)

/-- Every step keeps the invariant. -/
theorem step (hstep : Step v l d v') :
  v'.Owned
  := by
  cases hstep with
  | tick => exact ⟨h.running, h.cpu_inj, h.embryo, h.prepared, h.owner⟩
  | idle => apply h.promote
  | @dispatch c p _ _ hp _ hres =>
    have hdisp : (v.promote.dispatch c p).Owned := h.promote.dispatch (by rw [promote_state, hp])
    rw [Resumed] at hres
    split at hres
    · apply hdisp.tidy.waited _ hres
      rw [tidy_cpu, dispatch_cpu_self]
    · rw [hres]
      apply hdisp.tidy
  | wakeup chan =>
    refine h.steady ?_ rfl rfl rfl
    intro x
    obtain ⟨st, heq, hst⟩ := woken_eq chan (v.proc x)
    change Steady (v.proc x) (woken chan (v.proc x))
    rw [heq]
    exact .of_woken hst
  | killNone | setpriorityNone => apply h
  | kill =>
    apply h.modify
    constructor
    · intro hs
      simp [killed, hs]
    · intro hs
      simp [killed, hs]
  | @setpriority _ _ p _ hp =>
    apply h.modify
    constructor
    · intro hs
      simp [Active, hs] at hp
    · intro hs
      rw [reprioritized]
      split
      · apply hs
      · apply hs
  | boot hb => apply h.stepBoot hb
  | on hc ho => apply h.stepOn hc ho

end

end Owned

end View

section

variable {s : Sys} (h : Inv s)

include h

/-- The slot that a call prepares is an embryo. -/
theorem Inv.embryo_of_call
    {p np : Slot} {call : Call} (hcall : (s.view.thread p).call = call)
    (hnp : call.pending = some np) :
  (s.view.proc np).state = .embryo
  := h.embryo (.proc p) np ((congrArg Call.pending hcall).trans hnp)

/-- The slot that `userinit` prepares is an embryo. -/
theorem Inv.embryo_of_boot
    {np : Slot} {b : Boot} (hboot : s.view.boot = b) (hnp : b.pending = some np) :
  (s.view.proc np).state = .embryo
  := h.embryo .boot np ((congrArg Boot.pending hboot).trans hnp)

end

end Xv6.Ptable
