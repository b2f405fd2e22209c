import Mathlib.Logic.Relation

/-!
# Transition systems with failing steps

A `System S L F` has states `S`, labels `L` and failures `F`.  A label is disabled in a state,
or it fails there, or it leads to another state.  `Reach M ok` is the set of states that runs of
`M` reach when every step of the run satisfies the side condition `ok`.
-/

universe u v w

/-- A labelled transition system.  `step s l` is `none` when `l` is not enabled in `s`,
`some (.error f)` when the step fails with `f`, and `some (.ok s')` when it leads to `s'`. -/
structure System (S : Type u) (L : Type v) (F : Type w) where
  init : S → Prop
  step : S → L → Option (Except F S)

namespace System

variable {S : Type u} {L : Type v} {F : Type w} (M : System S L F)

/-- The states reached from an initial state by steps that satisfy `ok`. -/
inductive Reach (ok : S → L → Prop) : S → Prop where
  | init {s : S} (h : M.init s) : Reach ok s
  | step {s s' : S} {l : L} (h : Reach ok s) (hok : ok s l)
      (hstep : M.step s l = some (.ok s')) : Reach ok s'

/-- The states reached from an initial state by any steps. -/
def Reachable : S → Prop := M.Reach (fun _ _ => True)

variable {M}

/-- A predicate that holds initially and is kept by every step satisfying `ok` holds of every
state such steps reach. -/
theorem Reach.invariant
    {ok : S → L → Prop} {I : S → Prop}
    (hinit : ∀ s, M.init s → I s)
    (hstep : ∀ s l s', I s → ok s l → M.step s l = some (.ok s') → I s')
    {s : S} (h : M.Reach ok s) :
  I s
  := by
  induction h with
  | init h => apply hinit _ h
  | step _ hok h ih => apply hstep _ _ _ ih hok h

/-- The outcome of a step: if it leads to a state then the state satisfies `I`, and if it fails
then the failure is not `bad`. -/
def Outcome (bad : F → Prop) (I : S → Prop) : Option (Except F S) → Prop
  | none => True
  | some (.error f) => ¬ bad f
  | some (.ok s) => I s

/-- The outcome of a step with a guard. -/
theorem Outcome.guard
    {bad : F → Prop} {I : S → Prop} {c : Prop} [Decidable c] {x : Option (Except F S)}
    (h : c → Outcome bad I x) :
  Outcome bad I (if c then x else none)
  := by
  split
  · rename_i hc
    apply h hc
  · trivial

/-- Two facts about the outcome of a step hold together. -/
theorem Outcome.and
    {bad bad' : F → Prop} {I I' : S → Prop} {x : Option (Except F S)}
    (h : Outcome bad I x) (h' : Outcome bad' I' x) :
  Outcome (fun f => bad f ∨ bad' f) (fun s => I s ∧ I' s) x
  := by
  match x with
  | none => trivial
  | some (.error _) => exact not_or.mpr ⟨h, h'⟩
  | some (.ok _) => exact ⟨h, h'⟩

/-- A weaker fact about the state that a step leads to. -/
theorem Outcome.mono
    {bad : F → Prop} {I I' : S → Prop} {x : Option (Except F S)} (h : Outcome bad I x)
    (himp : ∀ s, I s → I' s) :
  Outcome bad I' x
  := by
  match x with
  | none => trivial
  | some (.error _) => exact h
  | some (.ok s) => exact himp s h

/-- If every step satisfying `ok` from a state in `I` leads to a state in `I` or fails with a
failure that is not bad, then every state such steps reach is in `I`, and no bad failure occurs
there. -/
theorem Reach.outcome
    {ok : S → L → Prop} {bad : F → Prop} {I : S → Prop}
    (hinit : ∀ s, M.init s → I s)
    (hstep : ∀ s l, I s → ok s l → Outcome bad I (M.step s l))
    {s : S} (h : M.Reach ok s) :
  I s ∧ ∀ l, ok s l → ∀ f, M.step s l = some (.error f) → ¬ bad f
  := by
  have hs : I s := by
    apply h.invariant hinit
    intro s l s' hs hok h'
    have := hstep s l hs hok
    rw [h'] at this
    apply this
  use hs
  intro l hok f hf
  have := hstep s l hs hok
  rw [hf] at this
  apply this

/-- Weakening the side condition reaches more states. -/
theorem Reach.mono
    {ok ok' : S → L → Prop} (hle : ∀ s l, ok s l → ok' s l)
    {s : S} (h : M.Reach ok s) :
  M.Reach ok' s
  := by
  induction h with
  | init h => apply Reach.init h
  | step _ hok h ih => apply Reach.step ih (hle _ _ hok) h

/-- Run the labels of a list in order, stopping at a label that is disabled or fails. -/
def run (M : System S L F) : S → List L → Option S
  | s, [] => some s
  | s, l :: ls =>
      match M.step s l with
      | some (.ok s') => run M s' ls
      | _ => none

/-- A run from a reached state whose labels all satisfy a condition implying `ok` ends in a
reached state. -/
theorem Reach.run
    {ok : S → L → Prop} {s s' : S} {ls : List L}
    (h : M.Reach ok s) (hok : ∀ l ∈ ls, ∀ s, ok s l) (hrun : M.run s ls = some s') :
  M.Reach ok s'
  := by
  induction ls generalizing s with
  | nil =>
    obtain rfl : s = s' := Option.some.inj hrun
    apply h
  | cons l ls ih =>
    rw [System.run] at hrun
    split at hrun
    · rename_i s₁ hs₁
      apply ih (Reach.step h (hok l List.mem_cons_self s) hs₁) _ hrun
      intro l' hl'
      apply hok l' (List.mem_cons_of_mem l hl')
    · cases hrun

/-- A run from an initial state to a state with a property, found by evaluation. -/
theorem exists_of_run
    (M : System S L F) {s : S} (hs : M.init s) (ls : List L) (P : S → Prop) [DecidablePred P]
    (h : (M.run s ls).any (fun s' => decide (P s')) = true) :
  ∃ s', M.run s ls = some s' ∧ M.Reachable s' ∧ P s'
  := by
  obtain ⟨s', hrun, hP⟩ := (Option.any_eq_true ..).mp h
  exact ⟨s', hrun, .run (.init hs) (fun _ _ _ => trivial) hrun, of_decide_eq_true hP⟩

/-- The failure of the label `l` after the labels of a list, if there is one. -/
def runFails (M : System S L F) (s : S) (ls : List L) (l : L) : Option F :=
  match M.run s ls with
  | none => none
  | some s' =>
      match M.step s' l with
      | some (.error f) => some f
      | _ => none

/-- A run from an initial state that fails gives a reachable state in which a step fails. -/
theorem exists_of_runFails
    {s : S} (hs : M.init s) {ls : List L} {l : L} {f : F} (h : M.runFails s ls l = some f) :
  ∃ s', M.Reachable s' ∧ M.run s ls = some s' ∧ M.step s' l = some (.error f)
  := by
  rw [runFails] at h
  split at h
  · cases h
  · rename_i s' hrun
    refine ⟨s', Reach.run (Reach.init hs) (fun _ _ _ => trivial) hrun, hrun, ?_⟩
    split at h
    · rename_i f' hf
      rw [hf, Option.some.inj h]
    · cases h

/-- The system in which only the steps satisfying `ok` are enabled. -/
def guard (M : System S L F) (ok : S → L → Prop) [∀ s l, Decidable (ok s l)] : System S L F where
  init := M.init
  step s l := if ok s l then M.step s l else none

section

variable {ok : S → L → Prop} [∀ s l, Decidable (ok s l)]

theorem guard_step {s : S} {l : L} {r : Except F S} :
  (M.guard ok).step s l = some r ↔ ok s l ∧ M.step s l = some r
  := by
  simp only [guard]
  split
  · simp [*]
  · simp [*]

/-- The guarded system reaches what steps satisfying the guard reach. -/
theorem Reach.of_guard {s : S} (h : (M.guard ok).Reachable s) :
  M.Reach ok s
  := by
  induction h with
  | init h =>
    apply Reach.init
    apply h
  | step _ _ h ih =>
    obtain ⟨hok, hstep⟩ := guard_step.mp h
    apply Reach.step ih hok hstep

variable (ok) in
/-- A run whose steps satisfy `ok`, to a state with a property, found by evaluation. -/
theorem exists_of_guard
    (M : System S L F) {s : S} (hs : M.init s) (ls : List L) (P : S → Prop) [DecidablePred P]
    (h : ((M.guard ok).run s ls).any (fun s' => decide (P s')) = true) :
  ∃ s', M.Reach ok s' ∧ P s'
  := by
  obtain ⟨s', -, hreach, hP⟩ := (M.guard ok).exists_of_run hs ls P h
  exact ⟨s', .of_guard hreach, hP⟩

end

/-! ### History variables -/

section

variable {G : Type*} {g₀ : S → G} {upd : S → L → S → G → G}

/-- The system with a history variable, which `upd` updates after every step. -/
def observe (M : System S L F) (g₀ : S → G) (upd : S → L → S → G → G) : System (S × G) L F where
  init x := M.init x.1 ∧ x.2 = g₀ x.1
  step x l := (M.step x.1 l).map fun r => r.map fun s => (s, upd x.1 l s x.2)

/-- A step whose result is changed. -/
theorem ok_of_map
    {T : Type*} {f : S → T} {x : Option (Except F S)} {t : T}
    (h : (x.map fun r => r.map f) = some (.ok t)) :
  ∃ s, x = some (.ok s) ∧ t = f s
  := by
  match x with
  | some (.ok s) =>
    cases h
    exact ⟨s, rfl, rfl⟩

theorem observe_step {x x' : S × G} {l : L} :
  (M.observe g₀ upd).step x l = some (.ok x') ↔
    M.step x.1 l = some (.ok x'.1) ∧ x'.2 = upd x.1 l x'.1 x.2
  := by
  constructor
  · intro h
    obtain ⟨s, hs, rfl⟩ := ok_of_map h
    exact ⟨hs, rfl⟩
  · rintro ⟨hs, hg⟩
    simp [observe, hs, Except.map, ← hg]

/-- The history variable does not restrict the steps. -/
theorem Reach.observed
    {ok : S × G → L → Prop} {x : S × G} (h : (M.observe g₀ upd).Reach ok x) :
  M.Reachable x.1
  := by
  induction h with
  | init h => apply Reach.init h.1
  | step _ _ h ih => apply Reach.step ih trivial (observe_step.mp h).1

/-- An invariant of the system with a history variable. -/
theorem Reach.observe_invariant
    {ok : S × G → L → Prop} {I : S → G → Prop}
    (hinit : ∀ s, M.init s → I s (g₀ s))
    (hstep : ∀ s g l s', M.Reachable s → I s g → ok (s, g) l → M.step s l = some (.ok s') →
      I s' (upd s l s' g))
    {x : S × G} (h : (M.observe g₀ upd).Reach ok x) :
  I x.1 x.2
  := by
  induction h with
  | init h =>
    rw [h.2]
    apply hinit _ h.1
  | step hreach hok h ih =>
    obtain ⟨hs, hg⟩ := observe_step.mp h
    rw [hg]
    apply hstep _ _ _ _ hreach.observed ih hok hs

end

end System
