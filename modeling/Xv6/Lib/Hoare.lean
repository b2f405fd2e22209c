import Mathlib.Data.List.Basic

/-!
# Weakest preconditions

`Wp E x Q s` says that the computation `x`, started in the state `s`, ends in a state and with a
result satisfying `Q`, or fails with a failure satisfying `E`.
-/

universe u

section

variable {S F : Type u} {α β : Type u}

/-- The weakest precondition of a computation with state and failure. -/
def Wp (E : F → Prop) (x : StateT S (Except F) α) (Q : α → S → Prop) (s : S) : Prop :=
  match x s with
  | .ok (a, s') => Q a s'
  | .error f => E f

variable {E : F → Prop} {Q Q' : α → S → Prop} {s : S}

section

variable {x : StateT S (Except F) α}

theorem Wp.mono (h : Wp E x Q s) (hQ : ∀ a s', Q a s' → Q' a s') :
  Wp E x Q' s
  := by
  unfold Wp at h ⊢
  split at h
  · apply hQ _ _ h
  · apply h

/-- Fewer failures. -/
theorem Wp.fail {E' : F → Prop} (h : Wp E x Q s) (hE : ∀ f, E f → E' f) :
  Wp E' x Q s
  := by
  unfold Wp at h ⊢
  split at h
  · apply h
  · apply hE _ h

/-- A computation that does not fail. -/
theorem Wp.noFail (h : Wp (fun _ => False) x Q s) :
  Wp E x Q s
  := by
  apply h.fail
  intro _ h
  cases h

/-- What a computation that ends gives. -/
theorem Wp.of_ok {a : α} {s' : S} (h : Wp E x Q s) (hx : x s = .ok (a, s')) :
  Q a s'
  := by
  rw [Wp, hx] at h
  apply h

/-- A computation that does not fail ends. -/
theorem Wp.exists_ok (h : Wp (fun _ => False) x Q s) :
  ∃ a s', x s = .ok (a, s') ∧ Q a s'
  := by
  unfold Wp at h
  split at h
  · rename_i a s' hx
    exact ⟨a, s', hx, h⟩
  · cases h

end

@[simp]
theorem wp_pure (a : α) :
  Wp E (pure a) Q s ↔ Q a s
  := Iff.rfl

section

variable {x : StateT S (Except F) β} {f : β → StateT S (Except F) α}

@[simp]
theorem wp_bind :
  Wp E (x >>= f) Q s ↔ Wp E x (fun b s' => Wp E (f b) Q s') s
  := by
  simp only [Wp, bind, StateT.bind, Except.bind]
  cases x s with
  | error f | ok r => rfl

theorem Wp.bind {R : β → S → Prop} (h : Wp E x R s) (hf : ∀ b s', R b s' → Wp E (f b) Q s') :
  Wp E (x >>= f) Q s
  := wp_bind.mpr (h.mono hf)

end

@[simp]
theorem wp_get {Q : S → S → Prop} :
  Wp E get Q s ↔ Q s s
  := Iff.rfl

@[simp]
theorem wp_set {Q : PUnit → S → Prop} {s' : S} :
  Wp E (set s' : StateT S (Except F) PUnit) Q s ↔ Q ⟨⟩ s'
  := Iff.rfl

@[simp]
theorem wp_modify {Q : PUnit → S → Prop} {f : S → S} :
  Wp E (modify f : StateT S (Except F) PUnit) Q s ↔ Q ⟨⟩ (f s)
  := Iff.rfl

@[simp]
theorem wp_throw {f : F} :
  Wp E (throw f) Q s ↔ E f
  := Iff.rfl

/-- A loop over a list keeps an invariant about the elements that are left. -/
theorem Wp.forM
    {γ : Type u} {f : γ → StateT S (Except F) PUnit} {I : List γ → S → Prop}
    (hstep : ∀ c l s, I (c :: l) s → Wp E (f c) (fun _ s' => I l s') s)
    {l : List γ} (h : I l s) :
  Wp E (l.forM f) (fun _ s' => I [] s') s
  := by
  induction l generalizing s with
  | nil => apply h
  | cons c l ih =>
    rw [List.forM, wp_bind]
    apply (hstep c l s h).mono
    intro _ s' hs'
    apply ih hs'

/-- A loop over two lists. -/
theorem wp_forM_append
    {γ : Type u} {f : γ → StateT S (Except F) PUnit} {Q : PUnit → S → Prop} (l l' : List γ) :
  Wp E ((l ++ l').forM f) Q s ↔ Wp E (l.forM f) (fun _ s' => Wp E (l'.forM f) Q s') s
  := by
  induction l generalizing s with
  | nil => rfl
  | cons c l ih =>
    rw [List.cons_append, List.forM, List.forM, wp_bind, wp_bind]
    simp only [ih]

end
