import Xv6.Lib.Hoare

/-!
# Programs of small steps

A `Micro σ F α` is a program that makes atomic steps on a shared state `σ`, one after the other,
and ends with a result in `α` or fails in `F`.  After each step the program sees the state that the
step left.  `exec` runs a program to its end without interruption, `step` makes its next step.
-/

/-- Programs with result `α`. -/
inductive Micro (σ F α : Type) : Type where
  | ret (a : α)
  | fail (f : F)
  /-- An atomic step, and what follows it. -/
  | act (f : σ → Except F σ) (k : σ → Micro σ F α)

namespace Micro

variable {σ F α β : Type}

/-- Continue a program with its result. -/
protected def bind : Micro σ F α → (α → Micro σ F β) → Micro σ F β
  | .ret a, g => g a
  | .fail f, _ => .fail f
  | .act f k, g => .act f fun s => (k s).bind g

instance : Monad (Micro σ F) where
  pure := .ret
  bind := Micro.bind

/-- The step that reads the state. -/
def read : Micro σ F σ := .act .ok .ret

/-- The step that changes the state by `f`, and may fail. -/
def tryWrite (f : σ → Except F σ) : Micro σ F Unit := .act f fun _ => .ret ()

/-- The step that changes the state by `f`. -/
def write (f : σ → σ) : Micro σ F Unit := tryWrite fun s => .ok (f s)

/-- A result that was computed without the state. -/
def lift : Except F α → Micro σ F α
  | .ok a => .ret a
  | .error f => .fail f

/-- The next step of a program, if there is one. -/
def step : Micro σ F α → σ → Option (Except F (Micro σ F α × σ))
  | .ret _, _ => none
  | .fail f, _ => some (.error f)
  | .act f k, s => some ((f s).map fun s' => (k s', s'))

/-- Run a program to its end. -/
def exec : Micro σ F α → σ → Except F (α × σ)
  | .ret a, s => .ok (a, s)
  | .fail f, _ => .error f
  | .act f k, s => f s >>= fun s' => (k s').exec s'

@[simp]
theorem exec_pure (a : α) (s : σ) : (pure a : Micro σ F α).exec s = .ok (a, s) := rfl

@[simp]
theorem exec_ret (a : α) (s : σ) : (ret a : Micro σ F α).exec s = .ok (a, s) := rfl

theorem exec_bind (x : Micro σ F α) (g : α → Micro σ F β) (s : σ) :
  (x >>= g).exec s = x.exec s >>= fun r => (g r.1).exec r.2
  := by
  change (x.bind g).exec s = _
  induction x generalizing s with
  | ret a | fail f => rfl
  | act f k ih =>
    rw [Micro.bind, exec, exec]
    cases hs : f s with
    | error e => rfl
    | ok s' => apply ih

@[simp]
theorem exec_read_bind (g : σ → Micro σ F β) (s : σ) :
  (read >>= g).exec s = (g s).exec s
  := rfl

@[simp]
theorem exec_tryWrite_bind (f : σ → Except F σ) (g : Unit → Micro σ F β) (s : σ) :
  (tryWrite f >>= g).exec s = f s >>= fun s' => (g ()).exec s'
  := rfl

@[simp]
theorem exec_write_bind (f : σ → σ) (g : Unit → Micro σ F β) (s : σ) :
  (write f >>= g).exec s = (g ()).exec (f s)
  := rfl

@[simp]
theorem exec_tryWrite (f : σ → Except F σ) (s : σ) :
  (tryWrite f).exec s = f s >>= fun s' => .ok ((), s')
  := rfl

@[simp]
theorem exec_write (f : σ → σ) (s : σ) :
  (write f : Micro σ F Unit).exec s = .ok ((), f s)
  := rfl

@[simp]
theorem exec_lift_bind (x : Except F α) (g : α → Micro σ F β) (s : σ) :
  (lift x >>= g).exec s = x >>= fun a => (g a).exec s
  := by cases x <;> rfl

/-! ### What every step of a program does -/

/-- Every step of the program from the state `s` relates the states before and after it by `P`. -/
def Along (P : σ → σ → Prop) : Micro σ F α → σ → Prop
  | .ret _, _ => True
  | .fail _, _ => True
  | .act f k, s => ∀ s', f s = .ok s' → P s s' ∧ (k s').Along P s'

variable {P P' : σ → σ → Prop} {s s' : σ} {x y : Micro σ F α}

theorem Along.mono (h : x.Along P s) (hle : ∀ s s', P s s' → P' s s') :
  x.Along P' s
  := by
  induction x generalizing s with
  | ret a | fail f => trivial
  | act f k ih =>
    intro s' hs'
    obtain ⟨hP, hk⟩ := h s' hs'
    exact ⟨hle _ _ hP, ih s' hk⟩

theorem Along.bind
    {g : α → Micro σ F β} (h : x.Along P s)
    (hg : ∀ a s', x.exec s = .ok (a, s') → (g a).Along P s') :
  (x >>= g).Along P s
  := by
  change (x.bind g).Along P s
  induction x generalizing s with
  | ret a => apply hg a s rfl
  | fail f => trivial
  | act f k ih =>
    intro s' hs'
    obtain ⟨hP, hk⟩ := h s' hs'
    use hP
    apply ih s' hk
    intro a s'' hexec
    apply hg
    rw [exec, hs']
    exact hexec

theorem Along.read (hP : P s s) :
  (Micro.read : Micro σ F σ).Along P s
  := by
  rintro _ ⟨⟩
  exact ⟨hP, trivial⟩

theorem Along.read_bind {g : σ → Micro σ F β} (hP : P s s) (hg : (g s).Along P s) :
  (Micro.read >>= g).Along P s
  := by
  apply Along.bind (Along.read hP)
  rintro _ _ ⟨⟩
  exact hg

theorem Along.tryWrite {f : σ → Except F σ} (hP : ∀ s', f s = .ok s' → P s s') :
  (Micro.tryWrite f).Along P s
  := fun s' hs' => ⟨hP s' hs', trivial⟩

theorem Along.write {f : σ → σ} (hP : P s (f s)) :
  (Micro.write f : Micro σ F Unit).Along P s
  := by
  apply Along.tryWrite
  rintro _ ⟨⟩
  exact hP

theorem Along.write_bind
    {f : σ → σ} {g : Unit → Micro σ F β} (hP : P s (f s)) (hg : (g ()).Along P (f s)) :
  (Micro.write f >>= g).Along P s
  := by
  apply Along.bind (Along.write hP)
  rintro _ _ ⟨⟩
  exact hg

theorem Along.lift (r : Except F α) :
  (Micro.lift r : Micro σ F α).Along P s
  := by
  cases r with
  | ok a | error f => trivial

/-! ### One step -/

theorem act_of_step (h : x.step s = some (.ok (y, s'))) :
  ∃ f k, x = .act f k ∧ f s = .ok s' ∧ y = k s'
  := by
  cases x with
  | ret a | fail f => cases h
  | act f k =>
    simp only [step, Option.some.injEq] at h
    cases hs : f s with
    | error e =>
      rw [hs] at h
      cases h
    | ok s₁ =>
      rw [hs] at h
      cases h
      exact ⟨f, k, rfl, hs, rfl⟩

theorem exec_of_step (h : x.step s = some (.ok (y, s'))) :
  y.exec s' = x.exec s
  := by
  obtain ⟨f, k, rfl, hs, rfl⟩ := act_of_step h
  rw [exec, hs]
  rfl

/-- A program whose next step fails has no other end. -/
theorem exec_of_step_error {f : F} (h : x.step s = some (.error f)) :
  x.exec s = .error f
  := by
  cases x with
  | ret a => cases h
  | fail f' =>
    cases h
    rfl
  | act g k =>
    simp only [step, Option.some.injEq] at h
    cases hs : g s with
    | error e =>
      rw [hs] at h
      cases h
      rw [exec, hs]
      rfl
    | ok s₁ =>
      rw [hs] at h
      cases h

theorem exec_of_step_none (h : x.step s = none) :
  ∃ a, x = .ret a
  := by
  cases x with
  | ret a => exact ⟨a, rfl⟩
  | fail f | act f k => cases h

theorem Along.step (hx : x.Along P s) (h : x.step s = some (.ok (y, s'))) :
  P s s' ∧ y.Along P s'
  := by
  obtain ⟨f, k, rfl, hs, rfl⟩ := act_of_step h
  apply hx _ hs

end Micro
