import Mathlib.Logic.Function.Basic

/-!
# Locks and their holders

`Guarded lock holds` says that the locks `lock` record who holds what: the agent `a` is the holder
of `l` exactly when `holds a l`.  An agent takes a free lock, lets go of one, or passes one on.
-/

variable {L A : Type}

/-- The locks record the agents that hold them. -/
def Guarded (lock : L → Option A) (holds : A → L → Prop) : Prop :=
  ∀ l a, lock l = some a ↔ holds a l

namespace Guarded

open Function

variable {lock : L → Option A} {holds holds' : A → L → Prop} {l : L} {a b : A}

theorem unique (h : Guarded lock holds) (ha : holds a l) (hb : holds b l) :
  a = b
  := Option.some.inj (((h l a).mpr ha).symm.trans ((h l b).mpr hb))

theorem not_holds (h : Guarded lock holds) (hfree : lock l = none) (a : A) :
  ¬ holds a l
  := by
  intro ha
  cases hfree.symm.trans ((h l a).mpr ha)

/-- Nobody's locks change. -/
theorem congr (h : Guarded lock holds) (hsame : ∀ b k, holds' b k ↔ holds b k) :
  Guarded lock holds'
  := fun k b => (h k b).trans (hsame b k).symm

variable [DecidableEq L]

/-- The agent `a` takes the free lock `l`. -/
theorem acquire
    (h : Guarded lock holds) (hfree : lock l = none)
    (hself : ∀ k, holds' a k ↔ holds a k ∨ k = l)
    (hothers : ∀ b, b ≠ a → ∀ k, holds' b k ↔ holds b k) :
  Guarded (update lock l (some a)) holds'
  := by
  intro k b
  by_cases hk : k = l
  · subst hk
    rw [update_self, Option.some.injEq]
    constructor
    · rintro rfl
      apply (hself _).mpr (Or.inr rfl)
    · intro hb
      by_contra hne
      apply h.not_holds hfree b
      apply (hothers b (Ne.symm hne) _).mp hb
  · rw [update_of_ne hk, h k b]
    by_cases hb : b = a
    · subst hb
      rw [hself, or_iff_left hk]
    · rw [hothers b hb]

/-- The agent `a` lets go of the lock `l`. -/
theorem release
    (h : Guarded lock holds) (hheld : holds a l)
    (hself : ∀ k, holds' a k ↔ holds a k ∧ k ≠ l)
    (hothers : ∀ b, b ≠ a → ∀ k, holds' b k ↔ holds b k) :
  Guarded (update lock l none) holds'
  := by
  intro k b
  by_cases hk : k = l
  · subst hk
    rw [update_self]
    constructor
    · rintro ⟨⟩
    · intro hb
      by_cases hba : b = a
      · subst hba
        apply absurd rfl ((hself _).mp hb).2
      · apply absurd (h.unique ((hothers b hba _).mp hb) hheld) hba
  · rw [update_of_ne hk, h k b]
    by_cases hb : b = a
    · subst hb
      rw [hself, and_iff_left hk]
    · rw [hothers b hb]

/-- The agent `a` passes the lock `l` on to `b`. -/
theorem pass
    (h : Guarded lock holds) (hheld : holds a l) (hne : b ≠ a)
    (hself : ∀ k, holds' a k ↔ holds a k ∧ k ≠ l)
    (hheir : ∀ k, holds' b k ↔ holds b k ∨ k = l)
    (hothers : ∀ c, c ≠ a → c ≠ b → ∀ k, holds' c k ↔ holds c k) :
  Guarded (update lock l (some b)) holds'
  := by
  let mid : A → L → Prop := fun c k => holds c k ∧ (c = a → k ≠ l)
  have hmid : Guarded (update lock l none) mid := by
    apply h.release hheld
    · intro k
      simp [mid]
    · intro c hc k
      simp [mid, hc]
  rw [show update lock l (some b)
    = update (update lock l none) l (some b) by simp]
  apply hmid.acquire (by simp)
  · intro k
    rw [hheir]
    simp [mid, hne]
  · intro c hc k
    by_cases hca : c = a
    · subst hca
      rw [hself]
      simp [mid]
    · rw [hothers c hca hc]
      simp [mid, hca]

end Guarded
