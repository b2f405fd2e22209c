import Mathlib.Algebra.Order.BigOperators.Ring.Finset

/-!
# Shared resources and their shares

`Ledger count share` says that of every resource `r` there are `count r`, and that the agents
have `share a r` each.  A step that changes the count changes the shares of the agents that it
concerns by as much.
-/

variable {A R : Type} [Fintype A]

/-- The shares of the agents add up to what there is. -/
def Ledger (count : R → ℤ) (share : A → R → ℤ) : Prop :=
  ∀ r, count r = ∑ a, share a r

namespace Ledger

variable {count count' : R → ℤ} {share share' : A → R → ℤ} {a b : A} {r : R}

section

variable (h : Ledger count share)

include h

/-- The share of one agent is at most what there is. -/
theorem le (hpos : ∀ a, 0 ≤ share a r) (a : A) :
  share a r ≤ count r
  := by
  rw [h r]
  apply Finset.single_le_sum (fun a _ => hpos a) (Finset.mem_univ a)

/-- The shares of two agents are at most what there is. -/
theorem add_le (hpos : ∀ a, 0 ≤ share a r) (hab : a ≠ b) :
  share a r + share b r ≤ count r
  := by
  classical
  rw [h r, ← Finset.sum_pair hab (f := fun x => share x r)]
  apply Finset.sum_le_sum_of_subset_of_nonneg (Finset.subset_univ _)
  intro x _ _
  apply hpos

/-- There is nothing of a resource of which nobody has a share. -/
theorem eq_zero (hzero : ∀ a, share a r = 0) :
  count r = 0
  := by
  rw [h r]
  apply Finset.sum_eq_zero
  intro a _
  apply hzero

/-- A step that concerns the agent `a`. -/
theorem update
    (a : A) (hothers : ∀ b, b ≠ a → ∀ r, share' b r = share b r)
    (hself : ∀ r, count' r - count r = share' a r - share a r) :
  Ledger count' share'
  := by
  classical
  intro r
  have hrest : ∑ b ∈ Finset.univ.erase a, share' b r = ∑ b ∈ Finset.univ.erase a, share b r := by
    apply Finset.sum_congr rfl
    intro b hb
    apply hothers b (Finset.ne_of_mem_erase hb)
  have hcount := h r
  rw [← Finset.add_sum_erase _ _ (Finset.mem_univ a)] at hcount ⊢
  have := hself r
  omega

/-- A step that concerns the agents `a` and `b`. -/
theorem update₂
    (hab : a ≠ b)
    (hothers : ∀ c, c ≠ a → c ≠ b → ∀ r, share' c r = share c r)
    (hself : ∀ r, count' r - count r
      = (share' a r - share a r) + (share' b r - share b r)) :
  Ledger count' share'
  := by
  classical
  let mid : A → R → ℤ := fun c r => if c = a then share' a r else share c r
  let count₁ : R → ℤ := fun r => count r + (share' a r - share a r)
  have hmid : Ledger count₁ mid := by
    apply h.update a
    · intro c hc r
      simp [mid, hc]
    · intro r
      simp [mid, count₁]
  apply hmid.update b
  · intro c hc r
    by_cases hca : c = a
    · simp [mid, hca]
    · simp [mid, hca, hothers c hca hc r]
  · intro r
    have := hself r
    simp only [mid, count₁, if_neg hab.symm]
    omega

end

end Ledger
