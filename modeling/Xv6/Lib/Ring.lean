import Mathlib.Algebra.GroupWithZero.Nat
import Mathlib.Data.Fin.Basic

/-!
# Ring buffers

A ring of `n` cells holds a list from an index on, indices being taken modulo `n`.  The indices
need not be reduced: a counter that runs on past `n`, or that wraps around at a multiple of `n`,
serves as well.
-/

namespace Ring

variable {α : Type} {n : Nat} [NeZero n] {cell : Fin n → α} {r : Nat} {l : List α}

/-- The cells from the index `r` on hold the list `l`. -/
def Holds (cell : Fin n → α) (r : Nat) (l : List α) : Prop :=
  ∀ k (h : k < l.length), cell (Fin.ofNat n (r + k)) = l[k]

theorem ofNat_eq_iff {i j : Nat} :
  Fin.ofNat n i = Fin.ofNat n j ↔ i % n = j % n
  := by
  rw [Fin.ext_iff]
  rfl

omit [NeZero n] in
/-- A 32-bit counter around a ring whose size divides `2 ^ 32`. -/
theorem toNat_add_mod (hn : n ∣ 2 ^ 32) (x : UInt32) (k : Nat) :
  (x + .ofNat k).toNat % n = (x.toNat + k) % n
  := by
  rw [UInt32.toNat_add, UInt32.toNat_ofNat', Nat.mod_mod_of_dvd _ hn, Nat.add_mod,
    Nat.mod_mod_of_dvd _ hn, ← Nat.add_mod]

/-- Two places of a list that is not longer than the ring are in different cells. -/
theorem ofNat_add_ne {i j : Nat} (hij : i < j) (hj : j < n) :
  Fin.ofNat n (r + i) ≠ Fin.ofNat n (r + j)
  := by
  rw [ne_eq, ofNat_eq_iff]
  intro h
  have hmod : (j - i) % n = 0 := by
    have := Nat.sub_mod_eq_zero_of_mod_eq h.symm
    rwa [Nat.add_sub_add_left] at this
  rw [Nat.mod_eq_of_lt (by omega)] at hmod
  omega

@[simp]
theorem Holds.nil :
  Holds cell r []
  := by
  intro k h
  cases h

/-- Only the index modulo the size matters. -/
theorem Holds.congr {r' : Nat} (h : Holds cell r l) (hr : r' % n = r % n) :
  Holds cell r' l
  := by
  intro k hk
  rw [← h k hk, ofNat_eq_iff.mpr]
  rw [Nat.add_mod, hr, ← Nat.add_mod]

/-- Write the cell after a list that does not fill the ring. -/
theorem Holds.push (h : Holds cell r l) (hlen : l.length < n) (a : α) :
  Holds (Function.update cell (Fin.ofNat n (r + l.length)) a) r (l ++ [a])
  := by
  intro k hk
  rw [List.length_append, List.length_singleton] at hk
  rcases Nat.lt_or_ge k l.length with hlt | hge
  · rw [Function.update_of_ne (ofNat_add_ne hlt hlen), h k hlt, List.getElem_append_left hlt]
  · obtain rfl : k = l.length := by omega
    rw [Function.update_self, List.getElem_append_right (Nat.le_refl _)]
    simp

/-- The first cell has the first element, and the cells after it the others. -/
theorem Holds.pop {a : α} (h : Holds cell r (a :: l)) :
  cell (Fin.ofNat n r) = a ∧ Holds cell (r + 1) l
  := by
  constructor
  · apply h 0 (Nat.zero_lt_succ _)
  · intro k hk
    rw [Nat.add_assoc, Nat.add_comm 1 k]
    apply h (k + 1) (Nat.succ_lt_succ hk)

theorem Holds.left {l' : List α} (h : Holds cell r (l ++ l')) :
  Holds cell r l
  := by
  intro k hk
  have hk' : k < (l ++ l').length := by
    rw [List.length_append]
    omega
  rw [h k hk', List.getElem_append_left hk]

theorem Holds.right {l' : List α} (h : Holds cell r (l ++ l')) :
  Holds cell (r + l.length) l'
  := by
  intro k hk
  have hk' : l.length + k < (l ++ l').length := by
    rw [List.length_append]
    omega
  rw [Nat.add_assoc, h _ hk', List.getElem_append_right (Nat.le_add_right _ _)]
  simp only [Nat.add_sub_cancel_left]

/-- The list that the cells hold, from its length. -/
theorem Holds.map_range (h : Holds cell r l) :
  (List.range l.length).map (fun k => cell (Fin.ofNat n (r + k))) = l
  := by
  apply List.ext_getElem
  · rw [List.length_map, List.length_range]
  · intro k _ hk
    rw [List.getElem_map, List.getElem_range, h k hk]

end Ring
