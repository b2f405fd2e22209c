import Mathlib.Data.Int.NatAbs

/-!
# Machine words

The `int` and the natural number that a 32-bit word stands for.
-/

namespace UInt32

/-- The `int` with the bits of a word is negative if the highest bit is set. -/
theorem toInt_toInt32 (x : UInt32) :
  x.toInt32.toInt = if x.toNat < 2 ^ 31 then (x.toNat : Int) else x.toNat - 2 ^ 32
  := by
  change x.toBitVec.toInt = _
  rw [BitVec.toInt_eq_toNat_cond]
  change (if 2 * x.toNat < 2 ^ 32 then (x.toNat : Int) else x.toNat - (2 ^ 32 : Nat)) = _
  have : x.toNat < 2 ^ 32 := x.toNat_lt
  split
  · rw [if_pos (by omega)]
  · rw [if_neg (by omega)]
    rfl

theorem toInt32_neg_iff (x : UInt32) :
  x.toInt32 < 0 ↔ 2 ^ 31 ≤ x.toNat
  := by
  rw [Int32.lt_iff_toInt_lt, toInt_toInt32, Int32.toInt_zero]
  have : x.toNat < 2 ^ 32 := x.toNat_lt
  split
  · omega
  · omega

end UInt32
