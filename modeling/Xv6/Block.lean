import Mathlib.Algebra.Group.Nat.Defs

/-!
# Disk blocks

A disk block is an array of `BSIZE` bytes.  The file system and the log read and write parts of
a block as 32-bit words, little-endian.
-/

namespace Xv6

/-- `BSIZE`, the size of a disk block in bytes. -/
abbrev BSIZE : Nat := 512

/-- `FSSIZE`, the size of the file system in blocks. -/
abbrev FSSIZE : Nat := 2000

/-- The contents of a disk block. -/
abbrev Block : Type := Fin BSIZE → UInt8

/-- The disk: the contents of each block number. -/
abbrev Disk : Type := Nat → Block

namespace Block

/-- The number of words of a block. -/
abbrev nwords : Nat := BSIZE / 4

/-- The byte at an offset, `0` outside the block. -/
def byte (b : Block) (k : Nat) : UInt8 :=
  if h : k < BSIZE then b ⟨k, h⟩ else 0

/-- The word at index `i`. -/
def word (b : Block) (i : Nat) : UInt32 :=
  .ofNat ((b.byte (4 * i)).toNat + 2 ^ 8 * (b.byte (4 * i + 1)).toNat
    + 2 ^ 16 * (b.byte (4 * i + 2)).toNat + 2 ^ 24 * (b.byte (4 * i + 3)).toNat)

/-- The block of zeros. -/
def zero : Block :=
  fun _ => 0

@[simp]
theorem word_zero (i : Nat) :
  zero.word i = 0
  := by
  simp [zero, word, byte]

/-- Set the word at index `i`. -/
def setWord (b : Block) (i : Nat) (v : UInt32) : Block :=
  fun k => if k.val / 4 = i then .ofNat (v.toNat / 2 ^ (8 * (k.val % 4))) else b k

theorem byte_setWord_of_ne {b : Block} {i : Nat} {v : UInt32} {k : Nat} (h : k / 4 ≠ i) :
  (b.setWord i v).byte k = b.byte k
  := by
  unfold byte
  split
  · apply if_neg h
  · rfl

theorem byte_setWord_self {b : Block} {i j : Nat} {v : UInt32} (hi : i < nwords) (hj : j < 4) :
  (b.setWord i v).byte (4 * i + j) = .ofNat (v.toNat / 2 ^ (8 * j))
  := by
  have hlt : 4 * i + j < BSIZE := by
    simp only [nwords, BSIZE] at hi ⊢
    omega
  have hdiv : (4 * i + j) / 4 = i := by
    omega
  have hmod : (4 * i + j) % 4 = j := by
    omega
  simp only [byte, dif_pos hlt, setWord, hdiv, hmod, if_true]

/-- A word that is set is read back. -/
theorem word_setWord_self {b : Block} {i : Nat} {v : UInt32} (hi : i < nwords) :
  (b.setWord i v).word i = v
  := by
  have h₀ := byte_setWord_self (b := b) (v := v) hi (show 0 < 4 by omega)
  have h₁ := byte_setWord_self (b := b) (v := v) hi (show 1 < 4 by omega)
  have h₂ := byte_setWord_self (b := b) (v := v) hi (show 2 < 4 by omega)
  have h₃ := byte_setWord_self (b := b) (v := v) hi (show 3 < 4 by omega)
  rw [Nat.add_zero] at h₀
  have hv := v.toNat_lt
  apply UInt32.toNat_inj.mp
  simp only [word, h₀, h₁, h₂, h₃, UInt8.toNat_ofNat', UInt32.toNat_ofNat']
  omega

theorem word_congr {b b' : Block} {j : Nat}
    (h : ∀ k < 4, b.byte (4 * j + k) = b'.byte (4 * j + k)) :
  b.word j = b'.word j
  := by
  have h₀ := h 0 (by omega)
  rw [Nat.add_zero] at h₀
  simp only [word, h₀, h 1 (by omega), h 2 (by omega), h 3 (by omega)]

/-- Setting a word keeps the other words. -/
theorem word_setWord_of_ne {b : Block} {i j : Nat} {v : UInt32} (h : j ≠ i) :
  (b.setWord i v).word j = b.word j
  := by
  apply word_congr
  intro k hk
  apply byte_setWord_of_ne
  omega

/-- Set `n` words from the index `i` on. -/
def setWords (b : Block) (i n : Nat) (w : Nat → UInt32) : Block :=
  fun k =>
    if i ≤ k.val / 4 ∧ k.val / 4 < i + n then
      .ofNat ((w (k.val / 4 - i)).toNat / 2 ^ (8 * (k.val % 4)))
    else b k

/-- The words after setting several of them. -/
theorem word_setWords {b : Block} {i n : Nat} {w : Nat → UInt32} {j : Nat} (hj : j < nwords) :
  (b.setWords i n w).word j = if i ≤ j ∧ j < i + n then w (j - i) else b.word j
  := by
  have hdiv : ∀ k < 4, (4 * j + k) / 4 = j := by
    intro k hk
    omega
  split
  · rename_i h
    rw [← word_setWord_self (b := b) (v := w (j - i)) hj]
    apply word_congr
    intro k hk
    unfold byte
    split
    · simp [setWords, setWord, hdiv k hk, h]
    · rfl
  · rename_i h
    apply word_congr
    intro k hk
    unfold byte
    split
    · apply if_neg
      rw [hdiv k hk]
      apply h
    · rfl

/-- Change the byte at an offset. -/
def modifyByte (b : Block) (i : Nat) (f : UInt8 → UInt8) : Block :=
  fun k => if k.val = i then f (b k) else b k

theorem byte_modifyByte_self {b : Block} {i : Nat} {f : UInt8 → UInt8} (h : i < BSIZE) :
  (b.modifyByte i f).byte i = f (b.byte i)
  := by
  simp [byte, modifyByte, h]

theorem byte_modifyByte_of_ne {b : Block} {i j : Nat} {f : UInt8 → UInt8} (h : j ≠ i) :
  (b.modifyByte i f).byte j = b.byte j
  := by
  unfold byte
  split
  · apply if_neg h
  · rfl

/-- Copy `n` bytes into the block from an offset on. -/
def copyIn (b : Block) (off n : Nat) (src : Nat → UInt8) : Block :=
  fun k => if off ≤ k.val ∧ k.val < off + n then src (k.val - off) else b k

theorem byte_copyIn {b : Block} {off n : Nat} {src : Nat → UInt8} (h : off + n ≤ BSIZE) (k : Nat) :
  (b.copyIn off n src).byte k = if off ≤ k ∧ k < off + n then src (k - off) else b.byte k
  := by
  unfold byte
  split
  · rfl
  · rw [if_neg]
    omega

/-- `n` bytes from the offset `off` on. -/
def copyOut (b : Block) (off n : Nat) : List UInt8 :=
  (List.range n).map fun k => b.byte (off + k)

end Block

end Xv6
