import Mathlib.Data.Nat.Bitwise
import Xv6.Block

/-!
# The layout of the file system on the disk

The superblock, the on-disk inodes and the free map, as `fs.h` lays them out.  A block holds
`IPB` inodes of sixteen words each, and the free map has a bit for every block.
-/

namespace Xv6.Fs

/-- `NDIRECT`, the number of direct block addresses of an inode. -/
abbrev NDIRECT : Nat := 12

/-- `NINDIRECT`, the number of block addresses in an indirect block. -/
abbrev NINDIRECT : Nat := BSIZE / 4

/-- `MAXFILE`, the size of the largest file in blocks. -/
abbrev MAXFILE : Nat := NDIRECT + NINDIRECT

/-- `IPB`, the number of inodes per block. -/
abbrev IPB : Nat := BSIZE / 64

/-- `BPB`, the number of bits of the free map per block. -/
abbrev BPB : Nat := BSIZE * 8

/-! ### The superblock -/

/-- `struct superblock`. -/
structure Superblock where
  size : UInt32
  nblocks : UInt32
  ninodes : UInt32
  nlog : UInt32
  logstart : UInt32
  inodestart : UInt32
  bmapstart : UInt32
  deriving DecidableEq, Repr

/-- `readsb`: read the superblock. -/
def readsb (d : Disk) : Superblock where
  size := (d 1).word 0
  nblocks := (d 1).word 1
  ninodes := (d 1).word 2
  nlog := (d 1).word 3
  logstart := (d 1).word 4
  inodestart := (d 1).word 5
  bmapstart := (d 1).word 6

namespace Superblock

variable (sb : Superblock)

/-- `IBLOCK(i, sb)`, the block with the inode `i`. -/
def IBLOCK (i : Nat) : Nat :=
  i / IPB + sb.inodestart.toNat

/-- `BBLOCK(b, sb)`, the block of the free map with the bit for the block `b`. -/
def BBLOCK (b : Nat) : Nat :=
  b / BPB + sb.bmapstart.toNat

/-- The first data block. -/
def datastart : Nat :=
  sb.size.toNat - sb.nblocks.toNat

/-- The blocks that hold the contents of files. -/
def IsData (b : Nat) : Prop :=
  sb.datastart ≤ b ∧ b < sb.size.toNat

instance (b : Nat) : Decidable (sb.IsData b) :=
  inferInstanceAs (Decidable (_ ∧ _))

/-- The inode blocks come after the superblock, the free map after them, and then the data. -/
structure Wf : Prop where
  inodes : 1 < sb.inodestart.toNat
  bitmap : sb.inodestart.toNat + sb.ninodes.toNat / IPB < sb.bmapstart.toNat
  data : sb.bmapstart.toNat + sb.size.toNat / BPB < sb.datastart

variable {sb} {i b : Nat}

theorem Wf.lt_IBLOCK (h : sb.Wf) (i : Nat) :
  1 < sb.IBLOCK i
  := Nat.lt_add_left _ h.inodes

theorem Wf.IBLOCK_lt (h : sb.Wf) (hi : i < sb.ninodes.toNat) :
  sb.IBLOCK i < sb.bmapstart.toNat
  := by
  have := h.bitmap
  have : i / IPB ≤ sb.ninodes.toNat / IPB := Nat.div_le_div_right hi.le
  rw [IBLOCK]
  omega

theorem Wf.lt_bmapstart (h : sb.Wf) :
  1 < sb.bmapstart.toNat
  := h.inodes.trans ((Nat.le_add_right ..).trans_lt h.bitmap)

theorem Wf.bmapstart_lt (h : sb.Wf) :
  sb.bmapstart.toNat < sb.datastart
  := (Nat.le_add_right ..).trans_lt h.data

theorem bmapstart_le_BBLOCK (b : Nat) :
  sb.bmapstart.toNat ≤ sb.BBLOCK b
  := Nat.le_add_left ..

theorem Wf.BBLOCK_lt (h : sb.Wf) (hb : b < sb.size.toNat) :
  sb.BBLOCK b < sb.datastart
  := by
  have := h.data
  have : b / BPB ≤ sb.size.toNat / BPB := Nat.div_le_div_right hb.le
  rw [BBLOCK]
  omega

end Superblock

/-! ### Inodes -/

/-- `struct dinode`. -/
@[ext]
structure Dinode where
  type : Int16
  major : Int16
  minor : Int16
  nlink : Int16
  size : UInt32
  addrs : Fin (NDIRECT + 1) → UInt32

/-- The indirect address. -/
def Dinode.ind (x : Dinode) : UInt32 :=
  x.addrs (Fin.last NDIRECT)

/-- Set an address. -/
def Dinode.setAddr (x : Dinode) (k : Fin (NDIRECT + 1)) (a : UInt32) : Dinode :=
  { x with addrs := Function.update x.addrs k a }

/-- Two shorts in a word. -/
def pack (a b : Int16) : UInt32 :=
  .ofNat (a.toUInt16.toNat + 2 ^ 16 * b.toUInt16.toNat)

/-- The short in the lower half of a word. -/
def low (w : UInt32) : Int16 :=
  (UInt16.ofNat w.toNat).toInt16

/-- The short in the upper half of a word. -/
def high (w : UInt32) : Int16 :=
  (UInt16.ofNat (w.toNat / 2 ^ 16)).toInt16

theorem toNat_pack (a b : Int16) :
  (pack a b).toNat = a.toUInt16.toNat + 2 ^ 16 * b.toUInt16.toNat
  := by
  have := a.toUInt16.toNat_lt
  have := b.toUInt16.toNat_lt
  rw [pack, UInt32.toNat_ofNat']
  omega

@[simp]
theorem low_pack (a b : Int16) :
  low (pack a b) = a
  := by
  have : UInt16.ofNat (pack a b).toNat = a.toUInt16 := by
    have := a.toUInt16.toNat_lt
    apply UInt16.toNat_inj.mp
    rw [UInt16.toNat_ofNat', toNat_pack]
    omega
  rw [low, this]
  rfl

@[simp]
theorem high_pack (a b : Int16) :
  high (pack a b) = b
  := by
  have : UInt16.ofNat ((pack a b).toNat / 2 ^ 16) = b.toUInt16 := by
    have := a.toUInt16.toNat_lt
    have := b.toUInt16.toNat_lt
    apply UInt16.toNat_inj.mp
    rw [UInt16.toNat_ofNat', toNat_pack]
    omega
  rw [high, this]
  rfl

/-- The number of words of an inode. -/
abbrev iwords : Nat := 16

/-- The words of an inode. -/
def Dinode.word (x : Dinode) : Nat → UInt32
  | 0 => pack x.type x.major
  | 1 => pack x.minor x.nlink
  | 2 => x.size
  | k + 3 => if h : k < NDIRECT + 1 then x.addrs ⟨k, h⟩ else 0

/-- The inode in a sequence of words. -/
def Dinode.ofWords (w : Nat → UInt32) : Dinode where
  type := low (w 0)
  major := high (w 0)
  minor := low (w 1)
  nlink := high (w 1)
  size := w 2
  addrs k := w (k + 3)

@[simp]
theorem Dinode.ofWords_word (x : Dinode) :
  ofWords x.word = x
  := by
  apply Dinode.ext
  case addrs =>
    funext k
    exact dif_pos k.isLt
  all_goals simp [ofWords, word]

theorem Dinode.ofWords_congr {w w' : Nat → UInt32} (h : ∀ k < iwords, w k = w' k) :
  ofWords w = ofWords w'
  := by
  have haddrs : ∀ k : Fin (NDIRECT + 1), w (k + 3) = w' (k + 3) := by
    intro k
    apply h
    have := k.isLt
    simp only [NDIRECT, iwords] at this ⊢
    omega
  simp only [ofWords, h 0 (by decide), h 1 (by decide), h 2 (by decide), haddrs]

/-- The inode `i` on the disk. -/
def dinode (sb : Superblock) (d : Disk) (i : Nat) : Dinode :=
  .ofWords fun k => (d (sb.IBLOCK i)).word (iwords * (i % IPB) + k)

/-- Write the inode `i` to the disk. -/
def setDinode (sb : Superblock) (d : Disk) (i : Nat) (x : Dinode) : Disk :=
  Function.update d (sb.IBLOCK i) ((d (sb.IBLOCK i)).setWords (iwords * (i % IPB)) iwords x.word)

section

variable {sb : Superblock} {d : Disk} {i j b : Nat} {x : Dinode}

theorem setDinode_of_ne (h : b ≠ sb.IBLOCK i) :
  setDinode sb d i x b = d b
  := Function.update_of_ne h ..

/-- The inodes are those of the blocks with inodes. -/
theorem dinode_congr {d' : Disk} (h : d' (sb.IBLOCK i) = d (sb.IBLOCK i)) :
  dinode sb d' i = dinode sb d i
  := by
  rw [dinode, dinode, h]

@[simp]
theorem dinode_setDinode_self :
  dinode sb (setDinode sb d i x) i = x
  := by
  have hwords : ∀ k < iwords, (setDinode sb d i x (sb.IBLOCK i)).word (iwords * (i % IPB) + k)
      = x.word k := by
    intro k hk
    have hmod : i % IPB < IPB := Nat.mod_lt _ (by decide)
    rw [setDinode, Function.update_self, Block.word_setWords]
    · simp [hk]
    · simp only [iwords, IPB, BSIZE, Block.nwords] at hk hmod ⊢
      omega
  rw [dinode, Dinode.ofWords_congr hwords, Dinode.ofWords_word]

theorem dinode_setDinode_of_ne (h : j ≠ i) :
  dinode sb (setDinode sb d i x) j = dinode sb d j
  := by
  by_cases hblock : sb.IBLOCK j = sb.IBLOCK i
  · have hne : j % IPB ≠ i % IPB := by
      intro hmod
      apply h
      simp only [Superblock.IBLOCK] at hblock
      rw [← Nat.div_add_mod j IPB, ← Nat.div_add_mod i IPB, hmod]
      rw [Nat.add_right_cancel hblock]
    have hmod : j % IPB < IPB := Nat.mod_lt _ (by decide)
    apply Dinode.ofWords_congr
    intro k hk
    rw [setDinode, hblock, Function.update_self, Block.word_setWords, if_neg]
    · simp only [iwords] at hk ⊢
      omega
    · simp only [iwords, IPB, BSIZE, Block.nwords] at hk hmod ⊢
      omega
  · apply dinode_congr
    apply setDinode_of_ne hblock

end

/-! ### The free map -/

/-- The mask `1 << (bi % 8)`. -/
def mask (bi : Nat) : UInt8 :=
  (1 : UInt8) <<< UInt8.ofNat (bi % 8)

theorem toNat_mask (bi : Nat) :
  (mask bi).toNat = 2 ^ (bi % 8)
  := by
  have hpow : ∀ k < 8, ((1 : UInt8) <<< UInt8.ofNat k).toNat = 2 ^ k := by
    decide
  apply hpow
  apply Nat.mod_lt
  decide

/-- The test of a bit. -/
theorem and_mask_bne_zero (x : UInt8) (bi : Nat) :
  (x &&& mask bi != 0) = x.toNat.testBit (bi % 8)
  := by
  rw [Bool.eq_iff_iff, bne_iff_ne, ne_eq, ← UInt8.toNat_inj, UInt8.toNat_and, toNat_mask,
    UInt8.toNat_zero, Nat.and_two_pow]
  simp

/-- Setting a bit. -/
theorem testBit_or_mask (x : UInt8) (bi k : Nat) :
  (x ||| mask bi).toNat.testBit k = (decide (k = bi % 8) || x.toNat.testBit k)
  := by
  rw [UInt8.toNat_or, Nat.testBit_or, toNat_mask, Nat.testBit_two_pow, Bool.or_comm]
  simp [eq_comm]

/-- Clearing a bit. -/
theorem testBit_and_not_mask (x : UInt8) (bi : Nat) {k : Nat} (hk : k < 8) :
  (x &&& ~~~ mask bi).toNat.testBit k = (decide (k ≠ bi % 8) && x.toNat.testBit k)
  := by
  have hlt : 2 ^ (bi % 8) < 2 ^ 8 := Nat.pow_lt_pow_right (by decide) (Nat.mod_lt _ (by decide))
  have hnot := Nat.testBit_two_pow_sub_succ hlt k
  rw [UInt8.toNat_and, Nat.testBit_and, UInt8.toNat_not, toNat_mask, UInt8.size, Nat.sub_sub,
    Nat.add_comm 1 _, hnot, Nat.testBit_two_pow]
  simp [hk, Bool.and_comm, eq_comm]

/-- Whether the bit for the block `b` is set in the free map. -/
def bit (sb : Superblock) (d : Disk) (b : Nat) : Bool :=
  (d (sb.BBLOCK b)).byte (b % BPB / 8) &&& mask (b % BPB) != 0

/-- Change the byte of the free map with the bit for the block `b`. -/
def modifyMap (sb : Superblock) (d : Disk) (b : Nat) (f : UInt8 → UInt8) : Disk :=
  Function.update d (sb.BBLOCK b) ((d (sb.BBLOCK b)).modifyByte (b % BPB / 8) f)

/-- Mark the block `b` in use. -/
def setBit (sb : Superblock) (d : Disk) (b : Nat) : Disk :=
  modifyMap sb d b (· ||| mask (b % BPB))

/-- Mark the block `b` free. -/
def clearBit (sb : Superblock) (d : Disk) (b : Nat) : Disk :=
  modifyMap sb d b (· &&& ~~~ mask (b % BPB))

section

variable {sb : Superblock} {d : Disk} {b c : Nat} {f : UInt8 → UInt8}

theorem bit_eq_testBit (sb : Superblock) (d : Disk) (b : Nat) :
  bit sb d b = ((d (sb.BBLOCK b)).byte (b % BPB / 8)).toNat.testBit (b % BPB % 8)
  := and_mask_bne_zero ..

theorem bit_congr {d' : Disk} (h : d' (sb.BBLOCK b) = d (sb.BBLOCK b)) :
  bit sb d' b = bit sb d b
  := by
  rw [bit, bit, h]

theorem modifyMap_of_ne {k : Nat} (h : k ≠ sb.BBLOCK b) :
  modifyMap sb d b f k = d k
  := Function.update_of_ne h ..

/-- A block has its own bit: the block of the free map, the byte and the bit number of `c` are
those of `b` only for `b` itself. -/
theorem eq_of_bit_eq
    (hblock : sb.BBLOCK c = sb.BBLOCK b) (hbyte : c % BPB / 8 = b % BPB / 8)
    (hbit : c % BPB % 8 = b % BPB % 8) :
  c = b
  := by
  have hdiv := Nat.add_right_cancel hblock
  have hmod : c % BPB = b % BPB := by
    rw [← Nat.div_add_mod (c % BPB) 8, ← Nat.div_add_mod (b % BPB) 8, hbyte, hbit]
  rw [← Nat.div_add_mod c BPB, ← Nat.div_add_mod b BPB, hdiv, hmod]

/-- The bits after a change of one byte that changes one bit. -/
theorem bit_modifyMap
    (v : Bool → Bool) (hself : ∀ x, (f x).toNat.testBit (b % BPB % 8)
      = v (x.toNat.testBit (b % BPB % 8)))
    (hother : ∀ x, ∀ k < 8, k ≠ b % BPB % 8 → (f x).toNat.testBit k = x.toNat.testBit k) :
  bit sb (modifyMap sb d b f) c = if c = b then v (bit sb d c) else bit sb d c
  := by
  have hlt : b % BPB / 8 < BSIZE := by
    have : b % BPB < BPB := Nat.mod_lt _ (by decide)
    simp only [BPB, BSIZE] at this ⊢
    omega
  split
  · rename_i h
    subst h
    rw [bit_eq_testBit, bit_eq_testBit, modifyMap, Function.update_self,
      Block.byte_modifyByte_self hlt, hself]
  · rename_i h
    by_cases hblock : sb.BBLOCK c = sb.BBLOCK b
    · rw [bit_eq_testBit, bit_eq_testBit, modifyMap, hblock, Function.update_self]
      by_cases hbyte : c % BPB / 8 = b % BPB / 8
      · rw [hbyte, Block.byte_modifyByte_self hlt, hother]
        · apply Nat.mod_lt
          decide
        · intro hbit
          apply h (eq_of_bit_eq hblock hbyte hbit)
      · rw [Block.byte_modifyByte_of_ne hbyte]
    · apply bit_congr
      apply modifyMap_of_ne hblock

theorem bit_setBit :
  bit sb (setBit sb d b) c = if c = b then true else bit sb d c
  := by
  apply bit_modifyMap (fun _ => true)
  · intro x
    rw [testBit_or_mask]
    simp
  · intro x k _ hk
    rw [testBit_or_mask, decide_eq_false hk, Bool.false_or]

theorem bit_clearBit :
  bit sb (clearBit sb d b) c = if c = b then false else bit sb d c
  := by
  apply bit_modifyMap (fun _ => false)
  · intro x
    rw [testBit_and_not_mask _ _ (Nat.mod_lt _ (by decide))]
    simp
  · intro x k hk hne
    rw [testBit_and_not_mask _ _ hk, decide_eq_true hne, Bool.true_and]

end

end Xv6.Fs
