import Mathlib.Data.Set.Function
import Xv6.Fs.Layout

/-!
# Who owns a block

A block is referred to by the places where an inode keeps block addresses.  The places in use
and the data blocks marked in the free map are in bijection: every address is a data block
marked in use, no block has two places, and every data block marked in use has one.
-/

namespace Xv6.Fs

open Function

/-- A place for a block address: the address `k` of an inode, the last of which is the indirect
one, or the address `j` in its indirect block. -/
inductive Place where
  | addr (i : Nat) (k : Fin (NDIRECT + 1))
  | inner (i : Nat) (j : Fin NINDIRECT)
  deriving DecidableEq, Repr

/-- The inode that has the place. -/
def Place.inum : Place → Nat
  | .addr i _ | .inner i _ => i

/-- The place of the indirect address of an inode. -/
def Place.indirect (i : Nat) : Place :=
  .addr i (Fin.last NDIRECT)

/-- The address at a place, `0` if there is none. -/
def addrAt (ino : Nat → Dinode) (d : Disk) : Place → Nat
  | .addr i k => ((ino i).addrs k).toNat
  | .inner i j => if (ino i).ind = 0 then 0 else ((d (ino i).ind.toNat).word j).toNat

/-- The block of the inode whose address is at the place. -/
def Place.block : Place → Nat
  | .addr _ k => k
  | .inner _ j => NDIRECT + j

/-- The place for the address of the block `k` of the inode `i`. -/
def placeOf (i k : Nat) : Option Place :=
  if h : k < NDIRECT then some (.addr i (Fin.castSucc ⟨k, h⟩))
  else if h : k - NDIRECT < NINDIRECT then some (.inner i ⟨k - NDIRECT, h⟩)
  else none

/-- The address of the block `k` of an inode, `0` if there is none. -/
def Dinode.blockAddr (x : Dinode) (d : Disk) (k : Nat) : Nat :=
  if h : k < NDIRECT then (x.addrs (Fin.castSucc ⟨k, h⟩)).toNat
  else if x.ind ≠ 0 ∧ k - NDIRECT < NINDIRECT then ((d x.ind.toNat).word (k - NDIRECT)).toNat
  else 0

/-- The block `k` of the inode `i` has an address. -/
def Mapped (ino : Nat → Dinode) (d : Disk) (i k : Nat) : Prop :=
  ∃ p ∈ placeOf i k, addrAt ino d p ≠ 0

section

variable (sb : Superblock) (ino : Nat → Dinode) (d : Disk)

/-- The inode `i` is allocated. -/
def Live (i : Nat) : Prop :=
  i < sb.ninodes.toNat ∧ (ino i).type ≠ 0

/-- The places of allocated inodes with an address. -/
def refs : Set Place :=
  { p | Live sb ino p.inum ∧ addrAt ino d p ≠ 0 }

/-- The data blocks marked in use. -/
def used : Set Nat :=
  { b | sb.IsData b ∧ bit sb d b = true }

/-- The block allocation invariant for the inodes `ino` and the disk `d`. -/
structure Owned : Prop where
  bij : Set.BijOn (addrAt ino d) (refs sb ino d) (used sb d)
  reserved : ∀ b < sb.datastart, bit sb d b = true
  noHole : ∀ i, Live sb ino i → ∀ k, k * BSIZE < (ino i).size.toNat → Mapped ino d i k

end

variable {sb : Superblock} {ino ino' : Nat → Dinode} {d d' : Disk} {i b : Nat} {p : Place}

theorem inum_of_placeOf {k : Nat} (h : p ∈ placeOf i k) :
  p.inum = i
  := by
  unfold placeOf at h
  split at h
  · cases h
    rfl
  · split at h
    · cases h
      rfl
    · cases h

theorem block_of_placeOf {k : Nat} (h : p ∈ placeOf i k) :
  p.block = k
  := by
  unfold placeOf at h
  split at h
  · cases h
    rfl
  · split at h
    · cases h
      simp only [Place.block]
      omega
    · cases h

theorem blockAddr_of_placeOf {k : Nat} (h : p ∈ placeOf i k) :
  (ino i).blockAddr d k = addrAt ino d p
  := by
  unfold placeOf at h
  unfold Dinode.blockAddr
  split at h
  · rename_i hk
    cases h
    rw [dif_pos hk, addrAt]
  · rename_i hk
    rw [dif_neg hk]
    split at h
    · rename_i hk'
      cases h
      simp only [addrAt, hk', and_true, ne_eq, ite_not]
    · cases h

/-- The addresses of an inode depend on its indirect block. -/
theorem Dinode.blockAddr_congr
    {x : Dinode} (h : x.ind ≠ 0 → d' x.ind.toNat = d x.ind.toNat) (k : Nat) :
  x.blockAddr d' k = x.blockAddr d k
  := by
  unfold blockAddr
  split
  · rfl
  · split
    · rename_i hind
      rw [h hind.1]
    · rfl

theorem mapped_iff {k : Nat} :
  Mapped ino d i k ↔ (ino i).blockAddr d k ≠ 0
  := by
  constructor
  · rintro ⟨p, hp, hne⟩
    rw [blockAddr_of_placeOf hp]
    apply hne
  · intro hne
    cases hp : placeOf i k with
    | some p =>
      use p, hp
      rw [← blockAddr_of_placeOf hp]
      apply hne
    | none =>
      -- the block is beyond `MAXFILE`
      unfold placeOf at hp
      unfold Dinode.blockAddr at hne
      split at hp
      · cases hp
      · rename_i hk
        rw [dif_neg hk] at hne
        split at hp
        · cases hp
        · rename_i hk'
          rw [if_neg (fun h => hk' h.2)] at hne
          cases hne rfl

theorem addrAt_indirect (hind : (ino i).ind ≠ 0) :
  addrAt ino d (.indirect i) ≠ 0
  := by
  simpa [addrAt, Place.indirect, Dinode.ind, ← UInt32.toNat_inj] using hind

/-! ### What the invariant says about one block -/

namespace Owned

section

variable (h : Owned sb ino d)

include h

/-- An address is a data block marked in use. -/
theorem used_of_live (hlive : Live sb ino p.inum) (hp : addrAt ino d p ≠ 0) :
  addrAt ino d p ∈ used sb d
  := h.bij.mapsTo ⟨hlive, hp⟩

/-- A block below `size` that is free is a data block. -/
theorem isData_of_free (hb : b < sb.size.toNat) (hfree : bit sb d b = false) :
  sb.IsData b
  := by
  constructor
  · by_contra hlt
    rw [h.reserved b (by omega)] at hfree
    cases hfree
  · apply hb

/-- A free block is not an address. -/
theorem addrAt_ne_of_free
    (hfree : bit sb d b = false) (hlive : Live sb ino p.inum) (hp : addrAt ino d p ≠ 0) :
  addrAt ino d p ≠ b
  := by
  rintro rfl
  rw [(h.used_of_live hlive hp).2] at hfree
  cases hfree

/-- The places of two equal addresses are the same. -/
theorem place_eq
    {q : Place} (hp : Live sb ino p.inum) (hq : Live sb ino q.inum) (hne : addrAt ino d p ≠ 0)
    (heq : addrAt ino d p = addrAt ino d q) :
  p = q
  := by
  apply h.bij.injOn ⟨hp, hne⟩ _ heq
  use hq
  rw [← heq]
  apply hne

end

/-! ### Changes that keep the places -/

/-- The invariant depends on the addresses, the types, the sizes and the free map. -/
theorem congr
    (h : Owned sb ino d) (hlive : ∀ i, Live sb ino' i ↔ Live sb ino i)
    (haddr : ∀ p : Place, Live sb ino p.inum → addrAt ino' d' p = addrAt ino d p)
    (hbit : ∀ b < sb.size.toNat, bit sb d' b = bit sb d b)
    (hsize : ∀ i, Live sb ino i → (ino' i).size = (ino i).size) :
  Owned sb ino' d'
  := by
  have hrefs : refs sb ino' d' = refs sb ino d := by
    ext p
    simp only [refs, Set.mem_ofPred_eq, hlive]
    apply and_congr_right
    intro hl
    rw [haddr p hl]
  have hused : used sb d' = used sb d := by
    ext b
    simp only [used, Set.mem_ofPred_eq]
    apply and_congr_right
    intro hdata
    rw [hbit b hdata.2]
  constructor
  · rw [hrefs, hused]
    apply h.bij.congr
    intro p hp
    rw [haddr p hp.1]
  · intro b hb
    rw [hbit b (hb.trans_le (Nat.sub_le ..))]
    apply h.reserved b hb
  · intro i hi k hk
    rw [hlive] at hi
    rw [hsize i hi] at hk
    obtain ⟨p, hp, hne⟩ := h.noHole i hi k hk
    use p, hp
    rw [haddr p (by rw [inum_of_placeOf hp]; apply hi)]
    apply hne

/-- A free block becomes the address of an empty place. -/
theorem claim
    (h : Owned sb ino d) (hb : b < sb.size.toNat) (hfree : bit sb d b = false) (hb0 : b ≠ 0)
    (hp : Live sb ino p.inum) (hp0 : addrAt ino d p = 0)
    (hlive : ∀ i, Live sb ino' i ↔ Live sb ino i)
    (haddr : ∀ q : Place, Live sb ino q.inum →
      addrAt ino' d' q = if q = p then b else addrAt ino d q)
    (hbit : ∀ c < sb.size.toNat, bit sb d' c = if c = b then true else bit sb d c)
    (hsize : ∀ i, Live sb ino i → (ino' i).size = (ino i).size) :
  Owned sb ino' d'
  := by
  have hdata := h.isData_of_free hb hfree
  have haddrp : addrAt ino' d' p = b := by
    rw [haddr p hp, if_pos rfl]
  have hrefs : refs sb ino' d' = insert p (refs sb ino d) := by
    ext q
    simp only [refs, Set.mem_ofPred_eq, Set.mem_insert_iff, hlive]
    constructor
    · rintro ⟨hl, hne⟩
      rw [haddr q hl] at hne
      split at hne
      · left
        assumption
      · right
        use hl
    · rintro (rfl | ⟨hl, hne⟩)
      · use hp
        rw [haddrp]
        apply hb0
      · use hl
        rw [haddr q hl]
        split
        · apply hb0
        · apply hne
  have hused : used sb d' = insert b (used sb d) := by
    ext c
    simp only [used, Set.mem_ofPred_eq, Set.mem_insert_iff]
    constructor
    · rintro ⟨hc, hbit'⟩
      rw [hbit c hc.2] at hbit'
      split at hbit'
      · left
        assumption
      · right
        use hc
    · rintro (rfl | ⟨hc, hbit'⟩)
      · use hdata
        rw [hbit c hb, if_pos rfl]
      · use hc
        rw [hbit c hc.2, hbit']
        split <;> rfl
  constructor
  · rw [hrefs, hused, ← haddrp]
    apply Set.BijOn.insert
    · apply h.bij.congr
      intro q hq
      rw [haddr q hq.1, if_neg]
      rintro rfl
      apply hq.2 hp0
    · rw [haddrp]
      intro hmem
      rw [hmem.2] at hfree
      cases hfree
  · intro c hc
    rw [hbit c (hc.trans_le (Nat.sub_le ..)), h.reserved c hc]
    split <;> rfl
  · intro i hi k hk
    rw [hlive] at hi
    rw [hsize i hi] at hk
    obtain ⟨q, hq, hne⟩ := h.noHole i hi k hk
    use q, hq
    rw [haddr q (by rw [inum_of_placeOf hq]; apply hi)]
    split
    · apply hb0
    · apply hne

end Owned

/-! ### The regions of the disk -/

/-- The free map depends on its blocks. -/
theorem Superblock.Wf.bit_congr
    (hwf : sb.Wf) (h : ∀ k, sb.bmapstart.toNat ≤ k → k < sb.datastart → d' k = d k)
    (hb : b < sb.size.toNat) :
  bit sb d' b = bit sb d b
  := Fs.bit_congr (h _ (bmapstart_le_BBLOCK b) (hwf.BBLOCK_lt hb))

/-- The inodes depend on the blocks before the free map. -/
theorem Superblock.Wf.dinode_congr
    (hwf : sb.Wf) (h : ∀ k < sb.bmapstart.toNat, d' k = d k) (hi : i < sb.ninodes.toNat) :
  dinode sb d' i = dinode sb d i
  := Fs.dinode_congr (h _ (hwf.IBLOCK_lt hi))

theorem readsb_congr (h : d' 1 = d 1) :
  readsb d' = readsb d
  := by
  simp only [readsb, h]

/-- Changing the free map keeps the blocks before and after it. -/
theorem Superblock.Wf.modifyMap_of_ne
    (hwf : sb.Wf) {f : UInt8 → UInt8} (hb : b < sb.size.toNat) {k : Nat}
    (hk : k < sb.bmapstart.toNat ∨ sb.datastart ≤ k) :
  modifyMap sb d b f k = d k
  := by
  apply Fs.modifyMap_of_ne
  have := hwf.BBLOCK_lt hb
  have := sb.bmapstart_le_BBLOCK b
  omega

/-- Writing an inode keeps the blocks from the free map on. -/
theorem Superblock.Wf.setDinode_of_le
    (hwf : sb.Wf) {x : Dinode} (hi : i < sb.ninodes.toNat) {k : Nat}
    (hk : sb.bmapstart.toNat ≤ k) :
  setDinode sb d i x k = d k
  := by
  apply setDinode_of_ne
  have := hwf.IBLOCK_lt hi
  omega

/-- Addresses are kept by changes outside the indirect blocks. -/
theorem addrAt_congr
    (hino : (ino' p.inum).addrs = (ino p.inum).addrs)
    (hd : (ino p.inum).ind ≠ 0 → d' (ino p.inum).ind.toNat = d (ino p.inum).ind.toNat) :
  addrAt ino' d' p = addrAt ino d p
  := by
  cases p with
  | addr i k =>
    simp only [Place.inum] at hino
    simp only [addrAt, hino]
  | inner i j =>
    simp only [Place.inum] at hino hd
    simp only [addrAt, show (ino' i).ind = (ino i).ind from congrFun hino _]
    split
    · rfl
    · rename_i hne
      rw [hd hne]

namespace Owned

section

variable (h : Owned sb ino d)

include h

/-- The indirect block of an allocated inode is a data block marked in use. -/
theorem ind_used (hlive : Live sb ino i) (hind : (ino i).ind ≠ 0) :
  (ino i).ind.toNat ∈ used sb d
  := h.used_of_live (p := .indirect i) hlive (addrAt_indirect hind)

/-- The indirect block of an inode is no other block. -/
theorem addrAt_ne_ind
    (hp : Live sb ino p.inum) (hi : Live sb ino i) (hne : addrAt ino d p ≠ 0)
    (hpi : p ≠ .indirect i) :
  addrAt ino d p ≠ (ino i).ind.toNat
  := by
  intro heq
  apply hpi (h.place_eq (q := .indirect i) hp hi hne heq)

/-- Addresses are kept by changes outside the data blocks. -/
theorem addrAt_of_data (hp : Live sb ino p.inum) (hd : ∀ k, sb.datastart ≤ k → d' k = d k) :
  addrAt ino d' p = addrAt ino d p
  := by
  apply addrAt_congr rfl
  intro hind
  apply hd _ (h.ind_used hp hind).1.1

/-- Changing blocks before the free map. -/
theorem of_le (hwf : sb.Wf) (hd : ∀ k, sb.bmapstart.toNat ≤ k → d' k = d k) :
  Owned sb ino d'
  := by
  apply h.congr (fun _ => Iff.rfl)
  · intro p hp
    apply h.addrAt_of_data hp
    intro k hk
    apply hd k (hwf.bmapstart_lt.le.trans hk)
  · intro b hb
    apply hwf.bit_congr _ hb
    intro k hk _
    apply hd k hk
  · intro _ _
    rfl

/-- Writing an inode to the disk. -/
theorem setDinode (hwf : sb.Wf) {x : Dinode} (hi : i < sb.ninodes.toNat) :
  Owned sb ino (setDinode sb d i x)
  := by
  apply h.of_le hwf
  intro k hk
  apply hwf.setDinode_of_le hi hk

/-- Writing an inode keeps the addresses of the others. -/
theorem addrAt_setDinode
    (hwf : sb.Wf) {x y : Dinode} (hi : i < sb.ninodes.toNat) (hp : Live sb ino p.inum)
    (hpi : p.inum ≠ i) :
  addrAt (update ino i x) (Fs.setDinode sb d' i y) p = addrAt ino d' p
  := by
  apply addrAt_congr
  · rw [update_of_ne hpi]
  · intro hind
    apply hwf.setDinode_of_le hi
    apply hwf.bmapstart_lt.le.trans (h.ind_used hp hind).1.1

/-- Writing the contents of a file keeps the addresses. -/
theorem addrAt_writeData
    (hp : Live sb ino p.inum) (hne : addrAt ino d p ≠ 0) (hdata : p ≠ .indirect p.inum) {x : Block}
    {q : Place} (hq : Live sb ino q.inum) :
  addrAt ino (update d (addrAt ino d p) x) q = addrAt ino d q
  := by
  apply addrAt_congr rfl
  intro hind
  apply update_of_ne
  apply (h.addrAt_ne_ind hp hq hne ?_).symm
  rintro rfl
  apply hdata rfl

/-- Writing the contents of a file. -/
theorem writeData
    (hwf : sb.Wf) (hp : Live sb ino p.inum) (hne : addrAt ino d p ≠ 0)
    (hdata : p ≠ .indirect p.inum) (x : Block) :
  Owned sb ino (update d (addrAt ino d p) x)
  := by
  have hused := h.used_of_live hp hne
  apply h.congr (fun _ => Iff.rfl)
  · intro q hq
    apply h.addrAt_writeData hp hne hdata hq
  · intro b hb
    apply hwf.bit_congr _ hb
    intro k _ hk
    have := hused.1.1
    apply update_of_ne
    omega
  · intro _ _
    rfl

end

end Owned

/-! ### Allocating a block -/

/-- The disk after `balloc` returned the block `b`. -/
def allocated (sb : Superblock) (d : Disk) (b : Nat) : Disk :=
  Function.update (setBit sb d b) b .zero

theorem live_update {x : Dinode} (hx : x.type = (ino i).type) (j : Nat) :
  Live sb (update ino i x) j ↔ Live sb ino j
  := by
  rcases eq_or_ne j i with rfl | hne
  · simp only [Live, update_self, hx]
  · simp only [Live, update_of_ne hne]

theorem size_update {x : Dinode} (hx : x.size = (ino i).size) (j : Nat) :
  (update ino i x j).size = (ino j).size
  := by
  rcases eq_or_ne j i with rfl | hne
  · rw [update_self, hx]
  · rw [update_of_ne hne]

theorem addrAt_update {x : Dinode} (hx : x.addrs = (ino i).addrs) (p : Place) :
  addrAt (update ino i x) d p = addrAt ino d p
  := by
  apply addrAt_congr
  · rcases eq_or_ne p.inum i with hpi | hpi
    · rw [hpi, update_self, hx]
    · rw [update_of_ne hpi]
  · intro _
    rfl

theorem addrAt_update_of_ne {x : Dinode} (hp : p.inum ≠ i) :
  addrAt (update ino i x) d p = addrAt ino d p
  := addrAt_congr (by rw [update_of_ne hp]) fun _ => rfl

theorem toNat_ofNat_of_lt (hb : b < sb.size.toNat) :
  (UInt32.ofNat b).toNat = b
  := UInt32.toNat_ofNat_of_lt' (hb.trans sb.size.toNat_lt)

namespace Superblock.Wf

variable (hwf : sb.Wf) (hb : sb.IsData b)

include hwf hb

theorem ne_zero :
  b ≠ 0
  := by
  have := hwf.lt_bmapstart
  have := hwf.bmapstart_lt
  have := hb.1
  omega

theorem allocated_of_ne {k : Nat} (hk : k ≠ b) (hk' : k < sb.bmapstart.toNat ∨ sb.datastart ≤ k) :
  allocated sb d b k = d k
  := by
  rw [allocated, update_of_ne hk, setBit, hwf.modifyMap_of_ne hb.2 hk']

theorem allocated_of_lt {k : Nat} (hk : k < sb.bmapstart.toNat) :
  allocated sb d b k = d k
  := by
  have := hwf.bmapstart_lt
  have := hb.1
  apply hwf.allocated_of_ne hb _ (Or.inl hk)
  omega

theorem bit_allocated {c : Nat} (hc : c < sb.size.toNat) :
  bit sb (allocated sb d b) c = if c = b then true else bit sb d c
  := by
  rw [← bit_setBit]
  apply hwf.bit_congr _ hc
  intro k _ hk
  have := hb.1
  apply update_of_ne
  omega

end Superblock.Wf

namespace Owned

variable (h : Owned sb ino d) (hwf : sb.Wf) (hb : b < sb.size.toNat) (hfree : bit sb d b = false)

include h hwf hb hfree

/-- The contents of a block in use when a free block is allocated. -/
theorem allocated_addrAt (hlive : Live sb ino p.inum) (hne : addrAt ino d p ≠ 0) :
  allocated sb d b (addrAt ino d p) = d (addrAt ino d p)
  := by
  apply hwf.allocated_of_ne (h.isData_of_free hb hfree)
  · apply h.addrAt_ne_of_free hfree hlive hne
  · right
    apply (h.used_of_live hlive hne).1.1

theorem ind_allocated (hlive : Live sb ino i) (hind : (ino i).ind ≠ 0) :
  allocated sb d b (ino i).ind.toNat = d (ino i).ind.toNat
  := h.allocated_addrAt hwf hb hfree (p := .indirect i) hlive (addrAt_indirect hind)

section

variable (hi : Live sb ino i)

include hi

/-- The addresses when a free block becomes an address of an inode.  As an indirect block it is
empty. -/
theorem addrAt_setAddr
    {k : Fin (NDIRECT + 1)} (hk : (ino i).addrs k = 0) {q : Place} (hq : Live sb ino q.inum) :
  addrAt (update ino i ((ino i).setAddr k (.ofNat b))) (allocated sb d b) q
    = if q = .addr i k then b else addrAt ino d q
  := by
  rcases eq_or_ne q.inum i with hqi | hqi
  · cases q with
    | addr i' k' =>
      obtain rfl : i' = i := hqi
      rcases eq_or_ne k' k with rfl | hkk
      · simp [addrAt, Dinode.setAddr, toNat_ofNat_of_lt hb]
      · simp [addrAt, Dinode.setAddr, hkk]
    | inner i' j =>
      obtain rfl : i' = i := hqi
      rw [if_neg (by simp)]
      rcases eq_or_ne k (Fin.last NDIRECT) with rfl | hlast
      · simp [addrAt, Dinode.ind, Dinode.setAddr, hk, toNat_ofNat_of_lt hb, allocated]
      · have hind : ((ino i').setAddr k (.ofNat b)).ind = (ino i').ind :=
          update_of_ne hlast.symm ..
        simp only [addrAt, update_self, hind]
        split
        · rfl
        · rename_i hne
          rw [h.ind_allocated hwf hb hfree hi hne]
  · rw [if_neg (by rintro rfl; exact hqi rfl)]
    apply addrAt_congr
    · rw [update_of_ne hqi]
    · apply h.ind_allocated hwf hb hfree hq

/-- A free block becomes an address of an inode. -/
theorem claimAddr {k : Fin (NDIRECT + 1)} (hk : (ino i).addrs k = 0) :
  Owned sb (update ino i ((ino i).setAddr k (.ofNat b))) (allocated sb d b)
  := by
  have hdata := h.isData_of_free hb hfree
  apply h.claim (p := .addr i k) hb hfree (hwf.ne_zero hdata) hi
  · simp [addrAt, hk]
  · apply live_update
    rfl
  · intro q hq
    apply h.addrAt_setAddr hwf hb hfree hi hk hq
  · intro c hc
    apply hwf.bit_allocated hdata hc
  · intro j _
    apply size_update
    rfl

/-- The addresses when a free block becomes an address in the indirect block of an inode. -/
theorem addrAt_setWord
    (hind : (ino i).ind ≠ 0) {j : Fin NINDIRECT} {q : Place} (hq : Live sb ino q.inum) :
  addrAt ino (update (allocated sb d b) (ino i).ind.toNat
      ((d (ino i).ind.toNat).setWord j (.ofNat b))) q
    = if q = .inner i j then b else addrAt ino d q
  := by
  rcases eq_or_ne q.inum i with hqi | hqi
  · cases q with
    | addr i' k => simp [addrAt]
    | inner i' j' =>
      obtain rfl : i' = i := hqi
      simp only [addrAt, if_neg hind, update_self]
      rcases eq_or_ne j' j with rfl | hjj
      · rw [Block.word_setWord_self j'.isLt, if_pos rfl, toNat_ofNat_of_lt hb]
      · rw [Block.word_setWord_of_ne (Fin.val_ne_of_ne hjj), if_neg (by simp [hjj])]
  · rw [if_neg (by rintro rfl; exact hqi rfl)]
    apply addrAt_congr rfl
    intro hind'
    rw [update_of_ne, h.ind_allocated hwf hb hfree hq hind']
    -- two inodes do not share an indirect block
    apply h.addrAt_ne_ind (p := .indirect q.inum) hq hi (addrAt_indirect hind')
    rintro ⟨⟩
    apply hqi rfl

/-- A free block becomes an address in the indirect block of an inode. -/
theorem claimInner
    (hind : (ino i).ind ≠ 0) {j : Fin NINDIRECT} (hj : (d (ino i).ind.toNat).word j = 0) :
  Owned sb ino (update (allocated sb d b) (ino i).ind.toNat
    ((d (ino i).ind.toNat).setWord j (.ofNat b)))
  := by
  have hdata := h.isData_of_free hb hfree
  have hused := h.ind_used hi hind
  apply h.claim (p := .inner i j) hb hfree (hwf.ne_zero hdata) hi
  · simp [addrAt, hj]
  · intro _
    rfl
  · intro q hq
    apply h.addrAt_setWord hwf hb hfree hi hind hq
  · intro c hc
    rw [← hwf.bit_allocated hdata hc]
    apply hwf.bit_congr _ hc
    intro k _ hk
    have := hused.1.1
    apply update_of_ne
    omega
  · intro _ _
    rfl

end

end Owned

/-! ### Replacing an inode -/

/-- An inode without addresses has no places in use. -/
theorem addrAt_eq_zero (h : ∀ k, (ino p.inum).addrs k = 0) :
  addrAt ino d p = 0
  := by
  cases p with
  | addr i k => simp only [addrAt, show (ino i).addrs k = 0 from h k, UInt32.toNat_zero]
  | inner i j => simp only [addrAt, show (ino i).ind = 0 from h _, if_true]

namespace Owned

section

variable (h : Owned sb ino d)

include h

/-- An inode becomes one without addresses, when the blocks it had are free. -/
theorem replace
    {x : Dinode} (hx : ∀ k, x.addrs k = 0) (hsize : x.size = 0)
    (hbij : Set.BijOn (addrAt ino d) { p ∈ refs sb ino d | p.inum ≠ i } (used sb d'))
    (hother : ∀ p : Place, Live sb ino p.inum → p.inum ≠ i → addrAt ino d' p = addrAt ino d p)
    (hreserved : ∀ b < sb.datastart, bit sb d' b = true) :
  Owned sb (update ino i x) d'
  := by
  have hlive : ∀ j, j ≠ i → (Live sb (update ino i x) j ↔ Live sb ino j) := by
    intro j hj
    simp only [Live, update_of_ne hj]
  have haddr : ∀ p : Place, Live sb ino p.inum → p.inum ≠ i →
      addrAt (update ino i x) d' p = addrAt ino d p := by
    intro p hp hpi
    rw [addrAt_update_of_ne hpi]
    apply hother p hp hpi
  have hrefs : refs sb (update ino i x) d' = { p ∈ refs sb ino d | p.inum ≠ i } := by
    ext p
    simp only [refs, Set.mem_ofPred_eq]
    rcases eq_or_ne p.inum i with hpi | hpi
    · have hzero : addrAt (update ino i x) d' p = 0 := by
        apply addrAt_eq_zero
        rw [hpi, update_self]
        apply hx
      simp [hzero, hpi]
    · rw [hlive _ hpi, and_iff_left hpi]
      apply and_congr_right
      intro hl
      rw [haddr p hl hpi]
  constructor
  · rw [hrefs]
    apply hbij.congr
    rintro p ⟨hp, hpi⟩
    rw [haddr p hp.1 hpi]
  · apply hreserved
  · intro j hj k hk
    rcases eq_or_ne j i with rfl | hji
    · simp [hsize] at hk
    · rw [hlive j hji] at hj
      rw [update_of_ne hji] at hk
      obtain ⟨p, hp, hne⟩ := h.noHole j hj k hk
      have hpj := inum_of_placeOf hp
      use p, hp
      rw [haddr p (by rw [hpj]; apply hj) (by rw [hpj]; apply hji)]
      apply hne

/-- An inode that has no addresses is replaced by another one. -/
theorem replaceEmpty
    {x : Dinode} (hx : ∀ k, x.addrs k = 0) (hsize : x.size = 0)
    (hempty : (ino i).type = 0 ∨ ∀ k, (ino i).addrs k = 0) :
  Owned sb (update ino i x) d
  := by
  apply h.replace hx hsize
  · have hrefs : { p ∈ refs sb ino d | p.inum ≠ i } = refs sb ino d := by
      ext p
      simp only [Set.mem_ofPred_eq, and_iff_left_iff_imp]
      rintro ⟨hl, hne⟩ rfl
      rcases hempty with htype | haddrs
      · apply hl.2 htype
      · apply hne (addrAt_eq_zero haddrs)
    rw [hrefs]
    apply h.bij
  · intro _ _ _
    rfl
  · apply h.reserved

/-- Fields that do not concern blocks. -/
theorem setLinks
    {x : Dinode} (htype : x.type = (ino i).type) (haddrs : x.addrs = (ino i).addrs)
    (hsize : x.size = (ino i).size) :
  Owned sb (update ino i x) d
  := by
  apply h.congr (live_update htype)
  · intro p _
    apply addrAt_update haddrs
  · intro _ _
    rfl
  · intro j _
    apply size_update hsize

/-- The size grows over blocks that have addresses. -/
theorem setSize {n : UInt32} (hn : ∀ k, k * BSIZE < n.toNat → Mapped ino d i k) :
  Owned sb (update ino i { ino i with size := n }) d
  := by
  have haddr : ∀ p, addrAt (update ino i { ino i with size := n }) d p = addrAt ino d p :=
    addrAt_update rfl
  have hlive : ∀ j, Live sb (update ino i { ino i with size := n }) j ↔ Live sb ino j :=
    live_update rfl
  constructor
  · have hrefs : refs sb (update ino i { ino i with size := n }) d = refs sb ino d := by
      ext p
      simp only [refs, Set.mem_ofPred_eq, hlive, haddr]
    rw [hrefs]
    apply h.bij.congr
    intro p _
    rw [haddr]
  · apply h.reserved
  · intro j hj k hk
    simp only [Mapped, haddr]
    rcases eq_or_ne j i with rfl | hji
    · rw [update_self] at hk
      apply hn k hk
    · rw [update_of_ne hji] at hk
      apply h.noHole j ((hlive j).mp hj) k hk

end

end Owned

end Xv6.Fs
