import Mathlib.Data.Fintype.Card
import Xv6.Lib.Hoare
import Xv6.Fs.Inode
import Xv6.Fs.Ownership

/-!
# Allocating and freeing the blocks of an inode

`bmap` extends the blocks of an inode and `itrunc` frees all of them, and both keep the block
allocation invariant.  The inode that is changed is the copy in the inode cache.
-/

namespace Xv6.Fs

open Function

variable {s s' s'' : FileSys} {ip : Slot} {ino : Nat → Dinode} {i b : Nat}

/-! ### `balloc` and `bfree` -/

theorem of_findFree {sb : Superblock} {d : Disk} (h : findFree sb d = some b) :
  b < sb.size.toNat ∧ bit sb d b = false
  := by
  obtain ⟨k, -, hk⟩ := List.exists_of_findSome?_eq_some h
  obtain ⟨bi, -, hbi⟩ := List.exists_of_findSome?_eq_some hk
  split at hbi
  · cases hbi
    assumption
  · cases hbi

theorem of_findFree_eq_none {sb : Superblock} {d : Disk} (h : findFree sb d = none) (b : Nat)
    (hb : b < sb.size.toNat) :
  bit sb d b = true
  := by
  have hk : b / BPB ∈ List.range ((sb.size.toNat + BPB - 1) / BPB) := by
    simp only [List.mem_range, BPB, BSIZE]
    omega
  have hbi : b % BPB ∈ List.range BPB := by
    simp only [List.mem_range]
    apply Nat.mod_lt
    decide
  have hnone := List.findSome?_eq_none_iff.mp (List.findSome?_eq_none_iff.mp h _ hk) _ hbi
  rw [Nat.div_add_mod'] at hnone
  simpa [hb] using hnone

/-- The number of free blocks. -/
def FileSys.free (s : FileSys) : Nat :=
  ((Finset.range s.sb.size.toNat).filter fun b => bit s.sb s.disk b = false).card

/-- `balloc` returns a block that was free, zeroed and marked in use. -/
theorem balloc_spec (s : FileSys) :
  Wp (fun f => f = .outOfBlocks ∧ s.free = 0) balloc
    (fun addr s' => ∃ b, b < s.sb.size.toNat ∧ bit s.sb s.disk b = false ∧ addr = .ofNat b ∧
      s' = { s with disk := allocated s.sb s.disk b }) s
  := by
  simp only [balloc, wp_bind, wp_get]
  split
  · rename_i b hb
    obtain ⟨hlt, hfree⟩ := of_findFree hb
    use b, hlt, hfree
    constructor
    · rfl
    · simp [FileSys.modifyBlock, allocated]
  · rename_i hnone
    refine ⟨rfl, Finset.card_eq_zero.mpr (Finset.filter_eq_empty_iff.mpr ?_)⟩
    intro b hb
    rw [of_findFree_eq_none hnone b (Finset.mem_range.mp hb)]
    simp

/-- The number of free blocks when one of them is allocated. -/
theorem FileSys.free_allocated
    (h : Owned s.sb ino s.disk) (hwf : s.sb.Wf) (hb : b < s.sb.size.toNat)
    (hfree : bit s.sb s.disk b = false) :
  { s with disk := allocated s.sb s.disk b }.free + 1 = s.free
  := by
  have hmem : b ∈ (Finset.range s.sb.size.toNat).filter fun b => bit s.sb s.disk b = false := by
    simp [hb, hfree]
  have herase : ((Finset.range s.sb.size.toNat).filter fun c =>
        bit s.sb (allocated s.sb s.disk b) c = false)
      = ((Finset.range s.sb.size.toNat).filter fun c => bit s.sb s.disk c = false).erase b := by
    ext c
    simp only [Finset.mem_filter, Finset.mem_range, Finset.mem_erase]
    rw [and_left_comm]
    apply and_congr_right
    intro hc
    rw [hwf.bit_allocated (h.isData_of_free hb hfree) hc]
    split <;> simp [*]
  simp only [free, herase]
  apply Finset.card_erase_add_one hmem

theorem FileSys.free_modifyBlock
    {f : Block → Block} (hwf : s.sb.Wf) (hb : s.sb.datastart ≤ b) :
  (s.modifyBlock b f).free = s.free
  := by
  rw [free, free]
  congr 1
  apply Finset.filter_congr
  intro c hc
  have hlt := hwf.BBLOCK_lt (Finset.mem_range.mp hc)
  have hsame : (s.modifyBlock b f).disk (s.sb.BBLOCK c) = s.disk (s.sb.BBLOCK c) :=
    update_of_ne (by omega) _ _
  rw [← bit_congr hsame]
  rfl

/-! ### Extending an inode -/

/-- Some addresses of the entry `ip` of the inode cache change, and blocks after the inode
blocks. -/
structure Grown (ip : Slot) (s s' : FileSys) : Prop where
  sb : s'.sb = s.sb
  below : ∀ k < s.sb.bmapstart.toNat, s'.disk k = s.disk k
  others : ∀ k, k ≠ ip → s'.inode k = s.inode k
  self : s'.inode ip = { s.inode ip with addrs := (s'.inode ip).addrs }

theorem Grown.trans (h : Grown ip s s') (h' : Grown ip s' s'') :
  Grown ip s s''
  := by
  constructor
  · rw [h'.sb, h.sb]
  · intro k hk
    rw [h'.below k (by rw [h.sb]; apply hk), h.below k hk]
  · intro k hk
    rw [h'.others k hk, h.others k hk]
  · rw [h'.self, h.self]

/-- The entry `ip` holds the inode `i`, and the inodes are `ino`, up to the addresses that have
not been copied to the disk. -/
structure Holds (s : FileSys) (ip : Slot) (ino : Nat → Dinode) (i : Nat) : Prop where
  wf : s.sb.Wf
  owned : Owned s.sb ino s.disk
  live : Live s.sb ino i
  copy : ino i = (s.inode ip).toDinode

/-- The inode in the entry `ip` gets more blocks, and the inodes are `ino'` then.  The blocks of
the other inodes are as before. -/
structure Extends (ip : Slot) (i : Nat) (s : FileSys) (ino : Nat → Dinode) (s' : FileSys)
    (ino' : Nat → Dinode) : Prop where
  grown : Grown ip s s'
  holds : Holds s' ip ino' i
  other : ∀ j, j ≠ i → ino' j = ino j
  addr : ∀ p : Place, Live s.sb ino p.inum → addrAt ino s.disk p ≠ 0 →
    addrAt ino' s'.disk p = addrAt ino s.disk p
  foreign : ∀ p : Place, Live s.sb ino p.inum → addrAt ino s.disk p ≠ 0 → p.inum ≠ i →
    s'.disk (addrAt ino s.disk p) = s.disk (addrAt ino s.disk p)

namespace Extends

variable {ino' ino'' : Nat → Dinode}

theorem refl (h : Holds s ip ino i) :
  Extends ip i s ino s ino
  :=
  ⟨⟨rfl, fun _ _ => rfl, fun _ _ => rfl, rfl⟩, h, fun _ _ => rfl, fun _ _ _ => rfl,
    fun _ _ _ _ => rfl⟩

section

variable (h : Extends ip i s ino s' ino')

include h

theorem mono {p : Place} (hp : Live s.sb ino p.inum) (hne : addrAt ino s.disk p ≠ 0) :
  addrAt ino' s'.disk p ≠ 0
  := by
  rw [h.addr p hp hne]
  apply hne

theorem live {j : Nat} (hj : Live s.sb ino j) :
  Live s'.sb ino' j
  := by
  rcases eq_or_ne j i with rfl | hne
  · apply h.holds.live
  · rw [Live, h.grown.sb, h.other j hne]
    apply hj

theorem trans (h' : Extends ip i s' ino' s'' ino'') :
  Extends ip i s ino s'' ino''
  := by
  constructor
  · apply h.grown.trans h'.grown
  · apply h'.holds
  · intro j hj
    rw [h'.other j hj, h.other j hj]
  · intro p hp hne
    rw [h'.addr p (h.live hp) (h.mono hp hne), h.addr p hp hne]
  · intro p hp hne hi
    have hforeign := h'.foreign p (h.live hp) (h.mono hp hne) hi
    rw [h.addr p hp hne] at hforeign
    rw [hforeign, h.foreign p hp hne hi]

end

/-- A free block becomes an address of the inode. -/
theorem setAddr
    (h : Holds s ip ino i) (hb : b < s.sb.size.toNat) (hfree : bit s.sb s.disk b = false)
    {k : Fin (NDIRECT + 1)} (hk : (s.inode ip).addrs k = 0) :
  Extends ip i s ino
    ({ s with disk := allocated s.sb s.disk b }.modifyInode ip fun x =>
      { x with addrs := update x.addrs k (.ofNat b) })
    (update ino i ((ino i).setAddr k (.ofNat b)))
  := by
  have hdata := h.owned.isData_of_free hb hfree
  have hk' : (ino i).addrs k = 0 := by
    rw [h.copy, hk]
  constructor
  · constructor
    · rfl
    · intro k hk
      apply h.wf.allocated_of_lt hdata hk
    · intro k hk
      simp [FileSys.modifyInode, hk]
    · simp [FileSys.modifyInode]
  · constructor
    · apply h.wf
    · apply h.owned.claimAddr h.wf hb hfree h.live hk'
    · apply (live_update _ _).mpr h.live
      rfl
    · simp [FileSys.modifyInode, Dinode.setAddr, h.copy]
  · intro j hj
    rw [update_of_ne hj]
  · intro p hlive hne
    have := h.owned.addrAt_setAddr h.wf hb hfree h.live hk' hlive
    simp only [FileSys.modifyInode, this]
    apply if_neg
    rintro rfl
    simp [addrAt, hk'] at hne
  · intro p hlive hne _
    apply h.owned.allocated_addrAt h.wf hb hfree hlive hne

/-- A free block becomes an address in the indirect block of the inode. -/
theorem setWord
    (h : Holds s ip ino i) (hb : b < s.sb.size.toNat) (hfree : bit s.sb s.disk b = false)
    (hind : (s.inode ip).ind ≠ 0) {j : Fin NINDIRECT}
    (hj : (s.disk (s.inode ip).ind.toNat).word j = 0) :
  Extends ip i s ino
    ({ s with disk := allocated s.sb s.disk b }.modifyBlock (s.inode ip).ind.toNat fun a =>
      a.setWord j (.ofNat b)) ino
  := by
  have hdata := h.owned.isData_of_free hb hfree
  rw [← h.copy] at hind hj ⊢
  have hused := h.owned.ind_used h.live hind
  have hind' := h.owned.ind_allocated h.wf hb hfree h.live hind
  constructor
  · constructor
    · rfl
    · intro k hk
      have := hused.1.1
      have := h.wf.bmapstart_lt
      simp only [FileSys.modifyBlock]
      rw [update_of_ne (by omega), h.wf.allocated_of_lt hdata hk]
    · intro k _
      rfl
    · rfl
  · constructor
    · apply h.wf
    · simp only [FileSys.modifyBlock, hind']
      apply h.owned.claimInner h.wf hb hfree h.live hind hj
    · apply h.live
    · apply h.copy
  · intro _ _
    rfl
  · intro p hlive hne
    have := h.owned.addrAt_setWord h.wf hb hfree h.live hind (j := j) hlive
    simp only [FileSys.modifyBlock, hind', this]
    apply if_neg
    rintro rfl
    simp [addrAt, hj] at hne
  · intro p hlive hne hi
    simp only [FileSys.modifyBlock]
    rw [update_of_ne, h.owned.allocated_addrAt h.wf hb hfree hlive hne]
    apply h.owned.addrAt_ne_ind hlive h.live hne
    rintro rfl
    apply hi rfl

end Extends

/-- The data blocks are as before. -/
def KeepsData (i : Nat) (s : FileSys) (ino : Nat → Dinode) (s' : FileSys) : Prop :=
  ∀ p : Place, Live s.sb ino p.inum → addrAt ino s.disk p ≠ 0 → p ≠ .indirect i →
    s'.disk (addrAt ino s.disk p) = s.disk (addrAt ino s.disk p)

namespace KeepsData

variable {ino' : Nat → Dinode}

theorem refl :
  KeepsData i s ino s
  := fun _ _ _ _ => rfl

theorem trans
    (h : KeepsData i s ino s') (hext : Extends ip i s ino s' ino') (h' : KeepsData i s' ino' s'') :
  KeepsData i s ino s''
  := by
  intro p hp hne hpi
  have hkeep := h' p (hext.live hp) (hext.mono hp hne) hpi
  rw [hext.addr p hp hne] at hkeep
  rw [hkeep, h p hp hne hpi]

theorem allocated
    (h : Holds s ip ino i) (hb : b < s.sb.size.toNat) (hfree : bit s.sb s.disk b = false) :
  KeepsData i s ino { s with disk := allocated s.sb s.disk b }
  := by
  intro p hp hne _
  apply h.owned.allocated_addrAt h.wf hb hfree hp hne

theorem setWord
    (h : Holds s ip ino i) (hb : b < s.sb.size.toNat) (hfree : bit s.sb s.disk b = false)
    {f : Block → Block} :
  KeepsData i s ino
    ({ s with disk := Fs.allocated s.sb s.disk b }.modifyBlock (s.inode ip).ind.toNat f)
  := by
  intro p hp hne hpi
  simp only [FileSys.modifyBlock]
  rw [update_of_ne, h.owned.allocated_addrAt h.wf hb hfree hp hne]
  rw [← h.copy]
  apply h.owned.addrAt_ne_ind hp h.live hne hpi

end KeepsData

theorem toNat_ne_zero {a : UInt32} :
  a.toNat ≠ 0 ↔ a ≠ 0
  := by
  rw [ne_eq, ne_eq, ← UInt32.toNat_inj, UInt32.toNat_zero]

theorem placeOf_of_lt {k : Nat} (hk : k < NDIRECT) :
  placeOf i k = some (.addr i (Fin.castSucc ⟨k, hk⟩))
  := dif_pos hk

theorem placeOf_of_le {k : Nat} (hk : ¬ k < NDIRECT) (hk' : k - NDIRECT < NINDIRECT) :
  placeOf i k = some (.inner i ⟨k - NDIRECT, hk'⟩)
  := by
  rw [placeOf, dif_neg hk, dif_pos hk']

/-- The number of indirect blocks that an inode lacks. -/
def Dinode.missingInd (x : Dinode) : Nat :=
  if x.ind = 0 then 1 else 0

/-- The number of blocks that an inode lacks for its block `k`. -/
def Dinode.missing (x : Dinode) (d : Disk) (k : Nat) : Nat :=
  (if x.blockAddr d k = 0 then 1 else 0) + if k < NDIRECT then 0 else x.missingInd

/-- The result of `bmap`: the inode gets the block unless it has it. -/
structure Bmapped (ip : Slot) (i bn : Nat) (s : FileSys) (ino : Nat → Dinode) (addr : UInt32)
    (s' : FileSys) : Prop where
  extends_ : ∃ ino', Extends ip i s ino s' ino' ∧
    ∃ p ∈ placeOf i bn, addrAt ino' s'.disk p = addr.toNat ∧ addr.toNat ≠ 0
  same : Mapped ino s.disk i bn → s' = s
  data : KeepsData i s ino s'
  free : s'.free + (ino i).missing s.disk bn = s.free

section

variable (h : Holds s ip ino i)

include h

/-- `bmap` of a block below `NDIRECT`. -/
theorem bmap_direct {bn : Nat} (hbn : bn < NDIRECT) :
  Wp (fun f => f = .outOfBlocks ∧ s.free < (ino i).missing s.disk bn) (bmap ip bn)
    (Bmapped ip i bn s ino) s
  := by
  have hplace := placeOf_of_lt (i := i) hbn
  have haddr : addrAt ino s.disk (.addr i (Fin.castSucc ⟨bn, hbn⟩))
      = ((s.inode ip).addrs (Fin.castSucc ⟨bn, hbn⟩)).toNat := by
    simp only [addrAt, h.copy]
  have hmissing : (ino i).missing s.disk bn
      = if (s.inode ip).addrs (Fin.castSucc ⟨bn, hbn⟩) = 0 then 1 else 0 := by
    rw [Dinode.missing, blockAddr_of_placeOf hplace, haddr, if_pos hbn, Nat.add_zero]
    simp only [← UInt32.toNat_inj, UInt32.toNat_zero]
  simp only [bmap, dif_pos hbn, wp_bind, wp_get, hmissing]
  split
  · rename_i hzero
    apply ((balloc_spec s).fail fun f hf => ⟨hf.1, by omega⟩).bind
    rintro addr s' ⟨b, hb, hfree, rfl, rfl⟩
    simp only [wp_bind, wp_modify, wp_pure]
    constructor
    · refine ⟨_, .setAddr h hb hfree hzero, _, hplace, ?_⟩
      have hne := h.wf.ne_zero (h.owned.isData_of_free hb hfree)
      simp [addrAt, Dinode.setAddr, toNat_ofNat_of_lt hb, hne]
    · rintro ⟨p, hp, hne⟩
      rw [hplace] at hp
      cases hp
      rw [haddr, hzero] at hne
      cases hne rfl
    · apply KeepsData.allocated h hb hfree
    · rw [hmissing, if_pos hzero]
      apply FileSys.free_allocated h.owned h.wf hb hfree
  · rename_i hne
    rw [wp_pure]
    constructor
    · refine ⟨ino, .refl h, _, hplace, haddr, ?_⟩
      apply toNat_ne_zero.mpr hne
    · intro _
      rfl
    · apply KeepsData.refl
    · rw [hmissing, if_neg hne, Nat.add_zero]

/-- The indirect block of an inode. -/
theorem indirectBlock_spec :
  Wp (fun f => f = .outOfBlocks ∧ s.free < (ino i).missingInd) (indirectBlock ip)
    (fun ind s' => (∃ ino', Extends ip i s ino s' ino') ∧ ind = (s'.inode ip).ind ∧ ind ≠ 0 ∧
      ((s.inode ip).ind ≠ 0 → s' = s) ∧ ((s.inode ip).ind = 0 → s'.disk ind.toNat = .zero) ∧
      KeepsData i s ino s' ∧
      s'.free + (ino i).missingInd = s.free) s
  := by
  rw [h.copy, Dinode.missingInd, indirectBlock, wp_bind, wp_get]
  by_cases hzero : (s.inode ip).ind = 0
  · rw [if_pos hzero, if_pos hzero]
    apply ((balloc_spec s).fail fun f hf => ⟨hf.1, by omega⟩).bind
    rintro addr s' ⟨b, hb, hfree, rfl, rfl⟩
    simp only [wp_bind, wp_modify, wp_pure]
    refine ⟨⟨_, .setAddr h hb hfree hzero⟩, ?_, ?_, ?_, ?_, ?_, ?_⟩
    · simp [FileSys.modifyInode, Dinode.ind]
    · apply toNat_ne_zero.mp
      rw [toNat_ofNat_of_lt hb]
      apply h.wf.ne_zero (h.owned.isData_of_free hb hfree)
    · intro hne
      cases hne hzero
    · intro _
      simp [FileSys.modifyInode, allocated, toNat_ofNat_of_lt hb]
    · apply KeepsData.allocated h hb hfree
    · apply FileSys.free_allocated h.owned h.wf hb hfree
  · rw [if_neg hzero, if_neg hzero, wp_pure]
    refine ⟨⟨ino, .refl h⟩, rfl, hzero, fun _ => rfl, ?_, .refl, rfl⟩
    intro hzero'
    cases hzero hzero'

/-- `bmap` of a block from `NDIRECT` on. -/
theorem bmap_indirect {bn : Nat} (hbn : ¬ bn < NDIRECT) (hbn' : bn - NDIRECT < NINDIRECT) :
  Wp (fun f => f = .outOfBlocks ∧ s.free < (ino i).missing s.disk bn) (bmap ip bn)
    (Bmapped ip i bn s ino) s
  := by
  have hplace := placeOf_of_le (i := i) hbn hbn'
  simp only [bmap, dif_neg hbn, if_pos hbn', wp_bind, wp_get]
  have hmissing : (ino i).missing s.disk bn
      = (if addrAt ino s.disk (.inner i ⟨bn - NDIRECT, hbn'⟩) = 0 then 1 else 0)
        + (ino i).missingInd := by
    rw [Dinode.missing, blockAddr_of_placeOf hplace, if_neg hbn]
  have hfail : ∀ f, f = Fault.outOfBlocks ∧ s.free < (ino i).missingInd →
      f = .outOfBlocks ∧ s.free < (ino i).missing s.disk bn := by
    rintro f ⟨hf, hlt⟩
    refine ⟨hf, ?_⟩
    rw [hmissing]
    omega
  apply ((indirectBlock_spec h).fail hfail).mono
  rintro ind s₁ ⟨⟨ino₁, hext⟩, rfl, hind, hsame, hfresh, hkeep, hfree₁⟩
  have h₁ := hext.holds
  have haddr : addrAt ino₁ s₁.disk (.inner i ⟨bn - NDIRECT, hbn'⟩)
      = ((s₁.disk (s₁.inode ip).ind.toNat).word (bn - NDIRECT)).toNat := by
    simp only [addrAt, h₁.copy, if_neg hind]
  split
  · rename_i hzero
    have hzero' : addrAt ino s.disk (.inner i ⟨bn - NDIRECT, hbn'⟩) = 0 := by
      by_contra hne
      apply hext.mono (p := .inner i ⟨bn - NDIRECT, hbn'⟩) h.live hne
      rw [haddr, hzero, UInt32.toNat_zero]
    rw [if_pos hzero'] at hmissing
    apply ((balloc_spec s₁).fail fun f hf => ⟨hf.1, by omega⟩).bind
    rintro addr s' ⟨b, hb, hfree, rfl, rfl⟩
    simp only [wp_bind, wp_modify, wp_pure]
    constructor
    · refine ⟨_, hext.trans (.setWord h₁ hb hfree hind (j := ⟨bn - NDIRECT, hbn'⟩) hzero), _,
        hplace, ?_, ?_⟩
      · simp only [FileSys.modifyBlock, addrAt, h₁.copy, if_neg hind, update_self,
          Block.word_setWord_self hbn']
      · rw [toNat_ofNat_of_lt hb]
        apply h₁.wf.ne_zero (h₁.owned.isData_of_free hb hfree)
    · rintro ⟨p, hp, hne⟩
      rw [hplace] at hp
      cases hp
      cases hne hzero'
    · apply hkeep.trans hext (.setWord h₁ hb hfree)
    · have hind' := (h₁.owned.ind_used h₁.live (h₁.copy ▸ hind)).1.1
      rw [h₁.copy] at hind'
      rw [FileSys.free_modifyBlock (s := { s₁ with disk := allocated s₁.sb s₁.disk b }) h₁.wf hind']
      have := FileSys.free_allocated h₁.owned h₁.wf hb hfree
      omega
  · rename_i hne
    rw [wp_pure]
    -- a new indirect block is empty
    have hind' : (s.inode ip).ind ≠ 0 := by
      intro hzero
      rw [hfresh hzero] at hne
      apply hne (Block.word_zero _)
    obtain rfl := hsame hind'
    constructor
    · refine ⟨ino₁, hext, _, hplace, haddr, ?_⟩
      apply toNat_ne_zero.mpr hne
    · intro _
      rfl
    · exact hkeep
    · have hne' : addrAt ino s₁.disk (.inner i ⟨bn - NDIRECT, hbn'⟩) ≠ 0 := by
        simp only [addrAt, h.copy, if_neg hind']
        apply toNat_ne_zero.mpr hne
      rw [hmissing, if_neg hne', Nat.zero_add, hfree₁]

theorem bmap_spec {bn : Nat} (hbn : bn < MAXFILE) :
  Wp (fun f => f = .outOfBlocks ∧ s.free < (ino i).missing s.disk bn) (bmap ip bn)
    (Bmapped ip i bn s ino) s
  := by
  by_cases hd : bn < NDIRECT
  · apply bmap_direct h hd
  · apply bmap_indirect h hd
    simp only [MAXFILE] at hbn
    omega

/-- The contents of a block of the inode change. -/
theorem Extends.writeData
    {p : Place} (hp : p.inum = i) (hne : addrAt ino s.disk p ≠ 0) (hdata : p ≠ .indirect p.inum)
    (f : Block → Block) :
  Extends ip i s ino (s.modifyBlock (addrAt ino s.disk p) f) ino
  := by
  have hlive : Live s.sb ino p.inum := by
    rw [hp]
    apply h.live
  have hused := h.owned.used_of_live hlive hne
  constructor
  · constructor
    · rfl
    · intro k hk
      have := hused.1.1
      have := h.wf.bmapstart_lt
      apply update_of_ne
      omega
    · intro _ _
      rfl
    · rfl
  · constructor
    · apply h.wf
    · apply h.owned.writeData h.wf hlive hne hdata
    · apply h.live
    · apply h.copy
  · intro _ _
    rfl
  · intro q hq hq0
    simp only [FileSys.modifyBlock]
    rw [h.owned.addrAt_writeData hlive hne hdata hq]
  · intro q hq hq0 hqi
    apply update_of_ne
    intro heq
    apply hqi
    rw [h.owned.place_eq hq hlive hq0 heq, hp]

omit h in
/-- The place of a block of a file is not that of an indirect block. -/
theorem placeOf_ne_indirect {p : Place} {k : Nat} (hp : p ∈ placeOf i k) :
  p ≠ .indirect p.inum
  := by
  unfold placeOf at hp
  split at hp
  · cases hp
    simp [Place.indirect, Place.inum, Fin.ext_iff]
    omega
  · split at hp
    · cases hp
      simp [Place.indirect]
    · cases hp

/-- A step of the loop of `readi` or `writei`. -/
theorem Transfer.step_spec {t : Transfer} (ht : t.off / BSIZE < MAXFILE) :
  Wp (· = .outOfBlocks) (t.step ip)
    (fun t' s' => ∃ ino', Extends ip i s ino s' ino' ∧ Mapped ino' s'.disk i (t.off / BSIZE) ∧
      (Mapped ino s.disk i (t.off / BSIZE) → s'.inode = s.inode) ∧
      t' = { t with off := t.off + min (t.n - t.tot) (BSIZE - t.off % BSIZE),
                    tot := t.tot + min (t.n - t.tot) (BSIZE - t.off % BSIZE) }) s
  := by
  simp only [step, wp_bind]
  apply ((bmap_spec h ht).fail fun _ hf => hf.1).mono
  rintro addr s₁ ⟨⟨ino₁, hext, p, hp, haddr, hne⟩, hsame, -, -⟩
  have hinode : Mapped ino s.disk i (t.off / BSIZE) → s₁.inode = s.inode := by
    intro hm
    rw [hsame hm]
  split
  · simp only [wp_bind, wp_modify, wp_pure]
    rw [← haddr] at hne ⊢
    have hwrite := Extends.writeData hext.holds (inum_of_placeOf hp) hne (placeOf_ne_indirect hp)
    refine ⟨ino₁, hext.trans (hwrite _), ?_, hinode, trivial⟩
    use p, hp
    apply (hwrite _).mono _ hne
    rw [inum_of_placeOf hp]
    apply hext.holds.live
  · simp only [wp_pure]
    refine ⟨ino₁, hext, ?_, hinode, trivial⟩
    use p, hp
    rw [haddr]
    apply hne

end

/-! ### Truncating an inode -/

/-- The places of the inode `i` for direct addresses. -/
def directPlaces (i : Nat) (l : List (Fin NDIRECT)) : List Place :=
  l.map fun k => .addr i k.castSucc

/-- The places of the inode `i` in the indirect block. -/
def innerPlaces (i : Nat) (l : List (Fin NINDIRECT)) : List Place :=
  l.map fun j => .inner i j

/-- The places of the inode `i`, in the order in which `itrunc` frees them. -/
def places (i : Nat) : List Place :=
  directPlaces i (List.finRange NDIRECT) ++ (innerPlaces i (List.finRange NINDIRECT)
    ++ [.indirect i])

theorem mem_places {p : Place} (hp : p.inum = i) :
  p ∈ places i
  := by
  cases p with
  | addr i' k =>
    obtain rfl : i' = i := hp
    cases k using Fin.lastCases with
    | last => simp [places, Place.indirect]
    | cast k => simp [places, directPlaces]
  | inner i' j =>
    obtain rfl : i' = i := hp
    simp [places, innerPlaces]

theorem nodup_places (i : Nat) :
  (places i).Nodup
  := by
  have hdirect : (directPlaces i (List.finRange NDIRECT)).Nodup :=
    (List.nodup_finRange _).map fun _ _ h => by simpa using h
  have hinner : (innerPlaces i (List.finRange NINDIRECT)).Nodup :=
    (List.nodup_finRange _).map fun _ _ h => by simpa using h
  simp only [places, List.nodup_append, hdirect, hinner, true_and]
  simp only [directPlaces, innerPlaces, Place.indirect, List.mem_map, List.mem_append,
    List.mem_singleton]
  and_intros
  · simp
  · rintro _ ⟨j, -, rfl⟩ _ rfl h
    cases h
  · rintro _ ⟨k, -, rfl⟩ q (⟨j, -, rfl⟩ | rfl) h
    · cases h
    · simp at h

/-- `itrunc` of the inode `i`, which has not freed the places `ps` and not cleared the addresses
at the places `qs`. -/
structure Freeing (ip : Slot) (i : Nat) (ino : Nat → Dinode) (s₀ : FileSys) (ps qs : List Place)
    (s : FileSys) : Prop where
  sb : s.sb = s₀.sb
  outside : ∀ k, k < s₀.sb.bmapstart.toNat ∨ s₀.sb.datastart ≤ k → s.disk k = s₀.disk k
  bij : Set.BijOn (addrAt ino s₀.disk)
    { p ∈ refs s₀.sb ino s₀.disk | p.inum = i → p ∈ ps } (used s₀.sb s.disk)
  reserved : ∀ b < s₀.sb.datastart, bit s₀.sb s.disk b = true
  others : ∀ k, k ≠ ip → s.inode k = s₀.inode k
  self : s.inode ip = { s₀.inode ip with
    addrs := fun k => if .addr i k ∈ qs then (s₀.inode ip).addrs k else 0 }

namespace Freeing

variable {s₀ : FileSys} {p : Place} {ps qs : List Place}

theorem start (h : Holds s ip ino i) :
  Freeing ip i ino s (places i) (places i) s
  := by
  constructor
  · rfl
  · intro _ _
    rfl
  · have hrefs : { p ∈ refs s.sb ino s.disk | p.inum = i → p ∈ places i }
        = refs s.sb ino s.disk := by
      ext p
      simp only [Set.mem_ofPred_eq, and_iff_left_iff_imp]
      intro _
      apply mem_places
    rw [hrefs]
    apply h.owned.bij
  · apply h.owned.reserved
  · intro _ _
    rfl
  · have hmem : ∀ k, .addr i k ∈ places i := by
      intro k
      apply mem_places
      rfl
    simp only [hmem, if_true]

/-- A place without an address needs not be freed. -/
theorem skip (h : Freeing ip i ino s₀ (p :: ps) qs s) (hp : addrAt ino s₀.disk p = 0) :
  Freeing ip i ino s₀ ps qs s
  := by
  refine ⟨h.sb, h.outside, ?_, h.reserved, h.others, h.self⟩
  have hset : { q ∈ refs s₀.sb ino s₀.disk | q.inum = i → q ∈ ps }
      = { q ∈ refs s₀.sb ino s₀.disk | q.inum = i → q ∈ p :: ps } := by
    ext q
    simp only [Set.mem_ofPred_eq, List.mem_cons, and_congr_right_iff]
    intro hq
    have hne : q ≠ p := by
      rintro rfl
      apply hq.2 hp
    simp [hne]
  rw [hset]
  apply h.bij

theorem skipAll
    (h : Freeing ip i ino s₀ ps qs s) (hps : ∀ p ∈ ps, addrAt ino s₀.disk p = 0) :
  Freeing ip i ino s₀ [] qs s
  := by
  induction ps with
  | nil => apply h
  | cons p ps ih =>
    apply ih
    · apply h.skip (hps p List.mem_cons_self)
    · intro p' hp'
      apply hps p' (List.mem_cons_of_mem p hp')

/-- The block at a place is freed. -/
theorem bfree
    (h : Freeing ip i ino s₀ (p :: ps) qs s) (h₀ : Holds s₀ ip ino i)
    (hboot : readsb s₀.disk = s₀.sb) (hpi : p.inum = i) (hp : addrAt ino s₀.disk p ≠ 0)
    (hps : p ∉ ps) {E : Fault → Prop} :
  Wp E (bfree (addrAt ino s₀.disk p)) (fun _ s' => Freeing ip i ino s₀ ps qs s') s
  := by
  have hmem : p ∈ { q ∈ refs s₀.sb ino s₀.disk | q.inum = i → q ∈ p :: ps } := by
    refine ⟨⟨?_, hp⟩, ?_⟩
    · rw [hpi]
      apply h₀.live
    · intro _
      apply List.mem_cons_self
  have hused := h.bij.mapsTo hmem
  have hlt := h₀.wf.lt_bmapstart
  have hboot' : readsb s.disk = s.sb := by
    rw [h.sb, ← hboot]
    apply readsb_congr
    apply h.outside
    left
    apply hlt
  simp only [Fs.bfree, wp_bind, wp_modify, wp_get, hboot', h.sb, hused.2, if_neg, reduceCtorEq,
    not_false_eq_true]
  constructor
  · rfl
  · intro k hk
    simp only [clearBit]
    rw [h₀.wf.modifyMap_of_ne hused.1.2 hk, h.outside k hk]
  · have hset : { q ∈ refs s₀.sb ino s₀.disk | q.inum = i → q ∈ ps }
        = { q ∈ refs s₀.sb ino s₀.disk | q.inum = i → q ∈ p :: ps } \ {p} := by
      ext q
      simp only [Set.mem_ofPred_eq, List.mem_cons, Set.mem_sdiff, Set.mem_singleton_iff]
      rcases eq_or_ne q p with rfl | hne
      · simp [hpi, hps]
      · simp [hne]
    have hused' : used s₀.sb (clearBit s₀.sb s.disk (addrAt ino s₀.disk p))
        = used s₀.sb s.disk \ {addrAt ino s₀.disk p} := by
      ext c
      simp only [used, Set.mem_ofPred_eq, bit_clearBit, Set.mem_sdiff, Set.mem_singleton_iff]
      split
      · simp [*]
      · simp [*]
    rw [hset, hused']
    apply h.bij.sdiff_singleton hmem
  · intro c hc
    have := hused.1.1
    rw [bit_clearBit, if_neg (by omega), h.reserved c hc]
  · apply h.others
  · apply h.self

/-- The address in the inode is cleared. -/
theorem clear
    {k : Fin (NDIRECT + 1)} (h : Freeing ip i ino s₀ ps (.addr i k :: qs) s)
    (hk : .addr i k ∉ qs) :
  Freeing ip i ino s₀ ps qs (s.modifyInode ip fun x =>
    { x with addrs := update x.addrs k 0 })
  := by
  refine ⟨h.sb, h.outside, h.bij, h.reserved, ?_, ?_⟩
  · intro k hk
    rw [FileSys.modifyInode_of_ne _ _ hk, h.others k hk]
  · have haddrs : update (fun k' => if .addr i k' ∈ Place.addr i k :: qs
        then (s₀.inode ip).addrs k' else 0) k 0
        = fun k' => if .addr i k' ∈ qs then (s₀.inode ip).addrs k' else 0 := by
      funext k'
      rcases eq_or_ne k' k with rfl | hne
      · rw [update_self, if_neg hk]
      · simp [hne]
    simp only [FileSys.modifyInode_self, h.self, haddrs]

/-- An address that is `0` needs not be cleared. -/
theorem keep
    {k : Fin (NDIRECT + 1)} (h : Freeing ip i ino s₀ ps (.addr i k :: qs) s)
    (hk : (s₀.inode ip).addrs k = 0) :
  Freeing ip i ino s₀ ps qs s
  := by
  refine ⟨h.sb, h.outside, h.bij, h.reserved, h.others, ?_⟩
  have haddrs : (fun k' => if .addr i k' ∈ Place.addr i k :: qs then (s₀.inode ip).addrs k' else 0)
      = fun k' => if .addr i k' ∈ qs then (s₀.inode ip).addrs k' else 0 := by
    funext k'
    rcases eq_or_ne k' k with rfl | hne
    · simp [hk]
    · simp [hne]
  rw [h.self, haddrs]

variable (h₀ : Holds s₀ ip ino i) (hboot : readsb s₀.disk = s₀.sb) {E : Fault → Prop}

include h₀ hboot

theorem freeDirect
    {k : Fin NDIRECT} (h : Freeing ip i ino s₀ (.addr i k.castSucc :: ps)
      (.addr i k.castSucc :: ps) s) (hk : .addr i k.castSucc ∉ ps) :
  Wp E (freeDirect ip k) (fun _ s' => Freeing ip i ino s₀ ps ps s') s
  := by
  have haddr : (s.inode ip).addrs k.castSucc = (s₀.inode ip).addrs k.castSucc := by
    rw [h.self]
    simp
  have hplace : addrAt ino s₀.disk (.addr i k.castSucc)
      = ((s₀.inode ip).addrs k.castSucc).toNat := by
    simp only [addrAt, h₀.copy]
  simp only [Fs.freeDirect, wp_bind, wp_get, haddr]
  split
  · rename_i hne
    rw [wp_bind, ← hplace]
    apply (h.bfree h₀ hboot rfl (by rw [hplace]; exact toNat_ne_zero.mpr hne) hk).mono
    intro _ s' h'
    apply h'.clear hk
  · rename_i heq
    rw [not_not] at heq
    rw [wp_pure]
    apply (h.keep heq).skip
    rw [hplace, heq]
    rfl

theorem freeInner
    (hind : (s₀.inode ip).ind ≠ 0) {j : Fin NINDIRECT}
    (h : Freeing ip i ino s₀ (.inner i j :: ps) qs s) (hj : .inner i j ∉ ps) :
  Wp E (freeInner (s₀.disk (s₀.inode ip).ind.toNat) j)
    (fun _ s' => Freeing ip i ino s₀ ps qs s') s
  := by
  have hplace : addrAt ino s₀.disk (.inner i j)
      = ((s₀.disk (s₀.inode ip).ind.toNat).word j).toNat := by
    simp only [addrAt, h₀.copy, if_neg hind]
  simp only [Fs.freeInner]
  split
  · rename_i hne
    rw [← hplace]
    apply h.bfree h₀ hboot rfl _ hj
    rw [hplace]
    apply toNat_ne_zero.mpr hne
  · rename_i heq
    rw [not_not] at heq
    rw [wp_pure]
    apply h.skip
    rw [hplace, heq]
    rfl

omit h₀ hboot in
/-- The loops of `itrunc` free the places of a list one after the other. -/
theorem forM {α : Type} {g : α → Place} {f : α → FsM Unit} {I : List Place → FileSys → Prop}
    (hf : ∀ a ps s, I (g a :: ps) s → g a ∉ ps → Wp E (f a) (fun _ s' => I ps s') s) {l : List α}
    (h : I (l.map g ++ ps) s) (hnd : (l.map g ++ ps).Nodup) :
  Wp E (l.forM f) (fun _ s' => I ps s') s
  := by
  have hloop := Wp.forM (E := E) (f := f) (s := s) (l := l)
    (I := fun l s => I (l.map g ++ ps) s ∧ (l.map g ++ ps).Nodup) ?_ ⟨h, hnd⟩
  · apply hloop.mono
    rintro _ s' ⟨h', -⟩
    apply h'
  · rintro a l s ⟨h, hnd⟩
    obtain ⟨ha, hnd⟩ := List.nodup_cons.mp hnd
    apply (hf a _ s h ha).mono
    intro _ s' h'
    use h', hnd

/-- The part of `itrunc` for the indirect block. -/
theorem freeIndirect
    {l : List Place} (hl : l = innerPlaces i (List.finRange NINDIRECT) ++ [.indirect i])
    (h : Freeing ip i ino s₀ l l s) (hnd : l.Nodup) :
  Wp E (freeIndirect ip) (fun _ s' => Freeing ip i ino s₀ [] [] s') s
  := by
  subst hl
  -- the places in the indirect block are not addresses of the inode
  have h' : Freeing ip i ino s₀ (innerPlaces i (List.finRange NINDIRECT) ++ [.indirect i])
      [.indirect i] s := by
    refine ⟨h.sb, h.outside, h.bij, h.reserved, h.others, ?_⟩
    simpa [innerPlaces] using h.self
  have haddr : (s.inode ip).ind = (s₀.inode ip).ind := by
    rw [h'.self]
    simp [Dinode.ind, Place.indirect]
  simp only [Fs.freeIndirect, wp_bind, wp_get, haddr]
  split
  · rename_i hne
    have hused := h₀.owned.ind_used h₀.live (h₀.copy ▸ hne)
    rw [h₀.copy] at hused
    have hplace : addrAt ino s₀.disk (.indirect i) = (s₀.inode ip).ind.toNat := by
      simp only [Place.indirect, addrAt, h₀.copy, Dinode.ind]
    rw [wp_bind, h.outside _ (Or.inr hused.1.1)]
    have hloop := forM (I := fun ps s => Freeing ip i ino s₀ ps [.indirect i] s) (E := E)
      (fun _ _ _ => freeInner h₀ hboot hne) h' hnd
    apply hloop.mono
    intro _ s₁ h₁
    rw [wp_bind, ← hplace]
    apply (h₁.bfree h₀ hboot rfl _ List.not_mem_nil).mono
    · intro _ s₂ h₂
      apply h₂.clear List.not_mem_nil
    · rw [hplace]
      apply toNat_ne_zero.mpr hne
  · rename_i heq
    rw [not_not] at heq
    rw [wp_pure]
    apply (h'.keep heq).skipAll
    intro p hp
    have hp' : p ∈ innerPlaces i (List.finRange NINDIRECT) ∨ p = .indirect i := by
      simpa using hp
    rcases hp' with hp' | rfl
    · obtain ⟨j, -, rfl⟩ := List.mem_map.mp hp'
      simp only [addrAt, h₀.copy, heq, if_true]
    · simp only [Place.indirect, addrAt, h₀.copy]
      rw [Dinode.ind] at heq
      rw [heq]
      rfl

omit hboot in
/-- When all blocks of the inode are free, an empty one can replace it. -/
theorem owned (h : Freeing ip i ino s₀ [] qs s) {x : Dinode} (hx : ∀ k, x.addrs k = 0)
    (hsize : x.size = 0) :
  Owned s₀.sb (update ino i x) s.disk
  := by
  apply h₀.owned.replace hx hsize
  · have hset : { p ∈ refs s₀.sb ino s₀.disk | p.inum ≠ i }
        = { p ∈ refs s₀.sb ino s₀.disk | p.inum = i → p ∈ ([] : List Place) } := by
      ext p
      simp
    rw [hset]
    apply h.bij
  · intro p hp _
    apply h₀.owned.addrAt_of_data hp
    intro k hk
    apply h.outside k (Or.inr hk)
  · apply h.reserved

end Freeing

/-- An inode of the cache that is copied to the disk: other inodes are the same. -/
structure Updated (ip : Slot) (i : Nat) (s s' : FileSys) : Prop where
  sb : s'.sb = s.sb
  boot : s'.disk 1 = s.disk 1
  data : ∀ k, s.sb.datastart ≤ k → s'.disk k = s.disk k
  dinode : dinode s.sb s'.disk i = (s'.inode ip).toDinode
  dinodes : ∀ j < s.sb.ninodes.toNat, j ≠ i → Fs.dinode s.sb s'.disk j = Fs.dinode s.sb s.disk j
  others : ∀ k, k ≠ ip → s'.inode k = s.inode k

/-- `iupdate`, after changes that keep the blocks before the free map. -/
theorem Updated.iupdate
    (hwf : s.sb.Wf) (hsb : s'.sb = s.sb)
    (houtside : ∀ k, k < s.sb.bmapstart.toNat ∨ s.sb.datastart ≤ k → s'.disk k = s.disk k)
    (hothers : ∀ k, k ≠ ip → s'.inode k = s.inode k) (hi : i < s.sb.ninodes.toNat)
    (hip : (s'.inode ip).inum.toNat = i) :
  Updated ip i s
    { s' with disk := setDinode s'.sb s'.disk (s'.inode ip).inum.toNat (s'.inode ip).toDinode }
  := by
  have hlt := hwf.lt_bmapstart
  rw [hsb, hip]
  constructor
  · rfl
  · rw [← houtside 1 (Or.inl hlt)]
    apply setDinode_of_ne (hwf.lt_IBLOCK i).ne
  · intro k hk
    rw [← houtside k (Or.inr hk)]
    apply hwf.setDinode_of_le hi (hwf.bmapstart_lt.le.trans hk)
  · apply dinode_setDinode_self
  · intro j hj hne
    apply (dinode_setDinode_of_ne hne).trans
    apply hwf.dinode_congr _ hj
    intro k hk
    apply houtside k (Or.inl hk)
  · apply hothers

/-- `itrunc` leaves an inode without addresses. -/
theorem itrunc_spec
    (h : Holds s ip ino i) (hboot : readsb s.disk = s.sb) (hi : (s.inode ip).inum.toNat = i)
    {E : Fault → Prop} :
  Wp E (itrunc ip) (fun _ s' => Updated ip i s s' ∧
    s'.inode ip = { s.inode ip with addrs := fun _ => 0, size := 0 } ∧
    Owned s.sb (update ino i { ino i with addrs := fun _ => 0, size := 0 }) s'.disk) s
  := by
  have hnd := nodup_places i
  simp only [itrunc, wp_bind]
  have hloop := Freeing.forM (I := fun ps s' => Freeing ip i ino s ps ps s') (E := E)
    (fun _ _ _ => Freeing.freeDirect h hboot) (.start h) hnd
  apply hloop.mono
  intro _ s₁ h₁
  apply (Freeing.freeIndirect h hboot rfl h₁ (List.nodup_append.mp hnd).2.1).mono
  intro _ s₂ h₂
  have hself : (s₂.modifyInode ip fun x => { x with size := 0 }).inode ip
      = { s.inode ip with addrs := fun _ => 0, size := 0 } := by
    rw [FileSys.modifyInode_self, h₂.self]
    simp
  have hsb : (s₂.modifyInode ip fun x => { x with size := 0 }).sb = s.sb := h₂.sb
  rw [wp_modify, iupdate, wp_modify]
  and_intros
  · apply Updated.iupdate h.wf hsb h₂.outside _ h.live.1
    · rw [hself]
      apply hi
    · intro k hk
      rw [FileSys.modifyInode_of_ne _ _ hk, h₂.others k hk]
  · apply hself
  · rw [hsb]
    apply Owned.setDinode _ h.wf
    · rw [hself, hi]
      apply h.live.1
    · apply h₂.owned h
      · intro k
        rfl
      · rfl

end Xv6.Fs
