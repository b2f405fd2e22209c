import Xv6.Mkfs.Image

/-!
# Appending to a file of the image

`mkfs` takes blocks one after the other and writes the free map at its end.  With the free map
that it would write now, the image is a file system in which `iappend` extends an inode as the
kernel does.
-/

namespace Xv6.Mkfs

open Fs
open Function

/-! ### The free map -/

theorem bitmap_succ (n : Nat) :
  bitmap (n + 1) = (bitmap n).modifyByte (n / 8) (· ||| mask n)
  := by
  rw [bitmap, bitmap, List.range_succ, List.foldl_append]
  rfl

/-- The superblock of the image for all the inodes that fit before the free map, some of which
are not below `NINODES`.  It gives away the block before the inodes. -/
def mapSb : Superblock :=
  { sb with ninodes := .ofNat (ninodeblocks * IPB), inodestart := .ofNat (1 + nlog) }

theorem wf_mapSb :
  mapSb.Wf
  := by
  constructor <;> decide

theorem BBLOCK_mapSb {b : Nat} (hb : b < BPB) :
  mapSb.BBLOCK b = sb.bmapstart.toNat
  := by
  rw [Superblock.BBLOCK, Nat.div_eq_of_lt hb, Nat.zero_add]
  rfl

/-- The image with the free map for the blocks that are taken. -/
def Image.view (st : Image) : Disk :=
  Function.update st.disk sb.bmapstart.toNat (bitmap st.freeblock)

variable {st st' : Image} {b : Nat}

theorem Image.view_of_ne (hb : b ≠ sb.bmapstart.toNat) :
  st.view b = st.disk b
  := update_of_ne hb ..

/-- Taking the next block marks it in the free map. -/
theorem Image.setBit_view (st : Image) (hlt : st.freeblock < BPB) :
  setBit mapSb st.view st.freeblock = { st with freeblock := st.freeblock + 1 }.view
  := by
  rw [setBit, modifyMap, BBLOCK_mapSb hlt, Nat.mod_eq_of_lt hlt, view, view, update_self,
    update_idem, bitmap_succ]

/-- The free map marks the blocks that are taken. -/
theorem Image.bit_view (st : Image) (hst : st.freeblock ≤ BPB) (hb : b < BPB) :
  bit mapSb st.view b = decide (b < st.freeblock)
  := by
  obtain ⟨d, n, i, f⟩ := st
  induction f with
  | zero =>
    rw [bit, BBLOCK_mapSb hb, view, update_self]
    simp [bitmap, Block.zero, Block.byte]
  | succ f ih =>
    dsimp only at hst ih ⊢
    have hset := setBit_view ⟨d, n, i, f⟩ hst
    rw [← hset, bit_setBit, ih (by omega)]
    split
    · simp [*]
    · rename_i hne
      dsimp only at hne
      rw [decide_eq_decide]
      omega

/-! ### The image as a file system -/

/-- The file system in which the kernel has the inode `i` in its cache. -/
def Image.fs (st : Image) (i : Nat) (din : Dinode) : FileSys where
  sb := mapSb
  disk := st.view
  inode := Function.update (fun _ => ⟨⟨0, 0, 0, 0, 0, fun _ => 0⟩, 0, 0, false⟩) 0
    ⟨din, .ofNat i, 1, true⟩

/-- A block behind the metadata is not that of the free map. -/
theorem ne_bmapstart (hb : nmeta ≤ b) :
  b ≠ sb.bmapstart.toNat
  := by
  have : sb.bmapstart.toNat < nmeta := by
    decide
  omega

/-- The contents of a block behind the metadata change. -/
theorem Image.fs_write {i : Nat} {din : Dinode} (hb : nmeta ≤ b) (f : Block → Block) :
  (st.fs i din).modifyBlock b f
    = { st with disk := update st.disk b (f (st.disk b)) }.fs i din
  := by
  have hne := ne_bmapstart hb
  simp only [fs, FileSys.modifyBlock, view, update_comm hne, update_of_ne hne]

/-- The metadata is marked in the free map. -/
theorem Image.low (st : Image) {ino : Nat → Dinode} (h : Owned mapSb ino st.view)
    (hst : st.freeblock ≤ FSSIZE) :
  nmeta ≤ st.freeblock
  := by
  have hbit := h.reserved (nmeta - 1) (by decide)
  rw [st.bit_view (hst.trans (by decide)) (by decide)] at hbit
  have hlt := of_decide_eq_true hbit
  omega

/-- A block in use is one of those that are taken. -/
theorem Image.used_lt (st : Image) (hst : st.freeblock ≤ FSSIZE) (hb : b ∈ used mapSb st.view) :
  nmeta ≤ b ∧ b < st.freeblock
  := by
  obtain ⟨⟨hlow, hhigh⟩, hbit⟩ := hb
  have hlt : b < BPB := hhigh.trans (by decide)
  rw [st.bit_view (hst.trans (by decide)) hlt] at hbit
  exact ⟨hlow, of_decide_eq_true hbit⟩

/-- `iappend` has the inode `i` in memory, and the inodes are `ino`. -/
structure Growing (st : Image) (i : Nat) (din : Dinode) (ino : Nat → Dinode) : Prop where
  size : st.size = FSSIZE
  high : st.freeblock ≤ FSSIZE
  fresh : ∀ b, st.freeblock ≤ b → st.disk b = .zero
  holds : Holds (st.fs i din) 0 ino i

namespace Growing

variable {i : Nat} {din : Dinode} {ino : Nat → Dinode} (h : Growing st i din ino)

include h

theorem low :
  nmeta ≤ st.freeblock
  := st.low h.holds.owned h.high

theorem used_lt (hb : b ∈ used mapSb st.view) :
  nmeta ≤ b ∧ b < st.freeblock
  := st.used_lt h.high hb

theorem allocated_view (hlt : st.freeblock < FSSIZE) :
  allocated mapSb st.view st.freeblock = { st with freeblock := st.freeblock + 1 }.view
  := by
  have hne := ne_bmapstart h.low
  rw [allocated, st.setBit_view (hlt.trans (by decide)), update_eq_iff]
  refine ⟨?_, fun _ _ => rfl⟩
  rw [Image.view_of_ne hne, h.fresh _ le_rfl]

theorem free (hlt : st.freeblock < FSSIZE) :
  bit mapSb st.view st.freeblock = false
  := by
  rw [st.bit_view (h.high.trans (by decide)) (hlt.trans (by decide))]
  simp

end Growing

/-- The inode has no block from the block `k` on, and no indirect block it would not need. -/
def Within (x : Dinode) (d : Disk) (k : Nat) : Prop :=
  (∀ j, k ≤ j → x.blockAddr d j = 0) ∧ (k ≤ NDIRECT → x.ind = 0)

/-- The inode `i` in memory gets the blocks that it needs up to the block `k`, at most `m` of
them. -/
structure Appended (i k m : Nat) (st : Image) (din : Dinode) (ino : Nat → Dinode) (st' : Image)
    (din' : Dinode) (ino' : Nat → Dinode) : Prop where
  growing : Growing st' i din' ino'
  extends_ : Extends 0 i (st.fs i din) ino (st'.fs i din') ino'
  data : KeepsData i (st.fs i din) ino (st'.fs i din')
  within : Within din st.view (k + 1) → Within din' st'.view (k + 1)
  taken : st'.freeblock ≤ st.freeblock + m
  freeinode : st'.freeinode = st.freeinode

namespace Appended

variable {i k m m' : Nat} {st'' : Image} {din din' din'' : Dinode} {ino ino' ino'' : Nat → Dinode}

theorem refl (h : Growing st i din ino) :
  Appended i k 0 st din ino st din ino
  := ⟨h, .refl h.holds, .refl, id, le_rfl, rfl⟩

theorem trans
    (h : Appended i k m st din ino st' din' ino')
    (h' : Appended i k m' st' din' ino' st'' din'' ino'') :
  Appended i k (m + m') st din ino st'' din'' ino''
  := by
  constructor
  · exact h'.growing
  · exact h.extends_.trans h'.extends_
  · exact h.data.trans h.extends_ h'.data
  · intro hw
    exact h'.within (h.within hw)
  · have := h.taken
    have := h'.taken
    omega
  · rw [h'.freeinode, h.freeinode]

end Appended

namespace Growing

variable {i : Nat} {din : Dinode} {ino : Nat → Dinode} (h : Growing st i din ino)

include h

/-- The next block becomes an address of the inode. -/
theorem setAddr
    (hlt : st.freeblock < FSSIZE) {k : Fin (NDIRECT + 1)} (hk : din.addrs k = 0) {j : Nat}
    (hw : Within din st.view (j + 1) → Within (din.setAddr k (.ofNat st.freeblock))
      { st with freeblock := st.freeblock + 1 }.view (j + 1)) :
  Appended i j 1 st din ino { st with freeblock := st.freeblock + 1 }
    (din.setAddr k (.ofNat st.freeblock)) (update ino i ((ino i).setAddr k (.ofNat st.freeblock)))
  := by
  have hext := Extends.setAddr h.holds (b := st.freeblock) hlt (h.free hlt) (k := k) hk
  have hfs : ({ st.fs i din with disk := allocated mapSb st.view st.freeblock }.modifyInode 0
        fun x => { x with addrs := update x.addrs k (.ofNat st.freeblock) })
      = { st with freeblock := st.freeblock + 1 }.fs i (din.setAddr k (.ofNat st.freeblock)) := by
    rw [h.allocated_view hlt]
    simp [Image.fs, FileSys.modifyInode, Dinode.setAddr]
  have hext' := hfs ▸ hext
  refine ⟨⟨h.size, hlt, ?_, hext'.holds⟩, hext', ?_, hw, le_rfl, rfl⟩
  · intro b hb
    apply h.fresh b
    dsimp only at hb
    omega
  · rw [← hfs]
    apply KeepsData.allocated h.holds hlt (h.free hlt)

/-- The indirect block of the inode is one of those that are taken. -/
theorem ind_lt (hind : din.ind ≠ 0) :
  nmeta ≤ din.ind.toNat ∧ din.ind.toNat < st.freeblock
  := by
  have hused := h.holds.owned.ind_used h.holds.live (h.holds.copy ▸ hind)
  rw [h.holds.copy] at hused
  exact h.used_lt hused

/-- The next block becomes an address in the indirect block of the inode. -/
theorem setWord
    (hlt : st.freeblock < FSSIZE) (hind : din.ind ≠ 0) {j : Fin NINDIRECT}
    (hj : (st.disk din.ind.toNat).word j = 0) {k : Nat}
    (hw : Within din st.view (k + 1) → Within din (Image.view { st with
      disk := update st.disk din.ind.toNat
        ((st.disk din.ind.toNat).setWord j (.ofNat st.freeblock))
      freeblock := st.freeblock + 1 }) (k + 1)) :
  Appended i k 1 st din ino { st with
      disk := update st.disk din.ind.toNat
        ((st.disk din.ind.toNat).setWord j (.ofNat st.freeblock))
      freeblock := st.freeblock + 1 } din ino
  := by
  have hrange := h.ind_lt hind
  have hne := ne_bmapstart hrange.1
  have hdisk : st.view din.ind.toNat = st.disk din.ind.toNat := Image.view_of_ne hne
  have hext := Extends.setWord h.holds (b := st.freeblock) hlt (h.free hlt) hind (j := j)
    (by rw [← hj, ← hdisk]; rfl)
  have hfs : ({ st.fs i din with disk := allocated mapSb st.view st.freeblock }.modifyBlock
        din.ind.toNat fun a => a.setWord j (.ofNat st.freeblock))
      = { st with
          disk := update st.disk din.ind.toNat
            ((st.disk din.ind.toNat).setWord j (.ofNat st.freeblock))
          freeblock := st.freeblock + 1 }.fs i din := by
    rw [h.allocated_view hlt]
    apply Image.fs_write hrange.1
  have hext' := hfs ▸ hext
  refine ⟨⟨h.size, hlt, ?_, hext'.holds⟩, hext', ?_, hw, le_rfl, rfl⟩
  · intro b hb
    dsimp only at hb ⊢
    rw [update_of_ne (by omega)]
    apply h.fresh b (by omega)
  · rw [← hfs]
    apply KeepsData.setWord h.holds hlt (h.free hlt)

/-- The number of the next block, which is not `0`. -/
theorem toNat_freeblock :
  (UInt32.ofNat st.freeblock).toNat = st.freeblock ∧ (UInt32.ofNat st.freeblock).toNat ≠ 0
  := by
  have hlow := h.low
  have hhigh := h.high
  have : 0 < nmeta := by
    decide
  simp only [FSSIZE] at hhigh
  rw [UInt32.toNat_ofNat']
  omega

end Growing

/-! ### A block of the file -/

section

variable {E : Failure → Prop}

theorem wp_rsect_of_lt {Q : Block → Image → Prop} (hb : b < st.size) :
  Wp E (rsect b) Q st ↔ Q (st.disk b) st
  := by
  rw [rsect, wp_bind, wp_get, if_pos hb, wp_pure]

theorem wp_rsect_of_le {Q : Block → Image → Prop} (hb : st.size ≤ b) :
  Wp E (rsect b) Q st ↔ E .read
  := by
  rw [rsect, wp_bind, wp_get, if_neg (Nat.not_lt.mpr hb), wp_throw]

theorem wp_wsect_of_lt {Q : Unit → Image → Prop} (hb : b < st.size) {buf : Block} :
  Wp E (wsect b buf) Q st ↔ Q () { st with disk := update st.disk b buf }
  := by
  rw [wsect, wp_modify, Nat.max_eq_left hb]

theorem wp_takeBlock {Q : UInt32 → Image → Prop} :
  Wp E takeBlock Q st ↔ Q (.ofNat st.freeblock) { st with freeblock := st.freeblock + 1 }
  := Iff.rfl

end

/-- The block `k` of the inode has the address `x`, and contents `buf`. -/
def IsBlock (i k : Nat) (ino : Nat → Dinode) (st : Image) (x : UInt32) (buf : Block) : Prop :=
  buf = st.disk x.toNat ∧ ∃ p ∈ placeOf i k, addrAt ino st.view p = x.toNat ∧ x.toNat ≠ 0

variable {i k : Nat} {din : Dinode} {ino : Nat → Dinode} {E : Failure → Prop}

/-- A block of the inode can be written. -/
theorem Growing.block_lt {x : UInt32} {buf : Block} (h : Growing st i din ino)
    (hblock : IsBlock i k ino st x buf) :
  x.toNat < st.size
  := by
  obtain ⟨-, q, hq, haddr, hne⟩ := hblock
  have hused := h.holds.owned.used_of_live (p := q) (inum_of_placeOf hq ▸ h.holds.live)
    (haddr.symm ▸ hne)
  have hlt := h.used_lt (haddr ▸ hused)
  have := h.high
  rw [h.size]
  omega

theorem blockAddr_of_le {x : Dinode} {d : Disk} (hk : ¬ k < NDIRECT) (hk' : k - NDIRECT < NINDIRECT)
    (hind : x.ind ≠ 0) :
  x.blockAddr d k = ((d x.ind.toNat).word (k - NDIRECT)).toNat
  := by
  rw [Dinode.blockAddr, dif_neg hk, if_pos ⟨hind, hk'⟩]

/-- A block in the indirect block. -/
theorem appendInner_spec
    (h : Growing st i din ino) (hind : din.ind ≠ 0) (hk : ¬ k < NDIRECT)
    (hk' : k - NDIRECT < NINDIRECT)
    (hE : FSSIZE < st.freeblock + (if din.blockAddr st.view k = 0 then 1 else 0) → E .read) :
  Wp E (appendInner din (k - NDIRECT))
    (fun r st' => ∃ ino', Appended i k (if din.blockAddr st.view k = 0 then 1 else 0) st din ino st'
        r.1 ino' ∧ IsBlock i k ino' st' r.2.1 r.2.2) st
  := by
  have hplace := placeOf_of_le (i := i) hk hk'
  have hrange := h.ind_lt hind
  have hhigh := h.high
  have hne := ne_bmapstart hrange.1
  have hblock : din.blockAddr st.view k = ((st.disk din.ind.toNat).word (k - NDIRECT)).toNat := by
    rw [blockAddr_of_le hk hk' hind, Image.view_of_ne hne]
  rw [appendInner, wp_bind, wp_rsect_of_lt (by rw [h.size]; omega)]
  by_cases hzero : (st.disk din.ind.toNat).word (k - NDIRECT) = 0
  · have hzero' : din.blockAddr st.view k = 0 := by
      rw [hblock, hzero, UInt32.toNat_zero]
    rw [if_pos hzero'] at hE ⊢
    rw [if_pos hzero, wp_bind, wp_takeBlock, wp_bind, wp_wsect_of_lt (by rw [h.size]; omega),
      wp_bind, h.toNat_freeblock.1]
    rcases Nat.lt_or_ge st.freeblock FSSIZE with hlt | hge
    · rw [wp_rsect_of_lt (by rw [h.size]; exact hlt), wp_pure]
      refine ⟨_, h.setWord hlt hind (j := ⟨k - NDIRECT, hk'⟩) hzero ?_, ?_, _, hplace, ?_,
        h.toNat_freeblock.2⟩
      · rintro ⟨hlast, -⟩
        refine ⟨?_, fun hle => by omega⟩
        intro j hj
        have hj' := hlast j hj
        by_cases hjmax : j - NDIRECT < NINDIRECT
        · rw [blockAddr_of_le (by omega) hjmax hind, Image.view_of_ne hne] at hj' ⊢
          dsimp only
          rw [update_self, Block.word_setWord_of_ne (by omega)]
          exact hj'
        · rw [Dinode.blockAddr, dif_neg (by omega), if_neg (fun hc => hjmax hc.2)]
      · rw [h.toNat_freeblock.1]
      · rw [addrAt, h.holds.copy]
        rw [if_neg (show ((st.fs i din).inode 0).ind ≠ 0 from hind)]
        change (((Image.view _) din.ind.toNat).word (k - NDIRECT)).toNat = _
        rw [Image.view_of_ne hne]
        dsimp only
        rw [update_self, Block.word_setWord_self hk']
    · rw [wp_rsect_of_le (by rw [h.size]; exact hge)]
      apply hE
      omega
  · have hne' := toNat_ne_zero.mpr hzero
    have haddr : addrAt ino st.view (.inner i ⟨k - NDIRECT, hk'⟩)
        = ((st.disk din.ind.toNat).word (k - NDIRECT)).toNat := by
      rw [← hblock, ← blockAddr_of_placeOf hplace, h.holds.copy]
      rfl
    have hdata : IsBlock i k ino st ((st.disk din.ind.toNat).word (k - NDIRECT)) _ :=
      ⟨rfl, _, hplace, haddr, hne'⟩
    rw [if_neg hzero, if_neg (hblock ▸ hne'), wp_bind, wp_rsect_of_lt (h.block_lt hdata), wp_pure]
    exact ⟨ino, .refl h, hdata⟩

section

variable (h : Growing st i din ino)
  (hE : FSSIZE < st.freeblock + din.missing st.view k → E .read)

include h hE

/-- A block below `NDIRECT`. -/
theorem appendBlock_direct (hk : k < NDIRECT) :
  Wp E (appendBlock din k)
    (fun r st' => ∃ ino', Appended i k (din.missing st.view k) st din ino st' r.1 ino' ∧
      IsBlock i k ino' st' r.2.1 r.2.2) st
  := by
  have hplace := placeOf_of_lt (i := i) hk
  have hmissing : din.missing st.view k
      = if din.addrs (Fin.castSucc ⟨k, hk⟩) = 0 then 1 else 0 := by
    rw [Dinode.missing, Dinode.blockAddr, dif_pos hk, if_pos hk, Nat.add_zero]
    simp only [← UInt32.toNat_inj, UInt32.toNat_zero]
  rw [hmissing] at hE ⊢
  rw [appendBlock, dif_pos hk]
  by_cases hzero : din.addrs (Fin.castSucc ⟨k, hk⟩) = 0
  · rw [if_pos hzero] at hE ⊢
    rw [if_pos hzero, wp_bind, wp_takeBlock, wp_bind, h.toNat_freeblock.1]
    rcases Nat.lt_or_ge st.freeblock FSSIZE with hlt | hge
    · rw [wp_rsect_of_lt (by rw [h.size]; exact hlt), wp_pure]
      refine ⟨_, h.setAddr hlt hzero ?_, ?_, _, hplace, ?_, h.toNat_freeblock.2⟩
      · -- there is no indirect block
        rintro ⟨hlast, hind⟩
        have hind' : (din.setAddr (Fin.castSucc ⟨k, hk⟩) (.ofNat st.freeblock)).ind = 0 := by
          rw [← hind hk]
          apply update_of_ne
          exact (Fin.castSucc_lt_last _).ne'
        refine ⟨?_, fun _ => hind'⟩
        intro j hj
        have hj' := hlast j hj
        rw [Dinode.blockAddr] at hj' ⊢
        split
        · rename_i hd
          rw [dif_pos hd] at hj'
          rw [← hj', Dinode.setAddr]
          congr 1
          apply update_of_ne
          intro heq
          have := congrArg Fin.val heq
          simp only [Fin.val_castSucc] at this
          omega
        · rw [if_neg (fun hne => hne.1 hind')]
      · rw [h.toNat_freeblock.1]
      · simp [addrAt, Dinode.setAddr]
    · rw [wp_rsect_of_le (by rw [h.size]; exact hge)]
      apply hE
      omega
  · have hne := toNat_ne_zero.mpr hzero
    have haddr : addrAt ino st.view (.addr i (Fin.castSucc ⟨k, hk⟩))
        = (din.addrs (Fin.castSucc ⟨k, hk⟩)).toNat := by
      rw [addrAt, h.holds.copy]
      rfl
    have hblock : IsBlock i k ino st (din.addrs (Fin.castSucc ⟨k, hk⟩)) _ :=
      ⟨rfl, _, hplace, haddr, hne⟩
    rw [if_neg hzero, if_neg hzero, wp_bind, wp_rsect_of_lt (h.block_lt hblock), wp_pure]
    exact ⟨ino, .refl h, hblock⟩

/-- A block from `NDIRECT` on. -/
theorem appendBlock_indirect (hk : ¬ k < NDIRECT) (hk' : k - NDIRECT < NINDIRECT) :
  Wp E (appendBlock din k)
    (fun r st' => ∃ ino', Appended i k (din.missing st.view k) st din ino st' r.1 ino' ∧
      IsBlock i k ino' st' r.2.1 r.2.2) st
  := by
  rw [appendBlock, dif_neg hk]
  rw [Dinode.missing, if_neg hk, Dinode.missingInd] at hE ⊢
  by_cases hind : din.ind = 0
  · have hzero : din.blockAddr st.view k = 0 := by
      rw [Dinode.blockAddr, dif_neg hk, if_neg (fun hc => hc.1 hind)]
    rw [if_pos hind, if_pos hzero] at hE ⊢
    rw [if_pos hind, wp_bind, wp_takeBlock]
    have hlow := h.low
    have hind' : (din.setAddr (Fin.last NDIRECT) (.ofNat st.freeblock)).ind
        = .ofNat st.freeblock := by
      simp only [Dinode.ind, Dinode.setAddr, update_self]
    rcases Nat.lt_or_ge st.freeblock FSSIZE with hlt | hge
    · have hne : (din.setAddr (Fin.last NDIRECT) (.ofNat st.freeblock)).ind ≠ 0 := by
        rw [hind', ← toNat_ne_zero]
        exact h.toNat_freeblock.2
      -- the new indirect block is empty
      have hempty : ∀ j, ¬ j < NDIRECT →
          (din.setAddr (Fin.last NDIRECT) (.ofNat st.freeblock)).blockAddr
            (Image.view { st with freeblock := st.freeblock + 1 }) j = 0 := by
        intro j hj
        rw [Dinode.blockAddr, dif_neg hj, hind', h.toNat_freeblock.1,
          Image.view_of_ne (ne_bmapstart hlow), h.fresh _ le_rfl, Block.word_zero,
          UInt32.toNat_zero, ite_self]
      have happ := h.setAddr hlt hind (j := k) fun _ =>
        ⟨fun j hj => hempty j (by omega), fun hle => by omega⟩
      apply (appendInner_spec happ.growing hne hk hk' ?_).mono
      · rintro r st' ⟨ino', happ', hblock⟩
        rw [if_pos (hempty k hk)] at happ'
        exact ⟨ino', happ.trans happ', hblock⟩
      · rw [if_pos (hempty k hk)]
        exact hE
    · rw [appendInner, hind', h.toNat_freeblock.1, wp_bind,
        wp_rsect_of_le (by rw [h.size]; exact hge)]
      apply hE
      omega
  · rw [if_neg hind] at hE ⊢
    rw [if_neg hind]
    apply appendInner_spec h hind hk hk' hE

theorem appendBlock_spec (hk : k < MAXFILE) :
  Wp E (appendBlock din k)
    (fun r st' => ∃ ino', Appended i k (din.missing st.view k) st din ino st' r.1 ino' ∧
      IsBlock i k ino' st' r.2.1 r.2.2) st
  := by
  by_cases hd : k < NDIRECT
  · apply appendBlock_direct h hE hd
  · apply appendBlock_indirect h hE hd
    simp only [MAXFILE] at hk
    omega

end

/-! ### The loop -/

/-- The number of blocks with the first `n` bytes of a file. -/
def blocksOf (n : Nat) : Nat :=
  (n + BSIZE - 1) / BSIZE

/-- The bytes of the inode `i` in memory from the offset `lo` to `hi` become those of `w`, and at
most `m` blocks are taken. -/
structure Filled (i : Nat) (w : Nat → UInt8) (lo hi m : Nat) (st : Image) (din : Dinode)
    (ino : Nat → Dinode) (st' : Image) (din' : Dinode) (ino' : Nat → Dinode) : Prop where
  growing : Growing st' i din' ino'
  extends_ : Extends 0 i (st.fs i din) ino (st'.fs i din') ino'
  wrote : Wrote i w lo hi st.view ino st'.view ino'
  within : Within din' st'.view (blocksOf hi)
  taken : st'.freeblock ≤ st.freeblock + m
  freeinode : st'.freeinode = st.freeinode
  bound : lo < hi → hi ≤ MAXFILE * BSIZE

theorem Growing.copy_eq (h : Growing st i din ino) :
  ino i = din
  := h.holds.copy

theorem Within.congr {x : Dinode} {d d' : Disk} (h : Within x d k)
    (hd : x.ind ≠ 0 → d' x.ind.toNat = d x.ind.toNat) :
  Within x d' k
  := by
  refine ⟨?_, h.2⟩
  intro j hj
  rw [← h.1 j hj, Dinode.blockAddr_congr hd]

theorem Within.mono {x : Dinode} {d : Disk} {k' : Nat} (h : Within x d k) (hk : k ≤ k') :
  Within x d k'
  := ⟨fun j hj => h.1 j (hk.trans hj), fun hle => h.2 (hk.trans hle)⟩

/-- One step of the loop writes `m` bytes into a block. -/
theorem Appended.write
    {st₁ : Image} {din₁ : Dinode} {ino₁ : Nat → Dinode} {x : UInt32} {buf : Block} {off m n : Nat}
    (happ : Appended i (off / BSIZE) n st din ino st₁ din₁ ino₁) (h : Growing st i din ino)
    (hblock : IsBlock i (off / BSIZE) ino₁ st₁ x buf) (hw : Within din st.view (blocksOf off))
    (w : Nat → UInt8) (hm : 0 < m) (hm' : off % BSIZE + m ≤ BSIZE) (hk : off / BSIZE < MAXFILE) :
  Filled i w off (off + m) n st din ino
    { st₁ with
      disk := update st₁.disk x.toNat
        (buf.copyIn (off % BSIZE) m fun k => w (off + k)) } din₁ ino₁
  := by
  obtain ⟨rfl, q, hq, haddr, hne⟩ := hblock
  have hqi := inum_of_placeOf hq
  have hne' : addrAt ino₁ (st₁.fs i din₁).disk q ≠ 0 := haddr.symm ▸ hne
  have hlive := happ.growing.holds.live
  have hused := happ.growing.holds.owned.used_of_live (hqi ▸ hlive) hne'
  have hrange := happ.growing.used_lt (haddr ▸ hused)
  have hwrite := Extends.writeData happ.growing.holds hqi hne' (placeOf_ne_indirect hq)
    fun a => a.copyIn (off % BSIZE) m fun k => w (off + k)
  have hwrote := happ.extends_.wrote_copyIn happ.data h.holds.live hq hne' hm' w
  have haddr' : addrAt ino₁ (st₁.fs i din₁).disk q = x.toNat := haddr
  rw [haddr', Image.fs_write hrange.1] at hwrite hwrote
  have hlast : blocksOf (off + m) = off / BSIZE + 1 := by
    rw [blocksOf]
    simp only [BSIZE] at hm' ⊢
    omega
  constructor
  · refine ⟨happ.growing.size, happ.growing.high, ?_, hwrite.holds⟩
    intro b hb
    dsimp only at hb ⊢
    rw [update_of_ne (by omega)]
    apply happ.growing.fresh b hb
  · exact happ.extends_.trans hwrite
  · exact hwrote
  · rw [hlast]
    apply (happ.within (hw.mono _)).congr
    · intro hind
      have hind' := (happ.growing.ind_lt hind).1
      rw [Image.view_of_ne (ne_bmapstart hind'), Image.view_of_ne (ne_bmapstart hind')]
      apply update_of_ne
      have hdiff := happ.growing.holds.owned.addrAt_ne_ind (hqi ▸ hlive) hlive hne'
        (hqi ▸ placeOf_ne_indirect hq)
      rw [haddr', happ.growing.copy_eq] at hdiff
      exact hdiff.symm
    · rw [blocksOf]
      simp only [BSIZE]
      omega
  · exact happ.taken
  · exact happ.freeinode
  · intro _
    simp only [MAXFILE, BSIZE] at hk hm' ⊢
    omega

/-- The blocks that are missing after one step of the loop. -/
theorem Filled.missingIn_le
    {st₁ : Image} {din₁ : Dinode} {ino₁ : Nat → Dinode} {w : Nat → UInt8} {off m hi : Nat}
    (hstep : Filled i w off (off + m) (din.missing st.view (off / BSIZE)) st din ino st₁ din₁ ino₁)
    (h : Growing st i din ino) (hm : 0 < m) (hm' : off % BSIZE + m ≤ BSIZE)
    (hlast : off / BSIZE < hi) :
  st₁.freeblock + din₁.missingIn st₁.view ((off + m) / BSIZE) hi
    ≤ st.freeblock + din.missingIn st.view (off / BSIZE) hi
  := by
  have hmapped : (ino₁ i).blockAddr st₁.view (off / BSIZE) ≠ 0 :=
    hstep.wrote.mapped off le_rfl (by omega)
  have hmissing := hstep.extends_.missingIn_le h.holds.live hlast hmapped
  rw [h.copy_eq, hstep.growing.copy_eq] at hmissing
  rw [hstep.growing.copy_eq] at hmapped
  change din.missing st.view _ + din₁.missingIn st₁.view _ _ ≤ din.missingIn st.view _ _ at hmissing
  have htaken := hstep.taken
  -- the next block follows, or this one is not full
  have hnext : (off + m) / BSIZE = off / BSIZE + 1 ∨ (off + m) / BSIZE = off / BSIZE := by
    simp only [BSIZE] at hm' ⊢
    omega
  obtain hnext | hnext := hnext
  · rw [hnext]
    omega
  · rw [hnext, Dinode.missingIn_succ hlast hmapped]
    omega

/-- Two parts of the loop. -/
theorem Filled.trans
    {st₁ : Image} {din₁ : Dinode} {ino₁ : Nat → Dinode} {w : Nat → UInt8} {lo mid hi m m₁ n : Nat}
    (h : Filled i w lo mid m st din ino st₁ din₁ ino₁) {din' : Dinode} {ino' : Nat → Dinode}
    (h' : Filled i w mid hi m₁ st₁ din₁ ino₁ st' din' ino') (hlive : Live mapSb ino i)
    (hlo : lo ≤ mid) (hhi : mid ≤ hi) (hn : st₁.freeblock + m₁ ≤ st.freeblock + n) :
  Filled i w lo hi n st din ino st' din' ino'
  := by
  constructor
  · exact h'.growing
  · exact h.extends_.trans h'.extends_
  · exact Wrote.trans h.wrote h'.wrote h.extends_ h'.extends_ hlive hlo hhi
  · exact h'.within
  · exact h'.taken.trans hn
  · rw [h'.freeinode, h.freeinode]
  · intro hlt
    obtain rfl | hmid := Nat.eq_or_lt_of_le hhi
    · exact h.bound hlt
    · exact h'.bound hmid

/-- The loop with nothing to write. -/
theorem Filled.done
    (h : Growing st i din ino) {w : Nat → UInt8} {off m : Nat}
    (hw : Within din st.view (blocksOf off)) :
  Filled i w off off m st din ino st din ino
  := by
  constructor
  · exact h
  · exact .refl h.holds
  · exact .empty _ _
  · exact hw
  · omega
  · rfl
  · intro hlt
    omega

/-- The loop of `iappend`. -/
theorem appendLoop_spec
    {fuel off : Nat} {p : List UInt8} (h : Growing st i din ino)
    (hw : Within din st.view (blocksOf off)) (hfuel : p.length ≤ fuel)
    (hread : FSSIZE < st.freeblock
      + din.missingIn st.view (off / BSIZE) (blocksOf (off + p.length)) → E .read)
    (hmax : MAXFILE * BSIZE < off + p.length → E .maxfile) :
  Wp E (appendLoop fuel din off p)
    (fun r st' => r.2 = off + p.length ∧
      ∃ ino', Filled i (fun o => p.getD (o - off) 0) off (off + p.length)
        (din.missingIn st.view (off / BSIZE) (blocksOf (off + p.length))) st din ino st' r.1
        ino') st
  := by
  induction fuel generalizing st din ino off p with
  | zero =>
    have hzero : p.length = 0 := by
      omega
    rw [hzero]
    exact ⟨rfl, ino, .done h hw⟩
  | succ fuel ih =>
    rw [appendLoop]
    split
    · rename_i hpos
      have hmod : off % BSIZE < BSIZE := Nat.mod_lt _ (by decide)
      have hdiv := Nat.div_add_mod' off BSIZE
      dsimp only
      split
      · rename_i hk
        have hlast : off / BSIZE < blocksOf (off + p.length) := by
          rw [blocksOf]
          simp only [BSIZE]
          omega
        obtain ⟨m, hm⟩ : ∃ m, m = min p.length ((off / BSIZE + 1) * BSIZE - off) := ⟨_, rfl⟩
        have hchunk : 0 < m ∧ m ≤ p.length ∧ off % BSIZE + m ≤ BSIZE := by
          rw [Nat.succ_mul] at hm
          omega
        have hoff : off - off / BSIZE * BSIZE = off % BSIZE := by
          omega
        rw [wp_bind, ← hm]
        apply (appendBlock_spec h ?_ hk).mono
        · rintro ⟨din₁, x, buf⟩ st₁ ⟨ino₁, happ, hblock⟩
          dsimp only at happ hblock ⊢
          have hstep := happ.write h hblock hw (fun o => p.getD (o - off) 0) hchunk.1 hchunk.2.2 hk
          simp only [Nat.add_sub_cancel_left] at hstep
          have hmissing := hstep.missingIn_le h hchunk.1 hchunk.2.2 hlast
          have hlen : off + m + (p.drop m).length = off + p.length := by
            rw [List.length_drop]
            omega
          rw [wp_bind, hoff, wp_wsect_of_lt (happ.growing.block_lt hblock)]
          apply (ih hstep.growing hstep.within ?_ ?_ ?_).mono
          · rintro r st' ⟨hr, ino', hrest⟩
            rw [hlen] at hr hrest
            refine ⟨hr, ino', hstep.trans ?_ h.holds.live (by omega) (by omega) hmissing⟩
            have hbyte : ∀ o, off + m ≤ o →
                (p.drop m).getD (o - (off + m)) 0 = p.getD (o - off) 0 := by
              intro o ho
              simp only [List.getD_eq_getElem?_getD, List.getElem?_drop]
              congr 2
              omega
            exact { hrest with wrote := hrest.wrote.congr hbyte }
          · rw [List.length_drop]
            omega
          · rw [hlen]
            intro hlt
            apply hread
            exact hlt.trans_le hmissing
          · rw [hlen]
            exact hmax
        · intro hlt
          apply hread
          have := Dinode.missing_le (x := din) (d := st.view) hlast
          omega
      · rename_i hk
        apply hmax
        simp only [MAXFILE, BSIZE] at hk ⊢
        omega
    · have hzero : p.length = 0 := by
        omega
      rw [hzero]
      exact ⟨rfl, ino, .done h hw⟩

end Xv6.Mkfs
