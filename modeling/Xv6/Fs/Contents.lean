import Mathlib.Algebra.BigOperators.Intervals
import Mathlib.Algebra.Order.BigOperators.Group.Finset
import Xv6.Fs.BlockRuns

/-!
# The contents of a file

A file is the sequence of the bytes in the blocks of its inode, up to its size.  The loops of
`readi` and `writei` split a range of offsets at the ends of blocks; the result is that of a copy
from or to this sequence.
-/

namespace Xv6.Fs

/-- The byte at the offset `o` of an inode.  A block without an address is read as zeros. -/
def Dinode.byteAt (x : Dinode) (d : Disk) (o : Nat) : UInt8 :=
  if x.blockAddr d (o / BSIZE) = 0 then 0 else (d (x.blockAddr d (o / BSIZE))).byte (o % BSIZE)

/-- The contents of an inode. -/
def Dinode.contents (x : Dinode) (d : Disk) : List UInt8 :=
  (List.range x.size.toNat).map (x.byteAt d)

/-- The number of blocks that an inode lacks for the blocks from `lo` to `hi`. -/
def Dinode.missingIn (x : Dinode) (d : Disk) (lo hi : Nat) : Nat :=
  (∑ k ∈ Finset.Ico lo hi, if x.blockAddr d k = 0 then 1 else 0)
    + if NDIRECT < hi then x.missingInd else 0

variable {s s' : FileSys} {ip : Slot} {ino ino' : Nat → Dinode} {i : Nat}

/-! ### What happens to the bytes -/

namespace Extends

variable (h : Extends ip i s ino s' ino')

include h

theorem blockAddr (hi : Live s.sb ino i) {k : Nat} (hk : (ino i).blockAddr s.disk k ≠ 0) :
  (ino' i).blockAddr s'.disk k = (ino i).blockAddr s.disk k
  := by
  obtain ⟨p, hp, hne⟩ := mapped_iff.mpr hk
  rw [blockAddr_of_placeOf hp, blockAddr_of_placeOf hp]
  apply h.addr p _ hne
  rw [inum_of_placeOf hp]
  apply hi

theorem mapped (hi : Live s.sb ino i) {k : Nat} (hk : (ino i).blockAddr s.disk k ≠ 0) :
  (ino' i).blockAddr s'.disk k ≠ 0
  := by
  rw [h.blockAddr hi hk]
  apply hk

theorem missingInd_le (hi : Live s.sb ino i) :
  (ino' i).missingInd ≤ (ino i).missingInd
  := by
  unfold Dinode.missingInd
  split
  · rename_i hzero
    rw [if_pos]
    by_contra hne
    have hmono := h.mono (p := .indirect i) hi (addrAt_indirect hne)
    simp only [addrAt, Place.indirect] at hmono
    apply hmono
    rw [← Dinode.ind, hzero, UInt32.toNat_zero]
  · apply Nat.zero_le

/-- The blocks of another inode. -/
theorem blockAddr_of_ne {j : Nat} (hj : Live s.sb ino j) (hne : j ≠ i) (k : Nat) :
  (ino' j).blockAddr s'.disk k = (ino j).blockAddr s.disk k
  := by
  rw [h.other j hne]
  apply Dinode.blockAddr_congr
  intro hind
  apply h.foreign (.indirect j) hj (addrAt_indirect hind) hne

/-- The bytes of another inode. -/
theorem byteAt_of_ne {j : Nat} (hj : Live s.sb ino j) (hne : j ≠ i) (o : Nat) :
  (ino' j).byteAt s'.disk o = (ino j).byteAt s.disk o
  := by
  unfold Dinode.byteAt
  rw [h.blockAddr_of_ne hj hne]
  split
  · rfl
  · rename_i hk
    obtain ⟨p, hp, hp0⟩ := mapped_iff.mpr hk
    have hinum := inum_of_placeOf hp
    rw [blockAddr_of_placeOf hp, h.foreign p (hinum ▸ hj) hp0 (hinum ▸ hne)]

end Extends

/-- `bmap` keeps the bytes. -/
theorem KeepsData.byteAt
    (h : KeepsData i s ino s') (hext : Extends ip i s ino s' ino') (hi : Live s.sb ino i) {o : Nat}
    (ho : (ino i).blockAddr s.disk (o / BSIZE) ≠ 0) :
  (ino' i).byteAt s'.disk o = (ino i).byteAt s.disk o
  := by
  rw [Dinode.byteAt, Dinode.byteAt, hext.blockAddr hi ho, if_neg ho, if_neg ho]
  obtain ⟨p, hp, hne⟩ := mapped_iff.mpr ho
  have hinum := inum_of_placeOf hp
  have hpi : p ≠ .indirect i := hinum ▸ placeOf_ne_indirect hp
  rw [blockAddr_of_placeOf hp, h p (hinum ▸ hi) hne hpi]

/-- The bytes of the inode `i` from the offset `lo` to `hi` are those of `w` in the new state, and
the others are as before. -/
structure Wrote (i : Nat) (w : Nat → UInt8) (lo hi : Nat) (d : Disk) (ino : Nat → Dinode)
    (d' : Disk) (ino' : Nat → Dinode) : Prop where
  kept : ∀ o, (ino i).blockAddr d (o / BSIZE) ≠ 0 → ¬ (lo ≤ o ∧ o < hi) →
    (ino' i).byteAt d' o = (ino i).byteAt d o
  mapped : ∀ o, lo ≤ o → o < hi → (ino' i).blockAddr d' (o / BSIZE) ≠ 0
  written : ∀ o, lo ≤ o → o < hi → (ino' i).byteAt d' o = w o

namespace Wrote

variable {w : Nat → UInt8} {lo mid hi : Nat} {d : Disk} {s'' : FileSys} {ino'' : Nat → Dinode}

theorem empty (d : Disk) (ino : Nat → Dinode) :
  Wrote i w lo lo d ino d ino
  := by
  constructor
  · intro _ _ _
    rfl
  · intro o ho ho'
    omega
  · intro o ho ho'
    omega

theorem congr
    {d' : Disk} {w' : Nat → UInt8} (h : Wrote i w lo hi d ino d' ino')
    (hw : ∀ o, lo ≤ o → w o = w' o) :
  Wrote i w' lo hi d ino d' ino'
  := by
  constructor
  · exact h.kept
  · exact h.mapped
  · intro o ho ho'
    rw [h.written o ho ho', hw o ho]

theorem trans
    (h : Wrote i w lo mid s.disk ino s'.disk ino')
    (h' : Wrote i w mid hi s'.disk ino' s''.disk ino'') (hext : Extends ip i s ino s' ino')
    (hext' : Extends ip i s' ino' s'' ino'') (hlive : Live s.sb ino i) (hlo : lo ≤ mid)
    (hhi : mid ≤ hi) :
  Wrote i w lo hi s.disk ino s''.disk ino''
  := by
  constructor
  · intro o ho hout
    rw [h'.kept o (hext.mapped hlive ho) (by omega), h.kept o ho (by omega)]
  · intro o ho ho'
    by_cases hmid : o < mid
    · apply hext'.mapped (hext.live hlive) (h.mapped o ho hmid)
    · apply h'.mapped o (by omega) ho'
  · intro o ho ho'
    by_cases hmid : o < mid
    · rw [h'.kept o (h.mapped o ho hmid) (by omega)]
      apply h.written o ho hmid
    · apply h'.written o (by omega) ho'

end Wrote

/-! ### The loop of `writei` -/

/-- The bytes after a change of the block `k`. -/
theorem Holds.byteAt_modifyBlock
    (h : Holds s ip ino i) {p : Place} {k : Nat} (hp : p ∈ placeOf i k)
    (hne : addrAt ino s.disk p ≠ 0) (f : Block → Block) {o : Nat}
    (ho : (ino i).blockAddr s.disk (o / BSIZE) ≠ 0) :
  (ino i).byteAt (s.modifyBlock (addrAt ino s.disk p) f).disk o
    = if o / BSIZE = k then (f (s.disk (addrAt ino s.disk p))).byte (o % BSIZE)
      else (ino i).byteAt s.disk o
  := by
  have hpi := inum_of_placeOf hp
  have hwrite := Extends.writeData h hpi hne (placeOf_ne_indirect hp) f
  rw [Dinode.byteAt, hwrite.blockAddr h.live ho, if_neg ho]
  obtain ⟨q, hq, hq0⟩ := mapped_iff.mpr ho
  have hqi := inum_of_placeOf hq
  rw [blockAddr_of_placeOf hq]
  simp only [FileSys.modifyBlock]
  split
  · rename_i hk
    rw [hk, hp] at hq
    obtain rfl := Option.some.inj hq
    rw [Function.update_self]
  · rename_i hk
    rw [Function.update_of_ne, Dinode.byteAt, if_neg ho, blockAddr_of_placeOf hq]
    intro heq
    obtain rfl := h.owned.place_eq (hqi ▸ h.live) (hpi ▸ h.live) hq0 heq
    apply hk
    rw [← block_of_placeOf hq, block_of_placeOf hp]

/-- The bytes when the block with the offset `off` gets `m` bytes, after `bmap`. -/
theorem Extends.wrote_copyIn
    {off m : Nat} (hext : Extends ip i s ino s' ino') (hdata : KeepsData i s ino s')
    (hlive : Live s.sb ino i) {p : Place} (hp : p ∈ placeOf i (off / BSIZE))
    (hne : addrAt ino' s'.disk p ≠ 0) (hm : off % BSIZE + m ≤ BSIZE) (w : Nat → UInt8) :
  Wrote i w off (off + m) s.disk ino
    (s'.modifyBlock (addrAt ino' s'.disk p) fun a =>
      a.copyIn (off % BSIZE) m fun k => w (off + k)).disk ino'
  := by
  have hpi := inum_of_placeOf hp
  have hwrite := Extends.writeData hext.holds hpi hne (placeOf_ne_indirect hp)
  have hblock : ∀ o, off ≤ o → o < off + m → o / BSIZE = off / BSIZE := by
    intro o ho ho'
    simp only [BSIZE] at hm ⊢
    omega
  have hmapped : (ino' i).blockAddr s'.disk (off / BSIZE) ≠ 0 := by
    rw [blockAddr_of_placeOf hp]
    apply hne
  constructor
  · intro o ho hout
    have ho' := hext.mapped hlive ho
    rw [← hdata.byteAt hext hlive ho, hext.holds.byteAt_modifyBlock hp hne _ ho']
    split
    · rename_i hk
      rw [Block.byte_copyIn hm, if_neg, Dinode.byteAt, if_neg ho', hk, blockAddr_of_placeOf hp]
      simp only [BSIZE] at hk ⊢
      omega
    · rfl
  · intro o ho ho'
    rw [hblock o ho ho']
    apply (hwrite _).mapped hext.holds.live hmapped
  · intro o ho ho'
    have hk := hblock o ho ho'
    rw [hext.holds.byteAt_modifyBlock hp hne _ (hk ▸ hmapped), if_pos hk,
      Block.byte_copyIn hm, if_pos]
    · congr 1
      simp only [BSIZE] at hk ⊢
      omega
    · simp only [BSIZE] at hk ⊢
      omega

/-- The number of bytes that a step of the loop transfers. -/
def Transfer.chunk (t : Transfer) : Nat :=
  min (t.n - t.tot) (BSIZE - t.off % BSIZE)

/-- The variables after a step of the loop. -/
def Transfer.next (t : Transfer) : Transfer :=
  { t with off := t.off + t.chunk, tot := t.tot + t.chunk }

/-- The byte of the data for an offset. -/
def Transfer.byteFor (t : Transfer) (src : Nat → UInt8) (o : Nat) : UInt8 :=
  src (t.tot + (o - t.off))

/-- A step of the loop of `writei`. -/
theorem Transfer.step_writes
    (h : Holds s ip ino i) {t : Transfer} {src : Nat → UInt8} (hsrc : t.src = some src)
    (ht : t.off / BSIZE < MAXFILE) :
  Wp (fun f => f = .outOfBlocks ∧ s.free < (ino i).missing s.disk (t.off / BSIZE)) (t.step ip)
    (fun t' s' => t' = t.next ∧ s'.free + (ino i).missing s.disk (t.off / BSIZE) = s.free ∧
      ∃ ino', Extends ip i s ino s' ino' ∧
        Wrote i (t.byteFor src) t.off (t.off + t.chunk) s.disk ino s'.disk ino') s
  := by
  simp only [step, wp_bind, hsrc]
  apply (bmap_spec h ht).mono
  rintro addr s₁ ⟨⟨ino₁, hext, p, hp, haddr, hne⟩, -, hdata, hfree⟩
  simp only [wp_modify, wp_pure]
  rw [← haddr] at hne ⊢
  rw [← chunk]
  have hpi := inum_of_placeOf hp
  have hwrite := Extends.writeData hext.holds hpi hne (placeOf_ne_indirect hp)
  have hused := hext.holds.owned.used_of_live (hpi ▸ hext.holds.live) hne
  have hchunk : t.off % BSIZE + t.chunk ≤ BSIZE := by
    have : t.off % BSIZE < BSIZE := Nat.mod_lt _ (by decide)
    rw [chunk]
    omega
  refine ⟨by rw [next, hsrc], ?_, ino₁, hext.trans (hwrite _), ?_⟩
  · rw [FileSys.free_modifyBlock hext.holds.wf hused.1.1, hfree]
  · have hwrote := hext.wrote_copyIn hdata h.live hp hne hchunk (t.byteFor src)
    simpa only [byteFor, Nat.add_sub_cancel_left] using hwrote

/-- The block after the last block of a transfer. -/
def Transfer.lastBlock (t : Transfer) : Nat :=
  (t.off + (t.n - t.tot) + BSIZE - 1) / BSIZE

theorem Dinode.missing_le {x : Dinode} {d : Disk} {k hi : Nat} (hk : k < hi) :
  x.missing d k ≤ x.missingIn d k hi
  := by
  rw [missing, missingIn, Finset.sum_eq_sum_Ico_succ_bot hk]
  by_cases hd : k < NDIRECT
  · rw [if_pos hd]
    omega
  · have hhi : NDIRECT < hi := by
      omega
    rw [if_neg hd, if_pos hhi]
    omega

/-- A block with an address is not missing. -/
theorem Dinode.missingIn_succ
    {x : Dinode} {d : Disk} {k hi : Nat} (hk : k < hi) (hmapped : x.blockAddr d k ≠ 0) :
  x.missingIn d k hi = x.missingIn d (k + 1) hi
  := by
  rw [missingIn, missingIn, Finset.sum_eq_sum_Ico_succ_bot hk, if_neg hmapped, Nat.zero_add]

/-- The blocks that are missing after `bmap` of the block `k`. -/
theorem Extends.missingIn_le
    (h : Extends ip i s ino s' ino') (hi : Live s.sb ino i) {k hi : Nat} (hk : k < hi)
    (hmapped : (ino' i).blockAddr s'.disk k ≠ 0) :
  (ino i).missing s.disk k + (ino' i).missingIn s'.disk (k + 1) hi ≤ (ino i).missingIn s.disk k hi
  := by
  have hsum : (∑ j ∈ Finset.Ico (k + 1) hi, if (ino' i).blockAddr s'.disk j = 0 then 1 else 0)
      ≤ ∑ j ∈ Finset.Ico (k + 1) hi, if (ino i).blockAddr s.disk j = 0 then 1 else 0 := by
    apply Finset.sum_le_sum
    intro j _
    split
    · rename_i hzero
      rw [if_pos]
      by_contra hne
      apply hne
      rw [← h.blockAddr ‹_› hne, hzero]
    · apply Nat.zero_le
  have hind := h.missingInd_le ‹_›
  rw [Dinode.missingIn, Dinode.missingIn, Dinode.missing, Finset.sum_eq_sum_Ico_succ_bot hk]
  by_cases hd : k < NDIRECT
  · rw [if_pos hd]
    by_cases hhi : NDIRECT < hi
    · rw [if_pos hhi, if_pos hhi]
      omega
    · rw [if_neg hhi, if_neg hhi]
      omega
  · -- the indirect block is there
    have hzero : (ino' i).missingInd = 0 := by
      apply if_neg
      intro hzero
      simp [Dinode.blockAddr, hd, hzero] at hmapped
    have hhi : NDIRECT < hi := by
      omega
    rw [if_neg hd, if_pos hhi, if_pos hhi, hzero]
    omega

/-- The loop of `writei` when there is nothing to write. -/
theorem Transfer.loop_done
    {src : Nat → UInt8} {E : Fault → Prop} {t : Transfer} (h : Holds s ip ino i)
    (hdone : t.tot = t.n) :
  Wp E (pure t : FsM Transfer)
    (fun t' s' => t' = { t with off := t.off + (t.n - t.tot), tot := t.n } ∧
      ∃ ino', Extends ip i s ino s' ino' ∧
        Wrote i (t.byteFor src) t.off (t.off + (t.n - t.tot)) s.disk ino s'.disk ino') s
  := by
  obtain ⟨_, _, n, _⟩ := t
  cases hdone
  rw [wp_pure, Nat.sub_self, Nat.add_zero]
  exact ⟨rfl, ino, .refl h, .empty _ _⟩

/-- The loop of `writei`. -/
theorem Transfer.loop_writes
    {src : Nat → UInt8} {fuel : Nat} {t : Transfer} (h : Holds s ip ino i)
    (hsrc : t.src = some src) (hbound : t.off + (t.n - t.tot) ≤ MAXFILE * BSIZE)
    (htot : t.tot ≤ t.n) (hfuel : t.n - t.tot ≤ fuel) :
  Wp (fun f => f = .outOfBlocks ∧
      s.free < (ino i).missingIn s.disk (t.off / BSIZE) t.lastBlock) (t.loop ip fuel)
    (fun t' s' => t' = { t with off := t.off + (t.n - t.tot), tot := t.n } ∧
      ∃ ino', Extends ip i s ino s' ino' ∧
        Wrote i (t.byteFor src) t.off (t.off + (t.n - t.tot)) s.disk ino s'.disk ino') s
  := by
  induction fuel generalizing s ino t with
  | zero => apply loop_done h (by omega)
  | succ fuel ih =>
    rw [loop]
    split
    · rename_i hlt
      have hmod : t.off % BSIZE < BSIZE := Nat.mod_lt _ (by decide)
      have hchunk : 0 < t.chunk ∧ t.chunk ≤ t.n - t.tot := by
        rw [chunk]
        omega
      have hblock : t.off / BSIZE < t.lastBlock := by
        rw [lastBlock]
        simp only [BSIZE]
        omega
      have hmax : t.off / BSIZE < MAXFILE := by
        rw [Nat.div_lt_iff_lt_mul (by decide)]
        omega
      apply ((step_writes h hsrc hmax).fail ?_).bind
      · rintro t' s₁ ⟨rfl, hfree, ino₁, hext, hwrote⟩
        have hmapped : (ino₁ i).blockAddr s₁.disk (t.off / BSIZE) ≠ 0 :=
          hwrote.mapped t.off le_rfl (by omega)
        have hmissing := hext.missingIn_le h.live hblock hmapped
        have hrest : t.next.off + (t.next.n - t.next.tot) = t.off + (t.n - t.tot) := by
          simp only [next]
          omega
        have hloop := ih (t := t.next) hext.holds hsrc (hrest ▸ hbound)
          (by simp only [next]; omega) (by simp only [next]; omega)
        apply (hloop.fail ?_).mono
        · rintro t' s' ⟨rfl, ino', hext', hwrote'⟩
          rw [hrest] at hwrote'
          refine ⟨by simp only [hrest]; rfl, ino', hext.trans hext', ?_⟩
          have hbyte : ∀ o, t.next.off ≤ o → t.next.byteFor src o = t.byteFor src o := by
            intro o ho
            simp only [next] at ho
            simp only [byteFor, next]
            congr 1
            omega
          apply hwrote.trans (hwrote'.congr hbyte) hext hext' h.live (by omega) (by omega)
        · rintro f ⟨hf, hlt'⟩
          refine ⟨hf, ?_⟩
          have hlast : t.next.lastBlock = t.lastBlock := by
            rw [lastBlock, lastBlock, hrest]
          rw [hlast] at hlt'
          -- the next block follows, or the last one is not full
          have hnext : t.next.off / BSIZE = t.off / BSIZE + 1 ∨
              t.next.off / BSIZE = t.off / BSIZE := by
            simp only [next, chunk, BSIZE]
            omega
          obtain hnext | hnext := hnext
          · rw [hnext] at hlt'
            omega
          · rw [hnext, Dinode.missingIn_succ hblock hmapped] at hlt'
            omega
      · rintro f ⟨hf, hlt'⟩
        exact ⟨hf, hlt'.trans_le (Dinode.missing_le hblock)⟩
    · apply loop_done h (by omega)

/-! ### `writei` -/

/-- The list `l` with the elements from the index `off` on replaced by `l'`, or appended. -/
def splice {α : Type} (l : List α) (off : Nat) (l' : List α) : List α :=
  l.take off ++ l' ++ l.drop (off + l'.length)

theorem Dinode.contents_eq_splice
    {x x' : Dinode} {d d' : Disk} {off n : Nat} {src : Nat → UInt8} (hoff : off ≤ x.size.toNat)
    (hsize : x'.size.toNat = max x.size.toNat (off + n))
    (hbyte : ∀ o < x'.size.toNat,
      x'.byteAt d' o = if off ≤ o ∧ o < off + n then src (o - off) else x.byteAt d o) :
  x'.contents d' = splice (x.contents d) off ((List.range n).map src)
  := by
  apply List.ext_getElem
  · simp [contents, splice]
    omega
  · intro o ho _
    have ho' : o < x'.size.toNat := by
      simpa [contents] using ho
    simp only [contents, splice, List.getElem_map, List.getElem_range, hbyte o ho',
      List.getElem_append, List.length_append, List.length_take, List.length_map,
      List.length_range, Nat.min_eq_left hoff, List.getElem_take, List.getElem_drop]
    by_cases hlt : o < off
    · rw [dif_pos (by omega), dif_pos hlt, if_neg (by omega)]
    · by_cases hlt' : o < off + n
      · rw [dif_pos hlt', dif_neg hlt, if_pos (by omega)]
      · rw [dif_neg hlt', if_neg (by omega)]
        congr 1
        omega

/-- The bytes of an inode depend on the data blocks. -/
theorem Owned.byteAt_of_data
    {sb : Superblock} {d d' : Disk} (h : Owned sb ino d) (hi : Live sb ino i)
    (hd : ∀ k, sb.datastart ≤ k → d' k = d k) (o : Nat) :
  (ino i).byteAt d' o = (ino i).byteAt d o
  := by
  unfold Dinode.byteAt
  rw [Dinode.blockAddr_congr fun hind => hd _ (h.ind_used hi hind).1.1]
  split
  · rfl
  · rename_i hk
    obtain ⟨p, hp, hne⟩ := mapped_iff.mpr hk
    have hused := h.used_of_live (inum_of_placeOf hp ▸ hi) hne
    rw [blockAddr_of_placeOf hp, hd _ hused.1.1]

/-- The first `n` bytes of `src` are written to the inode in the entry `ip` at the offset `off`;
nothing else changes that another inode sees. -/
structure Written (ip : Slot) (i : Nat) (src : Nat → UInt8) (off n : Nat) (s : FileSys)
    (ino : Nat → Dinode) (s' : FileSys) (ino' : Nat → Dinode) : Prop where
  holds : Holds s' ip ino' i
  sb : s'.sb = s.sb
  entry : s'.inode ip
    = { s.inode ip with addrs := (s'.inode ip).addrs, size := (s'.inode ip).size }
  others : ∀ k, k ≠ ip → s'.inode k = s.inode k
  dinodes : ∀ j < s.sb.ninodes.toNat, j ≠ i → dinode s.sb s'.disk j = dinode s.sb s.disk j
  other : ∀ j, j ≠ i → ino' j = ino j
  foreign : ∀ j, j ≠ i → Live s.sb ino j → ∀ o, (ino j).byteAt s'.disk o = (ino j).byteAt s.disk o
  size : (ino' i).size.toNat = max (ino i).size.toNat (off + n)
  contents : (ino' i).contents s'.disk
    = splice ((ino i).contents s.disk) off ((List.range n).map src)

/-- The blocks of the file have addresses. -/
theorem Holds.mapped_of_lt
    (h : Holds s ip ino i) {k : Nat} (hk : k * BSIZE < (ino i).size.toNat) :
  (ino i).blockAddr s.disk k ≠ 0
  := mapped_iff.mp (h.owned.noHole i h.live k hk)

/-- The bytes of the file after the loop of `writei`. -/
theorem Wrote.byteAt
    {off n : Nat} {d' : Disk} (src : Nat → UInt8)
    (h : Wrote i (fun o => src (o - off)) off (off + n) s.disk ino d' ino')
    (hs : Holds s ip ino i) (hoff : off ≤ (ino i).size.toNat) {o : Nat}
    (ho : o < max (ino i).size.toNat (off + n)) :
  (ino' i).byteAt d' o = if off ≤ o ∧ o < off + n then src (o - off) else (ino i).byteAt s.disk o
  := by
  split
  · rename_i hin
    apply h.written o hin.1 hin.2
  · rename_i hout
    apply h.kept o _ hout
    apply hs.mapped_of_lt
    have := Nat.div_mul_le_self o BSIZE
    omega

/-- The blocks of the file after the loop of `writei` have addresses. -/
theorem Wrote.mapped_of_lt
    {w : Nat → UInt8} {off n : Nat} (h : Wrote i w off (off + n) s.disk ino s'.disk ino')
    (hext : Extends ip i s ino s' ino') (hs : Holds s ip ino i)
    (hoff : off ≤ (ino i).size.toNat) {k : Nat} (hk : k * BSIZE < off + n) :
  (ino' i).blockAddr s'.disk k ≠ 0
  := by
  by_cases hlt : k * BSIZE < (ino i).size.toNat
  · apply hext.mapped hs.live (hs.mapped_of_lt hlt)
  · have hne := h.mapped (k * BSIZE) (by omega) hk
    rw [Nat.mul_div_cancel _ (by decide)] at hne
    apply hne

/-- The state when an inode of the cache gets the size `n` and is copied to the disk. -/
def FileSys.resize (s : FileSys) (ip : Slot) (n : UInt32) : FileSys :=
  { s.modifyInode ip fun x => { x with size := n } with
    disk := setDinode s.sb s.disk (s.inode ip).inum.toNat { (s.inode ip).toDinode with size := n } }

/-- The size grows over blocks that have addresses. -/
theorem Holds.resize
    (h : Holds s ip ino i) (hinum : (s.inode ip).inum.toNat = i) {n : UInt32}
    (hn : ∀ k, k * BSIZE < n.toNat → (ino i).blockAddr s.disk k ≠ 0) :
  Holds (s.resize ip n) ip (Function.update ino i { ino i with size := n }) i
  := by
  constructor
  · apply h.wf
  · apply Owned.setDinode _ h.wf (hinum ▸ h.live.1)
    apply h.owned.setSize
    intro k hk
    apply mapped_iff.mpr (hn k hk)
  · apply (live_update _ _).mpr h.live
    rfl
  · rw [Function.update_self, h.copy]
    simp [FileSys.resize]

/-- The end of `writei`. -/
theorem Transfer.finish_writes
    {src : Nat → UInt8} {off n : Nat} (h : Holds s ip ino i)
    (hinum : (s.inode ip).inum.toNat = i) (hext : Extends ip i s ino s' ino')
    (hwrote : Wrote i (fun o => src (o - off)) off (off + n) s.disk ino s'.disk ino')
    (hoff : off ≤ (ino i).size.toNat) (hbound : off + n ≤ MAXFILE * BSIZE) :
  Wp (fun _ => False) (finish ⟨some src, off + n, n, n⟩ ip)
    (fun _ s'' => ∃ ino'', Written ip i src off n s ino s'' ino'') s'
  := by
  have hsize : (s'.inode ip).size = (ino i).size := by
    rw [hext.grown.self, h.copy]
  have hdinodes : ∀ j < s.sb.ninodes.toNat, dinode s.sb s'.disk j = dinode s.sb s.disk j := by
    intro j hj
    apply h.wf.dinode_congr hext.grown.below hj
  simp only [finish, wp_bind, wp_get, Option.isSome_some, true_and]
  rw [hsize]
  split
  · rename_i hgrow
    have hlt : i < s'.sb.ninodes.toNat := hext.holds.live.1
    have hnew := UInt32.toNat_ofNat_of_lt' (hbound.trans_lt (by decide))
    have hinum' : (s'.inode ip).inum.toNat = i := by
      rw [hext.grown.self]
      apply hinum
    have hholds := hext.holds.resize hinum' (n := .ofNat (off + n)) (by
      intro k hk
      rw [hnew] at hk
      apply hwrote.mapped_of_lt hext h hoff hk)
    have hdata : ∀ k, s'.sb.datastart ≤ k →
        (s'.resize ip (.ofNat (off + n))).disk k = s'.disk k := by
      intro k hk
      apply hext.holds.wf.setDinode_of_le (hinum' ▸ hlt) (hext.holds.wf.bmapstart_lt.le.trans hk)
    have hbyte : ∀ j, Live s'.sb ino' j → ∀ o,
        (ino' j).byteAt (s'.resize ip (.ofNat (off + n))).disk o = (ino' j).byteAt s'.disk o := by
      intro j hj
      apply hext.holds.owned.byteAt_of_data hj hdata
    have hmax : max (ino i).size.toNat (off + n) = off + n := by
      omega
    simp only [wp_bind, wp_modify, iupdate, FileSys.modifyInode_self, FileSys.modifyInode_sb,
      FileSys.modifyInode_disk]
    change ∃ ino'', Written ip i src off n s ino (s'.resize ip (.ofNat (off + n))) ino''
    refine ⟨_, hholds, hext.grown.sb, ?_, ?_, ?_, ?_, ?_, ?_, ?_⟩
    · simp only [FileSys.resize, FileSys.modifyInode_self]
      rw [hext.grown.self]
    · intro k hk
      rw [← hext.grown.others k hk]
      apply Function.update_of_ne hk
    · intro j hj hne
      rw [← hdinodes j hj, ← hext.grown.sb]
      apply dinode_setDinode_of_ne (hinum' ▸ hne)
    · intro j hj
      rw [Function.update_of_ne hj, hext.other j hj]
    · intro j hj hlive o
      have := hbyte j (hext.live hlive) o
      rw [hext.other j hj] at this
      rw [this, ← hext.byteAt_of_ne hlive hj, hext.other j hj]
    · rw [Function.update_self, hnew, hmax]
    · rw [Function.update_self]
      apply Dinode.contents_eq_splice hoff (by rw [hnew, hmax])
      intro o ho
      rw [hnew] at ho
      rw [← hwrote.byteAt src h hoff (hmax.symm ▸ ho)]
      apply hbyte i hext.holds.live o
  · rename_i hsame
    have hmax : max (ino i).size.toNat (off + n) = (ino i).size.toNat := by
      omega
    have hcopy : (ino' i).size = (ino i).size := by
      rw [hext.holds.copy, hsize]
    rw [wp_pure]
    refine ⟨ino', hext.holds, hext.grown.sb, ?_, hext.grown.others, fun j hj _ => hdinodes j hj,
      hext.other, ?_, ?_, ?_⟩
    · rw [hext.grown.self]
    · intro j hj hlive o
      rw [← hext.byteAt_of_ne hlive hj, hext.other j hj]
    · rw [hcopy, hmax]
    · apply Dinode.contents_eq_splice hoff (by rw [hcopy, hmax])
      intro o ho
      apply hwrote.byteAt src h hoff
      rw [hmax, ← hcopy]
      apply ho

/-- `writei` refuses the offset `off` and the length `n`. -/
def Refuses (x : Dinode) (off n : UInt32) : Prop :=
  off > x.size ∨ off + n < off ∨ off.toNat + n.toNat > MAXFILE * BSIZE

/-- `writei` up to its loop. -/
theorem writei_spec
    {E : Fault → Prop} (hdev : (s.inode ip).type ≠ T_DEV) (src : Nat → UInt8) (off n : UInt32) :
  Wp E (writei ip src off n)
    (fun t s' => s' = s ∧ ((Refuses (s.inode ip).toDinode off n ∧ t = none) ∨
      (¬ Refuses (s.inode ip).toDinode off n ∧ t = some ⟨some src, off.toNat, n.toNat, 0⟩))) s
  := by
  rw [writei, wp_bind, wp_get, if_neg hdev]
  split
  · rename_i hoff
    exact ⟨rfl, .inl ⟨hoff.imp_right .inl, rfl⟩⟩
  · rename_i hoff
    have hadd := toNat_add_of_not_lt (not_or.mp hoff).2
    split
    · rename_i hmax
      rw [hadd] at hmax
      exact ⟨rfl, .inl ⟨.inr (.inr hmax), rfl⟩⟩
    · rename_i hmax
      rw [hadd] at hmax
      refine ⟨rfl, .inr ⟨?_, rfl⟩⟩
      rintro (hgt | hlt | hgt)
      · apply hoff (.inl hgt)
      · apply hoff (.inr hlt)
      · apply hmax hgt

theorem writeiAll_spec
    (h : Holds s ip ino i) (hinum : (s.inode ip).inum.toNat = i)
    (hdev : (s.inode ip).type ≠ T_DEV) (src : Nat → UInt8) (off n : UInt32) :
  Wp (fun f => f = .outOfBlocks ∧ ¬ Refuses (ino i) off n ∧
      s.free < (ino i).missingIn s.disk (off.toNat / BSIZE)
        ((off.toNat + n.toNat + BSIZE - 1) / BSIZE))
    (writeiAll ip src off n)
    (fun r s' => (Refuses (ino i) off n ∧ r = -1 ∧ s' = s) ∨
      (¬ Refuses (ino i) off n ∧ r = n.toNat ∧
        ∃ ino', Written ip i src off.toNat n.toNat s ino s' ino')) s
  := by
  rw [writeiAll]
  apply (writei_spec hdev src off n).bind
  rw [← h.copy]
  rintro t s' ⟨rfl, ⟨hrefuses, rfl⟩ | ⟨haccepts, rfl⟩⟩
  · exact .inl ⟨hrefuses, rfl, rfl⟩
  · have hoff : off.toNat ≤ (ino i).size.toNat := by
      rw [← UInt32.le_iff_toNat_le]
      apply UInt32.not_lt.mp (fun hgt => haccepts (.inl hgt))
    have hbound : off.toNat + n.toNat ≤ MAXFILE * BSIZE :=
      Nat.le_of_not_lt fun hgt => haccepts (.inr (.inr hgt))
    have hloop := Transfer.loop_writes (t := ⟨some src, off.toNat, n.toNat, 0⟩) h rfl hbound
      (Nat.zero_le _) le_rfl
    apply (hloop.fail fun f hf => ⟨hf.1, haccepts, hf.2⟩).bind
    rintro t' s₁ ⟨rfl, ino₁, hext, hwrote⟩
    rw [wp_bind]
    have hbyte : ∀ o, off.toNat ≤ o →
        Transfer.byteFor ⟨some src, off.toNat, n.toNat, 0⟩ src o = src (o - off.toNat) := by
      intro o _
      rw [Transfer.byteFor, Nat.zero_add]
    apply (Transfer.finish_writes h hinum hext (hwrote.congr hbyte) hoff hbound).noFail.mono
    intro _ s' hs'
    exact .inr ⟨haccepts, rfl, hs'⟩

end Xv6.Fs
