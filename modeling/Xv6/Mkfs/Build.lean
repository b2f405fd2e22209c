import Xv6.Mkfs.Append

/-!
# The files of the image

The image holds a list of files: the root directory, and the input files in their order, with
consecutive inode numbers.  `ialloc` adds an empty file to the list and `iappend` appends to one of
them, as long as the inode blocks and the data blocks last.
-/

namespace Xv6.Mkfs

open Fs
open Function

/-- The number of inodes that fit before the free map. -/
abbrev maxInodes : Nat := ninodeblocks * IPB

/-- The inodes on the image. -/
def Image.inodes (st : Image) (i : Nat) : Dinode :=
  dinode sb st.disk i

/-- An inode that is not used. -/
def noInode : Dinode :=
  ⟨0, 0, 0, 0, 0, fun _ => 0⟩

/-- The number of blocks of a file of `n` bytes, with its indirect block. -/
def blocksFor (n : Nat) : Nat :=
  blocksOf n + if NDIRECT < blocksOf n then 1 else 0

/-- A file: its type and its contents. -/
abbrev Contents : Type := Int16 × List UInt8

/-- The number of blocks of some files. -/
def need (l : List Contents) : Nat :=
  (l.map fun f => blocksFor f.2.length).sum

/-- The inode is that of a file. -/
structure HasFile (x : Dinode) (d : Disk) (f : Contents) : Prop where
  type : x.type = f.1
  live : f.1 ≠ 0
  contents : x.contents d = f.2
  within : Within x d (blocksOf f.2.length)

/-- The files of the image are `l`. -/
structure Laid (st : Image) (l : List Contents) : Prop where
  size : st.size = FSSIZE
  high : st.freeblock ≤ FSSIZE
  fresh : ∀ b, st.freeblock ≤ b → st.disk b = .zero
  owned : Owned mapSb st.inodes st.view
  taken : st.freeblock ≤ nmeta + need l
  count : st.freeinode = l.length + 1
  room : st.freeinode ≤ maxInodes
  file : ∀ j (hj : j < l.length), HasFile (st.inodes (j + 1)) st.view l[j]
  unused : ∀ i < maxInodes, i = 0 ∨ st.freeinode ≤ i → st.inodes i = noInode
  super : st.disk 1 = Block.zero.setWords 0 7 sbWord

variable {st st' : Image} {l : List Contents} {i j : Nat} {E : Failure → Prop}

/-! ### Inodes -/

theorem IBLOCK_lt (hi : i < maxInodes) :
  1 < sb.IBLOCK i ∧ sb.IBLOCK i < sb.bmapstart.toNat
  := by
  have hstart : sb.inodestart.toNat = 32 := by
    decide
  have hmap : sb.bmapstart.toNat = 58 := by
    decide
  simp only [maxInodes, ninodeblocks, NINODES, IPB, BSIZE] at hi
  rw [Superblock.IBLOCK, hstart, hmap]
  simp only [IPB, BSIZE]
  omega

theorem bmapstart_lt_FSSIZE :
  sb.bmapstart.toNat < FSSIZE
  := by
  decide

theorem wp_rinode {Q : Dinode → Image → Prop} (hst : st.size = FSSIZE) (hi : i < maxInodes) :
  Wp E (rinode i) Q st ↔ Q (st.inodes i) st
  := by
  have := IBLOCK_lt hi
  have := bmapstart_lt_FSSIZE
  rw [rinode, wp_bind, wp_rsect_of_lt (by omega), wp_pure]
  rfl

theorem wp_winode {Q : Unit → Image → Prop} {x : Dinode} (st : Image) (hst : st.size = FSSIZE)
    (hi : i < maxInodes) :
  Wp E (winode i x) Q st ↔ Q () { st with disk := setDinode sb st.disk i x }
  := by
  have := IBLOCK_lt hi
  have := bmapstart_lt_FSSIZE
  rw [winode, wp_bind, wp_rsect_of_lt (by omega), wp_wsect_of_lt (by omega)]
  rfl

/-- Writing an inode and writing the free map commute. -/
theorem view_setDinode (st : Image) (x : Dinode) (hi : i < maxInodes) :
  Image.view { st with disk := setDinode sb st.disk i x } = setDinode sb st.view i x
  := by
  have hne : sb.IBLOCK i ≠ sb.bmapstart.toNat := (IBLOCK_lt hi).2.ne
  simp only [Image.view, setDinode, update_of_ne hne, update_comm hne]

theorem inodes_setDinode (st : Image) (i : Nat) (x : Dinode) :
  Image.inodes { st with disk := setDinode sb st.disk i x } = update st.inodes i x
  := by
  rw [Function.eq_update_iff]
  constructor
  · apply dinode_setDinode_self
  · intro j hne
    apply dinode_setDinode_of_ne hne

/-- Writing an inode keeps the blocks from the free map on. -/
theorem setDinode_view_of_le {x : Dinode} {k : Nat} (hi : i < maxInodes)
    (hk : sb.bmapstart.toNat ≤ k) :
  setDinode sb st.view i x k = st.view k
  := by
  have := (IBLOCK_lt hi).2
  apply setDinode_of_ne
  omega

/-! ### A file -/

namespace HasFile

variable {x : Dinode} {d d' : Disk} {f : Contents}

theorem size_eq (h : HasFile x d f) :
  x.size.toNat = f.2.length
  := by
  rw [← h.contents, Dinode.contents, List.length_map, List.length_range]

/-- A file depends on the data blocks. -/
theorem of_data
    {ino : Nat → Dinode} (h : HasFile x d f) (howned : Owned mapSb ino d) (hx : ino i = x)
    (hi : i < maxInodes) (hd : ∀ k, nmeta ≤ k → d' k = d k) :
  HasFile x d' f
  := by
  subst hx
  have hlive : Live mapSb ino i := ⟨hi, by rw [h.type]; exact h.live⟩
  constructor
  · exact h.type
  · exact h.live
  · rw [← h.contents]
    apply List.map_congr_left
    intro o _
    apply howned.byteAt_of_data hlive hd
  · apply h.within.congr
    intro hind
    apply hd
    exact (howned.ind_used hlive hind).1.1

end HasFile

/-- The inode of a file. -/
theorem Laid.lt (h : Laid st l) (hj : j < l.length) :
  j + 1 < maxInodes
  := by
  have := h.count
  have := h.room
  omega

theorem Laid.live (h : Laid st l) (hj : j < l.length) :
  Live mapSb st.inodes (j + 1)
  := ⟨h.lt hj, by rw [(h.file j hj).type]; exact (h.file j hj).live⟩

/-- Blocks behind the metadata, and not before the free map. -/
theorem bmapstart_le {k : Nat} (hk : nmeta ≤ k) :
  sb.bmapstart.toNat ≤ k
  := by
  have : sb.bmapstart.toNat ≤ nmeta := by
    decide
  omega

theorem need_append (l l' : List Contents) :
  need (l ++ l') = need l + need l'
  := by
  simp [need]

/-- `ialloc` adds an empty file. -/
theorem ialloc_spec
    {type : Int16} (h : Laid st l) (hroom : l.length + 1 < maxInodes) (htype : type ≠ 0) :
  Wp (fun _ => False) (ialloc type)
    (fun i st' => i = l.length + 1 ∧ Laid st' (l ++ [(type, [])])) st
  := by
  have hcount := h.count
  have hi : st.freeinode < maxInodes := by
    omega
  have hzero : st.inodes st.freeinode = noInode := h.unused _ hi (.inr le_rfl)
  have hdata : ∀ {x : Dinode} (k : Nat), nmeta ≤ k →
      setDinode sb st.view st.freeinode x k = st.view k := by
    intro x k hk
    apply setDinode_view_of_le hi (bmapstart_le hk)
  rw [ialloc, wp_bind, wp_get, wp_bind, wp_set, wp_bind,
    wp_winode { st with freeinode := st.freeinode + 1 } h.size hi, wp_pure]
  refine ⟨hcount, ?_⟩
  have hview := view_setDinode { st with freeinode := st.freeinode + 1 } (newInode type) hi
  have hinodes := inodes_setDinode { st with freeinode := st.freeinode + 1 } st.freeinode
    (newInode type)
  constructor
  · exact h.size
  · exact h.high
  · intro b hb
    rw [← h.fresh b hb]
    have := (IBLOCK_lt hi).2
    have := bmapstart_le (st.low h.owned h.high)
    apply setDinode_of_ne
    dsimp only at hb
    omega
  · rw [hview, hinodes]
    apply Owned.of_le _ wf_mapSb
    · intro k hk
      apply setDinode_view_of_le hi hk
    · apply h.owned.replaceEmpty (fun _ => rfl) rfl
      left
      rw [hzero]
      rfl
  · have := h.taken
    rw [need_append]
    dsimp only
    omega
  · dsimp only
    rw [hcount, List.length_append, List.length_singleton]
  · exact hi
  · intro j hj
    rw [hview, hinodes]
    rw [List.length_append, List.length_singleton] at hj
    rcases Nat.lt_or_ge j l.length with hlt | hge
    · rw [List.getElem_append_left hlt, update_of_ne (by omega)]
      apply (h.file j hlt).of_data h.owned rfl (h.lt hlt)
      apply hdata
    · obtain rfl : j = l.length := by
        omega
      rw [← hcount, update_self, List.getElem_append_right le_rfl]
      simp only [Nat.sub_self, List.getElem_singleton]
      refine ⟨rfl, htype, rfl, ?_, fun _ => rfl⟩
      intro k _
      simp [Dinode.blockAddr, newInode, Dinode.ind]
  · intro k hk hunused
    rw [hinodes, update_of_ne]
    · apply h.unused k hk
      dsimp only at hunused
      omega
    · dsimp only at hunused
      omega
  · rw [← h.super]
    dsimp only
    apply setDinode_of_ne (IBLOCK_lt hi).1.ne

/-! ### Appending -/

/-- A file with more bytes at its end. -/
def Contents.append (p : List UInt8) (f : Contents) : Contents :=
  (f.1, f.2 ++ p)

theorem need_modify (g : Contents → Contents) (hj : j < l.length) :
  need (l.modify j g) + blocksFor l[j].2.length = need l + blocksFor (g l[j]).2.length
  := by
  induction l generalizing j with
  | nil => cases hj
  | cons f l ih =>
    cases j with
    | zero =>
      simp only [need, List.modify_zero_cons, List.map_cons, List.sum_cons, List.getElem_cons_zero]
      omega
    | succ j =>
      have := ih (Nat.lt_of_succ_lt_succ hj)
      simp only [need, List.modify_succ_cons, List.map_cons, List.sum_cons,
        List.getElem_cons_succ] at this ⊢
      omega

/-- The blocks that a file of `n` bytes without a hole lacks for `m` more bytes. -/
theorem missingIn_add
    {x : Dinode} {d : Disk} {n : Nat} (hhole : ∀ k, k * BSIZE < n → x.blockAddr d k ≠ 0) (m : Nat) :
  x.missingIn d (n / BSIZE) (blocksOf (n + m)) + blocksFor n ≤ blocksFor (n + m)
  := by
  have hlo : n / BSIZE ≤ blocksOf n := by
    rw [blocksOf]
    simp only [BSIZE]
    omega
  have hhi : blocksOf n ≤ blocksOf (n + m) := by
    rw [blocksOf, blocksOf]
    apply Nat.div_le_div_right
    omega
  have hmapped : ∀ k < blocksOf n, x.blockAddr d k ≠ 0 := by
    intro k hk
    apply hhole
    rw [blocksOf] at hk
    simp only [BSIZE] at hk ⊢
    omega
  have hzero : (∑ k ∈ Finset.Ico (n / BSIZE) (blocksOf n), if x.blockAddr d k = 0 then 1 else 0)
      = 0 := by
    apply Finset.sum_eq_zero
    intro k hk
    rw [if_neg (hmapped k (Finset.mem_Ico.mp hk).2)]
  have hnew : (∑ k ∈ Finset.Ico (blocksOf n) (blocksOf (n + m)),
      if x.blockAddr d k = 0 then 1 else 0) ≤ blocksOf (n + m) - blocksOf n := by
    rw [← Nat.card_Ico, Finset.card_eq_sum_ones]
    apply Finset.sum_le_sum
    intro k _
    split <;> omega
  rw [Dinode.missingIn, ← Finset.sum_Ico_consecutive _ hlo hhi, hzero, blocksFor, blocksFor]
  by_cases hd : NDIRECT < blocksOf n
  · -- the indirect block is there
    have hind : x.missingInd = 0 := by
      apply if_neg
      intro hind
      apply hmapped NDIRECT hd
      simp [Dinode.blockAddr, hind]
    have hd' := hd.trans_le hhi
    rw [if_pos hd, if_pos hd', if_pos hd', hind]
    omega
  · rw [if_neg hd]
    have : x.missingInd ≤ 1 := by
      rw [Dinode.missingInd]
      split <;> omega
    by_cases hd' : NDIRECT < blocksOf (n + m)
    · rw [if_pos hd', if_pos hd']
      omega
    · rw [if_neg hd', if_neg hd']
      omega

theorem splice_length {α : Type} (l l' : List α) :
  splice l l.length l' = l ++ l'
  := by
  rw [splice, List.take_length, List.drop_of_length_le (Nat.le_add_right ..), List.append_nil]

section

variable {p : List UInt8} {m : Nat} {din : Dinode} {ino : Nat → Dinode}

theorem Laid.growing (h : Laid st l) (hj : j < l.length) :
  Growing st (j + 1) (st.inodes (j + 1)) st.inodes
  := ⟨h.size, h.high, h.fresh, wf_mapSb, h.owned, h.live hj, rfl⟩

namespace Filled

variable (hfill : Filled (j + 1) (fun o => p.getD (o - (st.inodes (j + 1)).size.toNat) 0)
    (st.inodes (j + 1)).size.toNat ((st.inodes (j + 1)).size.toNat + p.length) m st
    (st.inodes (j + 1)) st.inodes st' din ino)

include hfill

theorem size_toNat :
  (UInt32.ofNat ((st.inodes (j + 1)).size.toNat + p.length)).toNat
    = (st.inodes (j + 1)).size.toNat + p.length
  := by
  have hbound := hfill.bound
  have := (st.inodes (j + 1)).size.toNat_lt
  simp only [MAXFILE, NDIRECT, NINDIRECT, BSIZE] at hbound
  rw [UInt32.toNat_ofNat']
  omega

/-- The inodes on the image do not change in the loop. -/
theorem inodes_eq (hi : i < maxInodes) :
  st'.inodes i = st.inodes i
  := by
  apply dinode_congr
  have hk := (IBLOCK_lt hi).2
  have hbelow := hfill.extends_.grown.below _ hk
  change st'.view _ = st.view _ at hbelow
  rw [Image.view_of_ne hk.ne, Image.view_of_ne hk.ne] at hbelow
  exact hbelow

/-- The invariant when the inode in memory gets its size. -/
theorem owned (h : Laid st l) (hj : j < l.length) :
  Owned mapSb (update ino (j + 1)
    { din with size := .ofNat ((st.inodes (j + 1)).size.toNat + p.length) }) st'.view
  := by
  rw [← hfill.growing.copy_eq]
  apply hfill.growing.holds.owned.setSize
  intro k hk
  rw [hfill.size_toNat] at hk
  apply mapped_iff.mpr
  exact Wrote.mapped_of_lt hfill.wrote hfill.extends_ (h.growing hj).holds le_rfl hk

/-- The file after the loop. -/
theorem hasFile_self (h : Laid st l) (hj : j < l.length) :
  HasFile { din with size := .ofNat ((st.inodes (j + 1)).size.toNat + p.length) } st'.view
    (l[j].append p)
  := by
  have hfile := h.file j hj
  have hself := hfill.extends_.grown.self
  have htype : din.type = (st.inodes (j + 1)).type := congrArg (fun x : Inode => x.type) hself
  have hlen : (l[j].append p).2.length = (st.inodes (j + 1)).size.toNat + p.length := by
    rw [Contents.append, List.length_append, hfile.size_eq]
  constructor
  · dsimp only [Contents.append]
    rw [htype, hfile.type]
  · exact hfile.live
  · have hsplice : Dinode.contents
        { din with size := .ofNat ((st.inodes (j + 1)).size.toNat + p.length) } st'.view
        = splice ((st.inodes (j + 1)).contents st.view) (st.inodes (j + 1)).size.toNat
          ((List.range p.length).map fun k => p.getD k 0) := by
      apply Dinode.contents_eq_splice le_rfl
      · dsimp only
        rw [hfill.size_toNat]
        omega
      · intro o ho
        dsimp only at ho
        rw [hfill.size_toNat] at ho
        have hbyte := Wrote.byteAt (fun k => p.getD k 0) hfill.wrote (h.growing hj).holds le_rfl
          (o := o) (by omega)
        rw [hfill.growing.copy_eq] at hbyte
        exact hbyte
    rw [hsplice, hfile.contents, hfile.size_eq, splice_length, map_getD_range]
    rfl
  · rw [hlen]
    exact hfill.within

/-- The other files after the loop. -/
theorem hasFile_of_ne {k : Nat} (h : Laid st l) (hk : k < l.length) (hne : k ≠ j) :
  HasFile (st.inodes (k + 1)) st'.view l[k]
  := by
  have hfile := h.file k hk
  have hne' : k + 1 ≠ j + 1 := by
    omega
  have hother := hfill.extends_.other _ hne'
  constructor
  · exact hfile.type
  · exact hfile.live
  · rw [← hfile.contents]
    apply List.map_congr_left
    intro o _
    have hbyte := hfill.extends_.byteAt_of_ne (h.live hk) hne' o
    rw [hother] at hbyte
    exact hbyte
  · refine ⟨?_, hfile.within.2⟩
    intro b hb
    have haddr := hfill.extends_.blockAddr_of_ne (h.live hk) hne' b
    rw [hother] at haddr
    exact haddr.trans (hfile.within.1 b hb)

/-- The image when the inode is written back. -/
theorem laid
    (h : Laid st l) (hj : j < l.length)
    (htaken : st.freeblock + m ≤ nmeta + need (l.modify j (Contents.append p))) :
  Laid { st' with
      disk := setDinode sb st'.disk (j + 1)
        { din with size := .ofNat ((st.inodes (j + 1)).size.toNat + p.length) } }
    (l.modify j (Contents.append p))
  := by
  have hi := h.lt hj
  have howned := hfill.owned h hj
  have hview := view_setDinode st'
    { din with size := .ofNat ((st.inodes (j + 1)).size.toNat + p.length) } hi
  have hinodes := inodes_setDinode st' (j + 1)
    { din with size := .ofNat ((st.inodes (j + 1)).size.toNat + p.length) }
  have hdata : ∀ k, nmeta ≤ k → setDinode sb st'.view (j + 1)
      { din with size := .ofNat ((st.inodes (j + 1)).size.toNat + p.length) } k = st'.view k := by
    intro k hk
    apply setDinode_view_of_le hi (bmapstart_le hk)
  constructor
  · exact hfill.growing.size
  · exact hfill.growing.high
  · intro b hb
    rw [← hfill.growing.fresh b hb]
    have := (IBLOCK_lt hi).2
    have := bmapstart_le hfill.growing.low
    dsimp only at hb ⊢
    apply setDinode_of_ne
    omega
  · rw [hview, hinodes]
    apply Owned.of_le _ wf_mapSb
    · intro k hk
      apply setDinode_view_of_le hi hk
    · apply howned.of_eq
      intro k hk
      rcases eq_or_ne k (j + 1) with rfl | hne
      · rw [update_self, update_self]
      · rw [update_of_ne hne, update_of_ne hne, hfill.inodes_eq hk,
          hfill.extends_.other k hne]
  · exact hfill.taken.trans htaken
  · rw [List.length_modify]
    exact hfill.freeinode.trans h.count
  · exact hfill.freeinode.trans_le h.room
  · intro k hk
    rw [List.length_modify] at hk
    rw [hview, hinodes]
    rcases eq_or_ne k j with rfl | hne
    · rw [List.getElem_modify_eq, update_self]
      apply (hfill.hasFile_self h hj).of_data howned (update_self ..) hi hdata
    · have hne' : k + 1 ≠ j + 1 := by
        omega
      rw [List.getElem_modify_ne _ _ hne.symm, update_of_ne hne', hfill.inodes_eq (h.lt hk)]
      apply (hfill.hasFile_of_ne h hk hne).of_data hfill.growing.holds.owned
        (hfill.extends_.other _ hne') (h.lt hk) hdata
  · intro k hk hunused
    have hne : k ≠ j + 1 := by
      have := h.count
      have := hfill.freeinode
      dsimp only at hunused
      omega
    rw [hinodes, update_of_ne hne, hfill.inodes_eq hk]
    apply h.unused k hk
    rw [← hfill.freeinode]
    exact hunused
  · have hbelow := hfill.extends_.grown.below 1 wf_mapSb.lt_bmapstart
    change st'.view 1 = st.view 1 at hbelow
    rw [Image.view_of_ne (by decide), Image.view_of_ne (by decide)] at hbelow
    rw [← h.super, ← hbelow]
    dsimp only
    apply setDinode_of_ne (IBLOCK_lt hi).1.ne

end Filled

/-- `iappend` appends to a file. -/
theorem iappend_spec
    (h : Laid st l) (hj : j < l.length) (p : List UInt8)
    (hread : FSSIZE < nmeta + need (l.modify j (Contents.append p)) → E .read)
    (hmax : MAXFILE * BSIZE < l[j].2.length + p.length → E .maxfile) :
  Wp E (iappend (j + 1) p) (fun _ st' => Laid st' (l.modify j (Contents.append p))) st
  := by
  have hi := h.lt hj
  have hfile := h.file j hj
  have hsize := hfile.size_eq
  have hgrow := h.growing hj
  have hmissing := missingIn_add (x := st.inodes (j + 1)) (d := st.view)
    (n := (st.inodes (j + 1)).size.toNat)
    (fun k hk => hgrow.holds.mapped_of_lt hk) p.length
  have hneed := need_modify (Contents.append p) hj
  have htaken := h.taken
  rw [show (l[j].append p).2.length = l[j].2.length + p.length from List.length_append, ← hsize]
    at hneed
  rw [iappend, wp_bind, wp_rinode h.size hi]
  apply (appendLoop_spec hgrow (hsize ▸ hfile.within) le_rfl ?_ ?_).bind
  · rintro ⟨din, off⟩ st' ⟨hoff, ino, hfill⟩
    dsimp only at hoff hfill ⊢
    rw [wp_winode st' hfill.growing.size hi, hoff]
    apply hfill.laid h hj
    omega
  · intro hlt
    apply hread
    omega
  · rw [hsize]
    exact hmax

end

end Xv6.Mkfs
