import Xv6.Fs.Contents

/-!
# Files as arrays of bytes

`readi` and `writei` of an inode without a hole read and write an array of bytes, its contents,
and keep the contents of the other inodes.
-/

namespace Xv6.Fs

variable {s s' : FileSys} {ip : Slot} {ino ino' : Nat → Dinode} {i : Nat}

/-! ### `readi` -/

/-- `bmap` of a block that has an address. -/
theorem bmap_mapped {bn : Nat} (hbn : (s.inode ip).blockAddr s.disk bn ≠ 0) :
  Wp (fun _ => False) (bmap ip bn)
    (fun addr s' => s' = s ∧ addr.toNat = (s.inode ip).blockAddr s.disk bn) s
  := by
  rw [Dinode.blockAddr] at hbn ⊢
  by_cases hd : bn < NDIRECT
  · rw [dif_pos hd, toNat_ne_zero] at hbn
    rw [bmap, dif_pos hd, dif_pos hd, wp_bind, wp_get, if_neg hbn]
    exact ⟨rfl, rfl⟩
  · rw [dif_neg hd] at hbn
    obtain ⟨hind, hlt⟩ : (s.inode ip).ind ≠ 0 ∧ bn - NDIRECT < NINDIRECT := by
      by_contra hnot
      rw [if_neg hnot] at hbn
      cases hbn rfl
    rw [if_pos ⟨hind, hlt⟩, toNat_ne_zero] at hbn
    rw [bmap, dif_neg hd, dif_neg hd, if_pos hlt, if_pos ⟨hind, hlt⟩, wp_bind, indirectBlock,
      wp_bind, wp_get, if_neg hind, wp_pure, wp_bind, wp_get, if_neg hbn]
    exact ⟨rfl, rfl⟩

/-- The bytes of one block of a file. -/
theorem Dinode.copyOut_eq
    {x : Dinode} {d : Disk} {off m : Nat} (hm : off % BSIZE + m ≤ BSIZE)
    (hne : x.blockAddr d (off / BSIZE) ≠ 0) :
  (d (x.blockAddr d (off / BSIZE))).copyOut (off % BSIZE) m
    = (List.range m).map fun k => x.byteAt d (off + k)
  := by
  apply List.map_congr_left
  intro k hk
  rw [List.mem_range] at hk
  have hdiv : (off + k) / BSIZE = off / BSIZE := by
    simp only [BSIZE] at hm ⊢
    omega
  have hmod : (off + k) % BSIZE = off % BSIZE + k := by
    simp only [BSIZE] at hm ⊢
    omega
  rw [byteAt, hdiv, hmod, if_neg hne]

/-- The loop of `readi`. -/
theorem Transfer.readLoop_spec
    {fuel : Nat} {t : Transfer}
    (hmapped : ∀ o, t.off ≤ o → o < t.off + (t.n - t.tot) →
      (s.inode ip).blockAddr s.disk (o / BSIZE) ≠ 0)
    (hfuel : t.n - t.tot ≤ fuel) :
  Wp (fun _ => False) (t.readLoop ip fuel)
    (fun bytes s' => s' = s ∧
      bytes = (List.range (t.n - t.tot)).map fun k => (s.inode ip).byteAt s.disk (t.off + k)) s
  := by
  induction fuel generalizing t with
  | zero =>
    obtain hzero : t.n - t.tot = 0 := by
      omega
    rw [hzero]
    exact ⟨rfl, rfl⟩
  | succ fuel ih =>
    rw [readLoop]
    split
    · rename_i hlt
      have hmod : t.off % BSIZE < BSIZE := Nat.mod_lt _ (by decide)
      have hchunk : 0 < t.chunk ∧ t.chunk ≤ t.n - t.tot ∧ t.off % BSIZE + t.chunk ≤ BSIZE := by
        rw [chunk]
        omega
      have hfirst := hmapped t.off le_rfl (by omega)
      apply (bmap_mapped hfirst).bind
      rintro addr _ ⟨rfl, haddr⟩
      rw [wp_bind, wp_get]
      dsimp only
      rw [wp_bind, ← chunk, haddr, Dinode.copyOut_eq hchunk.2.2 hfirst]
      have hrest := ih (t := t.next) (fun o ho ho' => hmapped o (by simp only [next] at ho; omega)
        (by simp only [next] at ho'; omega)) (by simp only [next]; omega)
      apply hrest.mono
      rintro rest _ ⟨rfl, rfl⟩
      rw [wp_pure]
      refine ⟨rfl, ?_⟩
      have hsum : t.n - t.tot = t.chunk + (t.next.n - t.next.tot) := by
        simp only [next]
        omega
      rw [hsum, List.range_add, List.map_append, List.map_map]
      congr 1
      apply List.map_congr_left
      intro k _
      simp only [next, Function.comp_apply, Nat.add_assoc]
    · obtain hzero : t.n - t.tot = 0 := by
        omega
      rw [hzero]
      exact ⟨rfl, rfl⟩

/-- `readi` refuses the offset `off` and the length `n`. -/
def RefusesRead (x : Dinode) (off n : UInt32) : Prop :=
  off > x.size ∨ off + n < off

/-- `readi` up to its loop. -/
theorem readi_spec
    {E : Fault → Prop} (hdev : (s.inode ip).type ≠ T_DEV) (off n : UInt32) :
  Wp E (readi ip off n)
    (fun t s' => s' = s ∧ ((RefusesRead (s.inode ip).toDinode off n ∧ t = none) ∨
      (¬ RefusesRead (s.inode ip).toDinode off n ∧
        t = some ⟨none, off.toNat, min n.toNat ((s.inode ip).size.toNat - off.toNat), 0⟩))) s
  := by
  rw [readi, wp_bind, wp_get, if_neg hdev]
  split
  · rename_i hoff
    exact ⟨rfl, .inl ⟨hoff, rfl⟩⟩
  · rename_i hoff
    have hadd := toNat_add_of_not_lt (not_or.mp hoff).2
    have hle : off ≤ (s.inode ip).size := UInt32.not_lt.mp (not_or.mp hoff).1
    have hle' := UInt32.le_iff_toNat_le.mp hle
    split
    · rename_i hgt
      rw [gt_iff_lt, UInt32.lt_iff_toNat_lt, hadd] at hgt
      refine ⟨rfl, .inr ⟨hoff, ?_⟩⟩
      rw [UInt32.toNat_sub_of_le _ _ hle, Nat.min_eq_right (by omega)]
    · rename_i hgt
      rw [gt_iff_lt, UInt32.lt_iff_toNat_lt, hadd] at hgt
      refine ⟨rfl, .inr ⟨hoff, ?_⟩⟩
      rw [Nat.min_eq_left (by omega)]

theorem readiAll_spec
    (hdev : (s.inode ip).type ≠ T_DEV) (off n : UInt32)
    (hmapped : ∀ o, off.toNat ≤ o → o < off.toNat + n.toNat → o < (s.inode ip).size.toNat →
      (s.inode ip).blockAddr s.disk (o / BSIZE) ≠ 0) :
  Wp (fun _ => False) (readiAll ip off n)
    (fun r s' => s' = s ∧ ((RefusesRead (s.inode ip).toDinode off n ∧ r = (-1, [])) ∨
      (¬ RefusesRead (s.inode ip).toDinode off n ∧
        r = (((min n.toNat ((s.inode ip).size.toNat - off.toNat) : Nat) : Int),
          (((s.inode ip).contents s.disk).drop off.toNat).take n.toNat)))) s
  := by
  rw [readiAll]
  apply (readi_spec hdev off n).bind
  rintro t s' ⟨rfl, ⟨hrefuses, rfl⟩ | ⟨haccepts, rfl⟩⟩
  · exact ⟨rfl, .inl ⟨hrefuses, rfl⟩⟩
  · have hoff : off.toNat ≤ (s'.inode ip).size.toNat := by
      rw [← UInt32.le_iff_toNat_le]
      apply UInt32.not_lt.mp (fun hgt => haccepts (.inl hgt))
    apply (Transfer.readLoop_spec ?_ (Nat.sub_le ..)).bind
    rotate_left
    · intro o ho ho'
      apply hmapped o ho
      · dsimp only at ho'
        omega
      · dsimp only at ho'
        omega
    rintro bytes _ ⟨rfl, rfl⟩
    refine ⟨rfl, .inr ⟨haccepts, ?_⟩⟩
    refine Prod.ext rfl ?_
    apply List.ext_getElem
    · simp [Dinode.contents]
    · intro k _ _
      simp [Dinode.contents]

/-! ### The file system when an inode is locked -/

/-- The inode has an address for every block below its size. -/
def Dinode.NoHole (x : Dinode) (d : Disk) : Prop :=
  ∀ k, k * BSIZE < x.size.toNat → x.blockAddr d k ≠ 0

theorem Dinode.NoHole.mapped
    {x : Dinode} {d : Disk} (h : x.NoHole d) {o : Nat} (ho : o < x.size.toNat) :
  x.blockAddr d (o / BSIZE) ≠ 0
  := by
  apply h
  have := Nat.div_mul_le_self o BSIZE
  omega

/-- The contents of the file with the inode `i`. -/
def FileSys.file (s : FileSys) (i : Nat) : List UInt8 :=
  (s.inodeOf i).contents s.disk

/-- The entry `ip` of the inode cache holds an allocated inode, as after `ilock`, and the free map
marks the metadata and exactly the blocks of inodes, each of which has one. -/
structure Ready (s : FileSys) (ip : Slot) : Prop where
  wf : s.sb.Wf
  cached : (s.inode ip).Cached
  unique : ∀ k, 0 < (s.inode k).ref → (s.inode k).inum = (s.inode ip).inum → k = ip
  live : Live s.sb s.inodeOf (s.inode ip).inum.toNat
  bij : Set.BijOn (addrAt s.inodeOf s.disk) (refs s.sb s.inodeOf s.disk) (used s.sb s.disk)
  reserved : ∀ b < s.sb.datastart, bit s.sb s.disk b = true

theorem FileSys.inodeOf_eq
    (hcached : (s.inode ip).Cached)
    (hunique : ∀ k, 0 < (s.inode k).ref → (s.inode k).inum = (s.inode ip).inum → k = ip) :
  s.inodeOf (s.inode ip).inum.toNat = (s.inode ip).toDinode
  := by
  rw [inodeOf]
  split
  · rename_i k hfind
    have hk := List.find?_some hfind
    simp only [decide_eq_true_eq] at hk
    rw [hunique k hk.1 (UInt32.toNat_inj.mp hk.2.2)]
  · rename_i hnone
    have := List.find?_eq_none.mp hnone ip (List.mem_finRange ip)
    simp [hcached.1, hcached.2] at this

/-- The addresses and the blocks in use depend on the types and the addresses of the inodes. -/
theorem bijOn_congr
    {sb : Superblock} {d : Disk}
    (h : Set.BijOn (addrAt ino d) (refs sb ino d) (used sb d))
    (hsame : ∀ j < sb.ninodes.toNat,
      (ino' j).type = (ino j).type ∧ (ino' j).addrs = (ino j).addrs) :
  Set.BijOn (addrAt ino' d) (refs sb ino' d) (used sb d)
  := by
  have haddr : ∀ p : Place, p.inum < sb.ninodes.toNat → addrAt ino' d p = addrAt ino d p := by
    intro p hp
    apply addrAt_congr (hsame _ hp).2
    intro _
    rfl
  have hrefs : refs sb ino' d = refs sb ino d := by
    ext p
    simp only [refs, Set.mem_ofPred_eq, Live, and_assoc]
    apply and_congr_right
    intro hlt
    rw [(hsame _ hlt).1, haddr p hlt]
  rw [hrefs]
  apply h.congr
  intro p hp
  rw [haddr p hp.1.1]

/-- The inodes, where all but the inode `i` have the size `0`. -/
def FileSys.only (s : FileSys) (i j : Nat) : Dinode :=
  if j = i then s.inodeOf j else { s.inodeOf j with size := 0 }

namespace Ready

variable (h : Ready s ip)

include h

theorem inodeOf_eq :
  s.inodeOf (s.inode ip).inum.toNat = (s.inode ip).toDinode
  := FileSys.inodeOf_eq h.cached h.unique

/-- The size of the inode is the length of the file. -/
theorem length_file :
  (s.file (s.inode ip).inum.toNat).length = (s.inode ip).size.toNat
  := by
  rw [FileSys.file, h.inodeOf_eq, Dinode.contents, List.length_map, List.length_range]

/-- Only the inode in the entry must not have a hole. -/
theorem holds (hhole : (s.inode ip).NoHole s.disk) :
  Holds s ip (s.only (s.inode ip).inum.toNat) (s.inode ip).inum.toNat
  := by
  have hself : s.only (s.inode ip).inum.toNat (s.inode ip).inum.toNat = (s.inode ip).toDinode := by
    rw [FileSys.only, if_pos rfl, h.inodeOf_eq]
  constructor
  · apply h.wf
  · constructor
    · apply bijOn_congr h.bij
      intro j _
      rw [FileSys.only]
      split <;> exact ⟨rfl, rfl⟩
    · apply h.reserved
    · intro j hj k hk
      apply mapped_iff.mpr
      by_cases hji : j = (s.inode ip).inum.toNat
      · rw [hji, hself] at hk ⊢
        apply hhole k hk
      · rw [FileSys.only, if_neg hji] at hk
        cases Nat.not_lt_zero _ hk
  · refine ⟨h.live.1, ?_⟩
    rw [FileSys.only, if_pos rfl]
    apply h.live.2
  · apply hself

end Ready

/-- In every reachable state, an entry of the inode cache that is locked and not being read or
written is ready, and its inode has no hole. -/
theorem Ready.of_reachable
    {s : BlockSys} (h : blockSystem.Reachable s) (hcached : (s.fs.inode ip).Cached) :
  Ready s.fs ip ∧ (s.fs.inode ip).NoHole s.fs.disk
  := by
  obtain ⟨⟨ino, hinv⟩, -⟩ := reach_inv h
  have howned : Owned s.fs.sb s.fs.inodeOf s.fs.disk := by
    apply hinv.owned.of_eq
    intro i hi
    apply hinv.inodeOf hi
  have hlt := hinv.bound ip hcached.1
  have hlive := hinv.live_of_cached hcached
  have hino := hinv.inodeOf hlt
  have hready : Ready s.fs ip := by
    constructor
    · exact hinv.wf
    · exact hcached
    · intro k hk heq
      apply hinv.unique k ip hk hcached.1 heq
    · refine ⟨hlt, ?_⟩
      rw [hino]
      exact hlive.2
    · exact howned.bij
    · exact howned.reserved
  refine ⟨hready, ?_⟩
  intro k hk
  rw [← hready.inodeOf_eq] at hk ⊢
  apply mapped_iff.mp (howned.noHole _ hready.live k hk)

namespace Written

variable {src : Nat → UInt8} {off n : Nat}
  (hw : Written ip (s.inode ip).inum.toNat src off n s (s.only (s.inode ip).inum.toNat) s' ino')
  (h : Ready s ip)

include hw

theorem inum_eq :
  (s'.inode ip).inum = (s.inode ip).inum
  := by
  rw [hw.entry]

/-- The inodes that are not in the entry are as before. -/
theorem inodeOf_of_ne
    {j : Nat} (hj : j < s.sb.ninodes.toNat) (hne : j ≠ (s.inode ip).inum.toNat) :
  s'.inodeOf j = s.inodeOf j
  := by
  have hpred : (fun k => decide (0 < (s'.inode k).ref ∧ (s'.inode k).valid = true ∧
        (s'.inode k).inum.toNat = j))
      = fun k => decide (0 < (s.inode k).ref ∧ (s.inode k).valid = true ∧
        (s.inode k).inum.toNat = j) := by
    funext k
    rcases eq_or_ne k ip with rfl | hk
    · simp [hw.inum_eq, hne.symm]
    · rw [hw.others k hk]
  rw [FileSys.inodeOf, FileSys.inodeOf, hpred]
  split
  · rename_i k hfind
    have hk := List.find?_some hfind
    simp only [decide_eq_true_eq] at hk
    rw [hw.others]
    rintro rfl
    apply hne hk.2.2.symm
  · rw [hw.sb]
    apply hw.dinodes j hj hne

include h

theorem cached :
  (s'.inode ip).Cached
  := by
  rw [hw.entry]
  exact h.cached

theorem unique
    (k : Slot) (hk : 0 < (s'.inode k).ref) (heq : (s'.inode k).inum = (s'.inode ip).inum) :
  k = ip
  := by
  by_contra hne
  rw [hw.others k hne] at hk heq
  rw [hw.inum_eq] at heq
  apply hne (h.unique k hk heq)

theorem inodeOf_eq :
  s'.inodeOf (s.inode ip).inum.toNat = ino' (s.inode ip).inum.toNat
  := by
  rw [hw.holds.copy, ← FileSys.inodeOf_eq (hw.cached h) (hw.unique h), hw.inum_eq]

/-- The entry stays ready. -/
theorem ready :
  Ready s' ip ∧ (s'.inode ip).NoHole s'.disk
  := by
  have hlive := hw.holds.live
  constructor
  · constructor
    · exact hw.holds.wf
    · exact hw.cached h
    · exact hw.unique h
    · rw [hw.inum_eq]
      refine ⟨hlive.1, ?_⟩
      rw [hw.inodeOf_eq h]
      exact hlive.2
    · apply bijOn_congr hw.holds.owned.bij
      intro j hj
      rcases eq_or_ne j (s.inode ip).inum.toNat with rfl | hne
      · rw [hw.inodeOf_eq h]
        exact ⟨rfl, rfl⟩
      · rw [hw.inodeOf_of_ne (hw.sb ▸ hj) hne, hw.other j hne, FileSys.only, if_neg hne]
        exact ⟨rfl, rfl⟩
    · exact hw.holds.owned.reserved
  · intro k hk
    rw [← hw.holds.copy] at hk ⊢
    apply mapped_iff.mp (hw.holds.owned.noHole _ hlive k hk)

theorem file_eq :
  s'.file (s.inode ip).inum.toNat
    = splice (s.file (s.inode ip).inum.toNat) off ((List.range n).map src)
  := by
  rw [FileSys.file, hw.inodeOf_eq h, hw.contents, FileSys.only, if_pos rfl]
  rfl

end Written

/-! ### The result -/

end Xv6.Fs
