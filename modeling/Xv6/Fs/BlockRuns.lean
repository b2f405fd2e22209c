import Xv6.Fs.Blocks

/-!
# The block allocation invariant

Every block operation keeps the invariant, so it holds in every run.
-/

namespace Xv6.Fs

open Function

section

variable {s : BlockSys} {ino ino' : Nat → Dinode} {ip : Slot} {i : Nat}

/-! ### Reading and writing -/

/-- A sum that does not wrap around. -/
theorem toNat_add_of_not_lt {a b : UInt32} (h : ¬ a + b < a) :
  (a + b).toNat = a.toNat + b.toNat
  := by
  have := a.toNat_lt
  have := b.toNat_lt
  rw [UInt32.lt_iff_toNat_lt, UInt32.toNat_add] at h
  rw [UInt32.toNat_add]
  omega

/-- An offset that passes the checks of `readi` and `writei` is within the inode. -/
theorem offset_le {off n size : UInt32} (h : ¬ (off > size ∨ off + n < off)) :
  off.toNat ≤ size.toNat ∧ (off + n).toNat = off.toNat + n.toNat
  := by
  rw [not_or, gt_iff_lt] at h
  refine ⟨?_, toNat_add_of_not_lt h.2⟩
  simpa [UInt32.lt_iff_toNat_lt] using h.1

/-- One more block is transferred. -/
theorem InProgress.advance
    {sb : Superblock} {d d' : Disk} {x x' : Dinode} {t : Transfer}
    (h : InProgress sb ino d i x t) (hlt : t.tot < t.n) (hsize : x'.size = x.size)
    (hmono : ∀ p : Place, p.inum = i → addrAt ino d p ≠ 0 → addrAt ino' d' p ≠ 0)
    (hmapped : Mapped ino' d' i (t.off / BSIZE))
    (hclean : t.off + (t.n - t.tot) ≤ x.size.toNat → dinode sb d' i = x') :
  InProgress sb ino' d' i x'
    { t with off := t.off + min (t.n - t.tot) (BSIZE - t.off % BSIZE),
             tot := t.tot + min (t.n - t.tot) (BSIZE - t.off % BSIZE) }
  := by
  have hmod : t.off % BSIZE < BSIZE := Nat.mod_lt _ (by decide)
  have hrest : t.off + min (t.n - t.tot) (BSIZE - t.off % BSIZE)
      + (t.n - (t.tot + min (t.n - t.tot) (BSIZE - t.off % BSIZE))) = t.off + (t.n - t.tot) := by
    omega
  have hbound := h.bound
  constructor
  · simp only
    omega
  · simp only [hrest]
    apply hbound
  · simp only [hrest, hsize]
    apply h.read
  · intro hn
    simp only at hn
    omega
  · intro k hk
    by_cases hk' : k * BSIZE < t.off
    · obtain ⟨p, hp, hne⟩ := h.mapped k hk'
      use p, hp
      apply hmono p (inum_of_placeOf hp) hne
    · -- the block that contains the old offset
      have hkoff : k = t.off / BSIZE := by
        symm
        simp only [BSIZE] at hk hk' ⊢
        omega
      rw [hkoff]
      apply hmapped
  · simp only [hrest, hsize]
    apply hclean

/-- An inode without holes is not larger than `MAXFILE` blocks. -/
theorem Owned.size_le {sb : Superblock} {d : Disk} (h : Owned sb ino d) (hi : Live sb ino i) :
  (ino i).size.toNat ≤ MAXFILE * BSIZE
  := by
  by_contra hlt
  obtain ⟨p, hp, -⟩ := h.noHole i hi MAXFILE (by omega)
  cases hp

namespace Inv

section

variable (h : Inv s ino)

include h

/-- `readi` or `writei` enters its loop, at an offset within the inode. -/
theorem enter
    (hip : (s.fs.inode ip).Cached) (hpending : s.pending ip = none) {t : Transfer}
    (htot : t.tot = 0) (hoff : t.off ≤ (s.fs.inode ip).size.toNat)
    (hbound : t.off + t.n ≤ MAXFILE * BSIZE)
    (hread : t.src = none → t.off + t.n ≤ (s.fs.inode ip).size.toNat) :
  Inv { s with pending := update s.pending ip (some t) } ino
  := by
  have hcopy := (h.cached ip hip).1
  have hclean := h.clean ip hip hpending
  apply h.changePending hip
  · simp
  · rintro t' ⟨⟩
    constructor
    · omega
    · rw [htot]
      apply hbound
    · rw [htot]
      apply hread
    · intro _
      apply hoff
    · intro k hk
      apply h.owned.noHole _ (h.live_of_cached hip)
      rw [hcopy]
      apply hk.trans_le hoff
    · intro _
      apply hclean

/-- `readi` or `writei` returns without a loop. -/
theorem notEnter (hpending : s.pending ip = none) :
  Inv { s with pending := update s.pending ip none } ino
  := by
  rw [← hpending, update_eq_self]
  apply h

section

variable (hip : s.Unlocked ip) (hvalid : (s.fs.inode ip).valid = true) {E : Fault → Prop}

include hip hvalid

theorem readi (off n : UInt32) :
  Wp E (readi ip off n)
    (fun t fs => ∃ ino', Inv { fs := fs, pending := update s.pending ip t } ino') s.fs
  := by
  have hcached : (s.fs.inode ip).Cached := ⟨hip.1, hvalid⟩
  have hsize := h.owned.size_le (h.live_of_cached hcached)
  rw [(h.cached ip hcached).1] at hsize
  simp only [Fs.readi, wp_bind, wp_get]
  split
  · exact ⟨ino, h.notEnter hip.pending⟩
  · split
    · exact ⟨ino, h.notEnter hip.pending⟩
    · rename_i hoff
      obtain ⟨hle, hadd⟩ := offset_le hoff
      split
      · have hsub : ((s.fs.inode ip).size - off).toNat
            = (s.fs.inode ip).size.toNat - off.toNat := by
          apply UInt32.toNat_sub_of_le
          rw [UInt32.le_iff_toNat_le]
          apply hle
        refine ⟨ino, h.enter hcached hip.pending rfl hle ?_ ?_⟩
        · simp only [hsub]
          omega
        · intro _
          simp only [hsub]
          omega
      · rename_i hn
        rw [gt_iff_lt, UInt32.lt_iff_toNat_lt] at hn
        refine ⟨ino, h.enter hcached hip.pending rfl hle ?_ ?_⟩
        · simp only
          omega
        · intro _
          simp only
          omega

theorem writei (src : Nat → UInt8) (off n : UInt32) :
  Wp E (writei ip src off n)
    (fun t fs => ∃ ino', Inv { fs := fs, pending := update s.pending ip t } ino') s.fs
  := by
  have hcached : (s.fs.inode ip).Cached := ⟨hip.1, hvalid⟩
  simp only [Fs.writei, wp_bind, wp_get]
  split
  · exact ⟨ino, h.notEnter hip.pending⟩
  · split
    · exact ⟨ino, h.notEnter hip.pending⟩
    · rename_i hoff
      obtain ⟨hle, hadd⟩ := offset_le hoff
      split
      · exact ⟨ino, h.notEnter hip.pending⟩
      · rename_i hn
        refine ⟨ino, h.enter hcached hip.pending rfl hle ?_ ?_⟩
        · simp only
          omega
        · intro hsrc
          cases hsrc

end

theorem holds (hip : (s.fs.inode ip).Cached) :
  Holds s.fs ip ino (s.fs.inode ip).inum.toNat
  := ⟨h.wf, h.owned, h.live_of_cached hip, (h.cached ip hip).1⟩

/-- The inode with a transfer in progress gets more blocks. -/
theorem extended
    (hip : (s.fs.inode ip).Cached) {fs : FileSys}
    (hext : Extends ip (s.fs.inode ip).inum.toNat s.fs ino fs ino') {t : Transfer}
    (ht : InProgress s.fs.sb ino' fs.disk (s.fs.inode ip).inum.toNat (fs.inode ip).toDinode t) :
  Inv { fs := fs, pending := update s.pending ip (some t) } ino'
  := by
  obtain ⟨-, htype, hdisk⟩ := h.cached ip hip
  have hentry := hext.grown.self
  have hdinode : ∀ j < s.fs.sb.ninodes.toNat,
      dinode s.fs.sb fs.disk j = dinode s.fs.sb s.fs.disk j := by
    intro j hj
    apply h.wf.dinode_congr hext.grown.below hj
  have hcached : (fs.inode ip).Cached := by
    rw [hentry]
    exact hip
  apply h.change ip (s.fs.inode ip).inum.toNat
  · exact hext.grown.sb
  · exact hext.grown.below 1 h.wf.lt_bmapstart
  · exact hext.grown.sb ▸ hext.holds.owned
  · exact hext.grown.others
  · intro k hk
    apply update_of_ne hk
  · rfl
  · exact hip.1
  · rw [hentry]
  · intro j hj _
    apply hdinode j hj
  · exact hext.other
  · intro p hp _ hp0
    apply hext.mono hp hp0
  · intro _
    refine ⟨hext.holds.copy, ?_, ?_, ?_⟩
    · rw [hentry]
      exact htype
    · rw [hdinode _ (h.bound ip hip.1)]
      exact hdisk
    · simp
  · intro hnot
    cases hnot hcached
  · intro t' ht'
    obtain rfl : t = t' := by
      simpa using ht'
    exact ⟨hcached, ht⟩

/-- The block at the offset has an address if nothing has to be allocated. -/
theorem mapped_of_le
    (hip : (s.fs.inode ip).Cached) {t : Transfer} (hlt : t.tot < t.n)
    (hle : t.off + (t.n - t.tot) ≤ (s.fs.inode ip).size.toNat) :
  Mapped ino s.fs.disk (s.fs.inode ip).inum.toNat (t.off / BSIZE)
  := by
  apply h.owned.noHole _ (h.live_of_cached hip)
  rw [(h.cached ip hip).1]
  have := Nat.div_mul_le_self t.off BSIZE
  omega

section

variable {t : Transfer} (ht : s.pending ip = some t)

include ht

/-- The indirect block is allocated. -/
theorem indirect
    (hlt : t.tot < t.n) (hoff : NDIRECT ≤ t.off / BSIZE) (hind : (s.fs.inode ip).ind = 0) :
  Wp (· = .outOfBlocks) (indirectBlock ip) (fun _ fs => ∃ ino', Inv { s with fs := fs } ino') s.fs
  := by
  obtain ⟨hip, hprog⟩ := h.pending ip t ht
  apply ((indirectBlock_spec (h.holds hip)).fail fun _ hf => hf.1).mono
  rintro _ fs ⟨⟨ino', hext⟩, -⟩
  use ino'
  have hinv := h.extended hip hext (t := t) ?_
  · rw [← ht, update_eq_self] at hinv
    exact hinv
  · have hentry := hext.grown.self
    refine ⟨hprog.tot_le, hprog.bound, ?_, ?_, ?_, ?_⟩
    · rw [hentry]
      exact hprog.read
    · rw [hentry]
      exact hprog.empty
    · intro k hk
      obtain ⟨p, hp, hne⟩ := hprog.mapped k hk
      use p, hp
      apply hext.mono _ hne
      rw [inum_of_placeOf hp]
      apply h.live_of_cached hip
    · intro hle
      -- an indirect block that is missing makes a hole
      rw [hentry] at hle
      obtain ⟨p, hp, hne⟩ := h.mapped_of_le hip hlt hle
      unfold placeOf at hp
      rw [dif_neg (by omega)] at hp
      split at hp
      · cases hp
        simp [addrAt, (h.cached ip hip).1, hind] at hne
      · cases hp

/-- A step of the loop of `readi` or `writei`. -/
theorem transfer (hlt : t.tot < t.n) :
  Wp (· = .outOfBlocks) (t.step ip)
    (fun t' fs => ∃ ino',
      Inv { fs := fs, pending := update s.pending ip (some t') } ino') s.fs
  := by
  obtain ⟨hip, hprog⟩ := h.pending ip t ht
  have hbound := hprog.bound
  have hoff : t.off / BSIZE < MAXFILE := by
    rw [Nat.div_lt_iff_lt_mul (by decide)]
    omega
  apply (Transfer.step_spec (h.holds hip) hoff).mono
  rintro t' fs ⟨ino', hext, hmapped, hsame, rfl⟩
  use ino'
  apply h.extended hip hext
  apply hprog.advance hlt
  · rw [hext.grown.self]
  · intro p hp hp0
    apply hext.mono _ hp0
    rw [hp]
    apply h.live_of_cached hip
  · apply hmapped
  · intro hle
    -- nothing was allocated, so the addresses are those on the disk
    rw [h.wf.dinode_congr hext.grown.below (h.bound ip hip.1), hsame (h.mapped_of_le hip hlt hle)]
    apply hprog.clean hle

/-- The end of `readi` or `writei`. -/
theorem finish (hge : ¬ t.tot < t.n) {E : Fault → Prop} :
  Wp E (t.finish ip)
    (fun _ fs => ∃ ino',
      Inv { fs := fs, pending := update s.pending ip none } ino') s.fs
  := by
  obtain ⟨hip, hprog⟩ := h.pending ip t ht
  obtain ⟨hcopy, htype, hdisk⟩ := h.cached ip hip
  have hbound := hprog.bound
  have hlt := h.bound ip hip.1
  simp only [Transfer.finish, wp_bind, wp_get]
  split
  · rename_i hgrow
    have hoff : (UInt32.ofNat t.off).toNat = t.off :=
      UInt32.toNat_ofNat_of_lt' ((Nat.le_add_right ..).trans_lt (hbound.trans_lt (by decide)))
    have hu : Updated ip (s.fs.inode ip).inum.toNat s.fs _ :=
      .iupdate h.wf (show (s.fs.modifyInode ip fun x => { x with size := .ofNat t.off }).sb
        = s.fs.sb from rfl) (fun _ _ => rfl) (fun k hk => FileSys.modifyInode_of_ne _ _ hk) hlt
        (by simp)
    have hinv := h.updated hu rfl hip (by simp) (by simpa using htype) ?_
    · simp only [wp_bind, wp_modify, iupdate]
      exact ⟨_, hinv⟩
    · simp only [FileSys.modifyInode_self, FileSys.modifyInode_sb, FileSys.modifyInode_disk]
      apply Owned.setDinode _ h.wf hlt
      rw [← hcopy]
      apply h.owned.setSize
      rw [hoff]
      apply hprog.mapped
  · rename_i hsame
    rw [wp_pure]
    use ino
    have hle : t.off ≤ (s.fs.inode ip).size.toNat := by
      by_contra hlt
      apply hsame
      have hread := hprog.read
      have hempty := hprog.empty
      refine ⟨?_, ?_, ?_⟩
      · by_contra hsrc
        have := hread (Option.not_isSome_iff_eq_none.mp hsrc)
        omega
      · omega
      · omega
    apply h.changePending hip
    · intro _
      apply hprog.clean
      omega
    · intro _ ht'
      cases ht'

end

end

end Inv

/-! ### Dropping references -/

namespace Inv

/-- A reference is dropped. -/
theorem drop (h : Inv s ino) (hip : s.Unlocked ip) :
  Inv { s with fs := s.fs.modifyInode ip fun x => { x with ref := x.ref - 1 } } ino
  := by
  have hinv := h.changeEntry hip.1 (fun x => { x with ref := x.ref - 1 }) (s.pending ip) rfl rfl
  rw [update_eq_self] at hinv
  apply hinv
  · rintro ⟨-, hvalid⟩
    have hcached : (s.fs.inode ip).Cached := ⟨hip.1, hvalid⟩
    obtain ⟨hcopy, htype, hdisk⟩ := h.cached ip hcached
    exact ⟨hcopy, htype, hdisk, h.clean ip hcached⟩
  · intro _
    by_cases hcached : (s.fs.inode ip).Cached
    · exact (h.cached ip hcached).1.trans (h.clean ip hcached hip.pending).symm
    · exact h.uncached_of_not hip.1 hcached
  · rw [hip.pending]
    simp

/-- An inode without blocks is freed on the disk and dropped from the cache. -/
theorem freed
    (h : Inv s ino) (hip : s.Unlocked ip) (hi : (s.fs.inode ip).inum.toNat = i) {fs fs' : FileSys}
    {x y : Dinode} (hu : Updated ip i s.fs fs)
    (howned : Owned s.fs.sb (update ino i x) fs.disk) (hx : ∀ k, x.addrs k = 0)
    (hy : ∀ k, y.addrs k = 0) (hsize : y.size = 0) (hsb : fs'.sb = s.fs.sb)
    (hdisk : fs'.disk = setDinode s.fs.sb fs.disk i y)
    (hothers : ∀ k, k ≠ ip → fs'.inode k = fs.inode k)
    (hinum : (fs'.inode ip).inum = (s.fs.inode ip).inum) (hnot : ¬ (fs'.inode ip).Cached) :
  Inv { s with fs := fs' } (update ino i y)
  := by
  have hlt : i < s.fs.sb.ninodes.toNat := by
    rw [← hi]
    apply h.bound ip hip.1
  apply h.change ip i
  · exact hsb
  · simp only [hdisk]
    exact (setDinode_of_ne (h.wf.lt_IBLOCK i).ne).trans hu.boot
  · simp only [hdisk]
    apply Owned.setDinode _ h.wf hlt
    have := howned.replaceEmpty (i := i) hy hsize
    rw [update_idem, update_self] at this
    apply this
    right
    apply hx
  · intro k hk
    rw [← hu.others k hk]
    apply hothers k hk
  · intro _ _
    rfl
  · exact hi
  · exact hip.1
  · exact hinum
  · intro j hj hji
    simp only [hdisk]
    rw [dinode_setDinode_of_ne hji, hu.dinodes j hj hji]
  · intro j hj
    rw [update_of_ne hj]
  · intro p hp hpi hp0
    simp only [hdisk]
    rw [← h.owned.addrAt_of_data hp hu.data] at hp0
    rw [h.owned.addrAt_setDinode h.wf hlt hp hpi]
    exact hp0
  · intro hcached
    cases hnot hcached
  · intro _
    simp only [hdisk, update_self, dinode_setDinode_self]
  · intro t ht
    cases hip.pending.symm.trans ht

theorem iput (h : Inv s ino) (hip : s.Unlocked ip) {E : Fault → Prop} :
  Wp E (iput ip) (fun _ fs => ∃ ino', Inv { s with fs := fs } ino') s.fs
  := by
  simp only [Fs.iput, wp_bind, wp_get]
  split
  · rename_i hlast
    have hcached : (s.fs.inode ip).Cached := ⟨hip.1, hlast.1⟩
    simp only [wp_bind, wp_modify, iupdate]
    apply (itrunc_spec (h.holds hcached) h.boot rfl).mono
    rintro _ fs ⟨hu, hself, howned⟩
    use update ino (s.fs.inode ip).inum.toNat
      { (s.fs.inode ip).toDinode with addrs := fun _ => 0, size := 0, type := 0 }
    apply h.freed hip rfl hu howned
    · intro _
      rfl
    · intro _
      rfl
    · rfl
    · exact hu.sb
    · simp [hself, hu.sb]
    · intro k hk
      simp [FileSys.modifyInode_of_ne _ _ hk]
    · simp [hself]
    · simp [Inode.Cached]
  · rw [wp_modify]
    exact ⟨ino, h.drop hip⟩

end Inv

theorem Inv.fine_step (h : Inv s ino) (l : BlockOp) :
  FineBlock (s.step l)
  := by
  cases l with
  | iget inum =>
    apply System.Outcome.guard
    intro hlt
    apply fine_after
    apply ((h.iget inum hlt).fail _).mono
    · intro _ fs hfs
      exact ⟨ino, hfs⟩
    · simp
  | idup ip =>
    apply System.Outcome.guard
    intro hip
    apply fine_after
    exact ⟨ino, h.idup hip⟩
  | ilock ip =>
    apply System.Outcome.guard
    intro hip
    apply fine_after
    apply ((h.ilock hip).fail _).mono
    · intro _ fs hfs
      exact ⟨ino, hfs⟩
    · simp
  | ialloc type =>
    apply System.Outcome.guard
    intro _
    apply fine_after
    apply (h.ialloc type).fail
    simp
  | setLinks ip major minor nlink =>
    apply System.Outcome.guard
    intro hip
    apply fine_after
    apply h.setLinks hip.1 hip.2
  | readi ip off n =>
    apply System.Outcome.guard
    intro hip
    apply fine_after
    apply h.readi hip.1 hip.2
  | writei ip src off n =>
    apply System.Outcome.guard
    intro hip
    apply fine_after
    apply h.writei hip.1 hip.2
  | transfer ip =>
    simp only [BlockSys.step]
    split
    · rename_i t ht
      split
      · rename_i hlt
        split
        · rename_i hind
          apply fine_after
          apply (h.indirect ht hlt hind.1 hind.2).fail
          simp
        · apply fine_after
          apply (h.transfer ht hlt).fail
          simp
      · rename_i hge
        apply fine_after
        apply h.finish ht hge
    · trivial
  | iput ip =>
    apply System.Outcome.guard
    intro hip
    apply fine_after
    apply h.iput hip

/-! ### Every run -/

/-- The inode `i` as the kernel sees it: the copy in the inode cache, or the inode on the disk. -/
def FileSys.inodeOf (s : FileSys) (i : Nat) : Dinode :=
  match (List.finRange NINODE).find? fun ip =>
      0 < (s.inode ip).ref ∧ (s.inode ip).valid = true ∧ (s.inode ip).inum.toNat = i with
  | some ip => (s.inode ip).toDinode
  | none => dinode s.sb s.disk i

theorem Inv.inodeOf (h : Inv s ino) {i : Nat} (hi : i < s.fs.sb.ninodes.toNat) :
  s.fs.inodeOf i = ino i
  := by
  rw [FileSys.inodeOf]
  split
  · rename_i ip hfind
    have hip := List.find?_some hfind
    simp only [decide_eq_true_eq] at hip
    obtain ⟨href, hvalid, rfl⟩ := hip
    rw [(h.cached ip ⟨href, hvalid⟩).1]
  · rename_i hnone
    symm
    apply h.uncached i hi
    rintro k ⟨href, hvalid⟩ heq
    have := List.find?_eq_none.mp hnone k (List.mem_finRange k)
    simp [href, hvalid, heq] at this

/-- The invariant depends on the inodes that exist. -/
theorem Owned.of_eq
    {sb : Superblock} {d : Disk} (h : Owned sb ino d)
    (hino : ∀ i < sb.ninodes.toNat, ino' i = ino i) :
  Owned sb ino' d
  := by
  apply h.congr
  · intro i
    apply and_congr_right
    intro hi
    rw [hino i hi]
  · intro p hp
    apply addrAt_congr
    · rw [hino _ hp.1]
    · intro _
      rfl
  · intro _ _
    rfl
  · intro i hi
    rw [hino i hi.1]

theorem reach_inv (h : blockSystem.Reachable s) :
  (∃ ino, Inv s ino) ∧
  ∀ l f, s.step l = some (.error f) → f ≠ .freeingFree ∧ f ≠ .bmapRange
  := by
  have hinit : ∀ s, blockSystem.init s → ∃ ino, Inv s ino := by
    intro s hs
    exact ⟨_, .booted hs⟩
  obtain ⟨hinv, hfault⟩ := h.outcome hinit (fun s l ⟨ino, hs⟩ _ => hs.fine_step l)
  use hinv
  intro l f hf
  apply not_or.mp (hfault l trivial f hf)

/-- In every reachable state, where an inode is the copy in the inode cache if there is one: every
address of an allocated inode is a data block marked in use; no block has two places; every data
block marked in use has one; no inode has a hole below its size; and an inode that is not being
written is the same in the cache and on the disk.  No operation panics with "freeing free block",
and `balloc` returns a data block that no inode uses. -/
theorem block_allocation (h : blockSystem.Reachable s) :
  (∀ p : Place, Live s.fs.sb s.fs.inodeOf p.inum → addrAt s.fs.inodeOf s.fs.disk p ≠ 0 →
    s.fs.sb.IsData (addrAt s.fs.inodeOf s.fs.disk p) ∧
    bit s.fs.sb s.fs.disk (addrAt s.fs.inodeOf s.fs.disk p) = true) ∧
  (∀ p q : Place, Live s.fs.sb s.fs.inodeOf p.inum → Live s.fs.sb s.fs.inodeOf q.inum →
    addrAt s.fs.inodeOf s.fs.disk p ≠ 0 →
    addrAt s.fs.inodeOf s.fs.disk p = addrAt s.fs.inodeOf s.fs.disk q → p = q) ∧
  (∀ b, s.fs.sb.IsData b → bit s.fs.sb s.fs.disk b = true →
    ∃ p : Place, Live s.fs.sb s.fs.inodeOf p.inum ∧ addrAt s.fs.inodeOf s.fs.disk p = b) ∧
  (∀ i, Live s.fs.sb s.fs.inodeOf i → ∀ k, k * BSIZE < (s.fs.inodeOf i).size.toNat →
    Mapped s.fs.inodeOf s.fs.disk i k) ∧
  (∀ ip, (s.fs.inode ip).Cached → s.pending ip = none →
    dinode s.fs.sb s.fs.disk (s.fs.inode ip).inum.toNat = (s.fs.inode ip).toDinode) ∧
  (∀ l, s.step l ≠ some (.error .freeingFree)) ∧
  (∀ b fs, balloc s.fs = .ok (b, fs) → s.fs.sb.IsData b.toNat ∧
    ∀ p : Place, Live s.fs.sb s.fs.inodeOf p.inum →
      addrAt s.fs.inodeOf s.fs.disk p ≠ b.toNat)
  := by
  obtain ⟨⟨ino, hinv⟩, hfault⟩ := reach_inv h
  have howned : Owned s.fs.sb s.fs.inodeOf s.fs.disk := by
    apply hinv.owned.of_eq
    intro i hi
    apply hinv.inodeOf hi
  and_intros
  · intro p hp hne
    apply howned.used_of_live hp hne
  · intro p q hp hq hne heq
    apply howned.place_eq hp hq hne heq
  · intro b hb hbit
    obtain ⟨p, hp, hpb⟩ := howned.bij.surjOn ⟨hb, hbit⟩
    use p, hp.1
  · exact howned.noHole
  · exact hinv.clean
  · intro l hl
    apply (hfault l _ hl).1 rfl
  · intro b fs hb
    have hspec := balloc_spec s.fs
    rw [Wp, hb] at hspec
    obtain ⟨b, hlt, hfree, rfl, -⟩ := hspec
    have hdata := howned.isData_of_free hlt hfree
    rw [toNat_ofNat_of_lt hlt]
    use hdata
    intro p hp heq
    apply howned.addrAt_ne_of_free hfree hp _ heq
    rw [heq]
    apply hinv.wf.ne_zero hdata

end

/-- The superblock of a disk of 40 blocks with room for 8 inodes. -/
def smallSb : Superblock :=
  ⟨40, 34, 8, 0, 2, 2, 4⟩

/-- A disk without inodes. -/
def smallDisk : Disk
  | 1 => Block.zero.setWords 0 7 fun k => [40, 34, 8, 0, 2, 2, 4].getD k 0
  | 4 => Block.zero.modifyByte 0 fun _ => 63
  | _ => Block.zero

/-- A file system just booted on this disk. -/
def smallSys : BlockSys where
  fs :=
    { sb := smallSb, disk := smallDisk,
      inode := fun _ => ⟨⟨0, 0, 0, 0, 0, fun _ => 0⟩, 0, 0, false⟩ }
  pending := fun _ => none

/-- A file system without inodes, in which the free map marks the metadata only, just booted. -/
theorem booted_of_blank
    {s : BlockSys} (hwf : s.fs.sb.Wf) (hboot : readsb s.fs.disk = s.fs.sb)
    (hbit : ∀ b < s.fs.sb.size.toNat, bit s.fs.sb s.fs.disk b = decide (b < s.fs.sb.datastart))
    (hfree : ∀ i < s.fs.sb.ninodes.toNat, (dinode s.fs.sb s.fs.disk i).type = 0)
    (href : ∀ ip, (s.fs.inode ip).ref = 0) (hpending : ∀ ip, s.pending ip = none) :
  s.Booted
  := by
  have hlive : ∀ i, ¬ Live s.fs.sb (dinode s.fs.sb s.fs.disk) i := by
    rintro i ⟨hi, htype⟩
    apply htype (hfree i hi)
  refine ⟨hwf, hboot, ⟨?_, ?_, ?_⟩, href, hpending⟩
  · have hrefs : refs s.fs.sb (dinode s.fs.sb s.fs.disk) s.fs.disk = ∅ := by
      ext p
      simp [refs, hlive]
    have hused : used s.fs.sb s.fs.disk = ∅ := by
      ext b
      simp only [used, Set.mem_ofPred_eq, Set.mem_empty_iff_false, iff_false, not_and]
      rintro ⟨hge, hlt⟩ hb
      rw [hbit b hlt, decide_eq_true_eq] at hb
      exact absurd hge (Nat.not_le.mpr hb)
    rw [hrefs, hused]
    apply Set.bijOn_empty
  · intro b hb
    rw [hbit b (hb.trans_le (Nat.sub_le ..))]
    exact decide_eq_true hb
  · intro i hi
    cases hlive i hi

theorem booted_smallSys :
  smallSys.Booted
  := by
  apply booted_of_blank
  · constructor <;> decide
  · decide +kernel
  · decide +kernel
  · decide +kernel
  · intro _
    rfl
  · intro _
    rfl

/-- A file of two blocks is written. -/
theorem block_allocation_after_writei :
  ∃ s, blockSystem.run smallSys
      [.ialloc 2, .ilock 0, .setLinks 0 0 0 1, .writei 0 (fun _ => 7) 0 513, .transfer 0,
        .transfer 0, .transfer 0] = some s ∧
    (s.fs.inodeOf 1).size = 513 ∧
    ∀ p q : Place, Live s.fs.sb s.fs.inodeOf p.inum → Live s.fs.sb s.fs.inodeOf q.inum →
      addrAt s.fs.inodeOf s.fs.disk p ≠ 0 →
      addrAt s.fs.inodeOf s.fs.disk p = addrAt s.fs.inodeOf s.fs.disk q → p = q
  := by
  obtain ⟨s, hs, hreach, hsize⟩ := System.exists_of_run blockSystem booted_smallSys
    [.ialloc 2, .ilock 0, .setLinks 0 0 0 1, .writei 0 (fun _ => 7) 0 513, .transfer 0,
      .transfer 0, .transfer 0] (fun s => (s.fs.inodeOf 1).size = 513) (by decide +kernel)
  exact ⟨s, hs, hsize, (block_allocation hreach).2.1⟩

end Xv6.Fs
