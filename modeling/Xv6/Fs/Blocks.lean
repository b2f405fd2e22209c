import Xv6.Lib.Transition
import Xv6.Fs.Alloc

/-!
# Runs of block operations

The operations on inodes that file-system calls make, in any order.  The loops of `readi` and
`writei` take one step per block, between which there may be operations on other inodes: an
inode with such a loop in progress is locked.
-/

namespace Xv6.Fs

open Function

/-- The file system and the `readi` or `writei` in progress on each entry of the inode cache. -/
structure BlockSys where
  fs : FileSys
  pending : Slot → Option Transfer

/-- The operations. -/
inductive BlockOp where
  | iget (inum : UInt32)
  | idup (ip : Slot)
  | ilock (ip : Slot)
  | ialloc (type : Int16)
  /-- Assignments to `major`, `minor` and `nlink` of a locked inode, and `iupdate`. -/
  | setLinks (ip : Slot) (major minor nlink : Int16)
  | readi (ip : Slot) (off n : UInt32)
  | writei (ip : Slot) (src : Nat → UInt8) (off n : UInt32)
  /-- The next step of the loop of `readi` or `writei`, or its end.  The allocation of an indirect
  block is a step of its own, so that no step allocates two blocks. -/
  | transfer (ip : Slot)
  | iput (ip : Slot)

namespace BlockSys

variable (s : BlockSys)

/-- The entry is referenced and its lock is free. -/
def Unlocked (ip : Slot) : Prop :=
  0 < (s.fs.inode ip).ref ∧ (s.pending ip).isNone

instance (ip : Slot) : Decidable (s.Unlocked ip) :=
  inferInstanceAs (Decidable (_ ∧ _))

variable {s} in
theorem Unlocked.pending {ip : Slot} (h : s.Unlocked ip) :
  s.pending ip = none
  := Option.isNone_iff_eq_none.mp h.2

/-- Run a computation on the file system. -/
def after {α : Type} (x : FsM α) (f : α → FileSys → BlockSys) : Option (Except Fault BlockSys) :=
  match x s.fs with
  | .ok (a, fs) => some (.ok (f a fs))
  | .error e => some (.error e)

/-- One operation.  An inode number comes from a directory, and an inode is read and written when
it has been locked, so that it is valid. -/
def step : BlockOp → Option (Except Fault BlockSys)
  | .iget inum =>
      if inum.toNat < s.fs.sb.ninodes.toNat then
        s.after (iget inum) fun _ fs => { s with fs := fs }
      else none
  | .idup ip =>
      if 0 < (s.fs.inode ip).ref then s.after (idup ip) fun _ fs => { s with fs := fs }
      else none
  | .ilock ip =>
      if s.Unlocked ip then s.after (ilock ip) fun _ fs => { s with fs := fs }
      else none
  | .ialloc type =>
      if type ≠ 0 then s.after (ialloc type) fun _ fs => { s with fs := fs }
      else none
  | .setLinks ip major minor nlink =>
      if s.Unlocked ip ∧ (s.fs.inode ip).valid = true then
        s.after (do
          modify fun s => s.modifyInode ip fun x =>
            { x with major := major, minor := minor, nlink := nlink }
          iupdate ip) fun _ fs => { s with fs := fs }
      else none
  | .readi ip off n =>
      if s.Unlocked ip ∧ (s.fs.inode ip).valid = true then
        s.after (readi ip off n) fun t fs =>
          { fs := fs, pending := Function.update s.pending ip t }
      else none
  | .writei ip src off n =>
      if s.Unlocked ip ∧ (s.fs.inode ip).valid = true then
        s.after (writei ip src off n) fun t fs =>
          { fs := fs, pending := Function.update s.pending ip t }
      else none
  | .transfer ip =>
      match s.pending ip with
      | some t =>
          if t.tot < t.n then
            if NDIRECT ≤ t.off / BSIZE ∧ (s.fs.inode ip).ind = 0 then
              s.after (indirectBlock ip) fun _ fs => { s with fs := fs }
            else
              s.after (t.step ip) fun t fs =>
                { fs := fs, pending := Function.update s.pending ip (some t) }
          else
            s.after (t.finish ip) fun _ fs =>
              { fs := fs, pending := Function.update s.pending ip none }
      | none => none
  | .iput ip =>
      if s.Unlocked ip then s.after (iput ip) fun _ fs => { s with fs := fs }
      else none

end BlockSys

/-- A file system just booted on a disk whose free map marks exactly the metadata and the blocks
of inodes, on which no block has two references and no inode has a hole. -/
structure BlockSys.Booted (s : BlockSys) : Prop where
  wf : s.fs.sb.Wf
  sb : readsb s.fs.disk = s.fs.sb
  owned : Owned s.fs.sb (dinode s.fs.sb s.fs.disk) s.fs.disk
  cache : ∀ ip, (s.fs.inode ip).ref = 0
  pending : ∀ ip, s.pending ip = none

/-- The block operations as a transition system. -/
def blockSystem : System BlockSys BlockOp Fault where
  init := BlockSys.Booted
  step := BlockSys.step

/-! ### References -/

/-- The entry that `iget` recycles. -/
def FileSys.firstFree (s : FileSys) : Option Slot :=
  (List.finRange NINODE).find? fun ip => (s.inode ip).ref = 0

/-- The state after `iget` found or made the entry `ip` for the inode number `inum`. -/
inductive Got (s : FileSys) (inum : UInt32) (ip : Slot) : FileSys → Prop where
  | hit (href : 0 < (s.inode ip).ref) (hinum : (s.inode ip).inum = inum) :
      Got s inum ip (s.modifyInode ip fun x => { x with ref := x.ref + 1 })
  | miss (hmiss : ∀ k, 0 < (s.inode k).ref → (s.inode k).inum ≠ inum)
      (href : (s.inode ip).ref = 0) (hfirst : s.firstFree = some ip) :
      Got s inum ip (s.modifyInode ip fun x => { x with inum := inum, ref := 1, valid := false })

theorem iget_spec (s : FileSys) (inum : UInt32) :
  Wp (fun f => f = .iget ∧ ∀ k, (s.inode k).ref ≠ 0) (iget inum) (Got s inum) s
  := by
  rw [iget, wp_bind, wp_get]
  split
  · rename_i ip hfind
    have hip := List.find?_some hfind
    rw [decide_eq_true_iff] at hip
    exact .hit hip.1 hip.2
  · rename_i hnone
    rw [List.find?_eq_none] at hnone
    split
    · rename_i ip hfind
      refine .miss ?_ (of_decide_eq_true (List.find?_some hfind :)) hfind
      intro k href heq
      exact hnone k (List.mem_finRange k) (decide_eq_true ⟨href, heq⟩)
    · rename_i hfind
      rw [List.find?_eq_none] at hfind
      refine ⟨rfl, ?_⟩
      intro k hk
      exact hfind k (List.mem_finRange k) (decide_eq_true hk)

/-! ### The invariant -/

/-- The entry of the inode cache holds a copy of an inode. -/
def Inode.Cached (x : Inode) : Prop :=
  0 < x.ref ∧ x.valid = true

/-- A `readi` or `writei` in progress on the inode `i` with the copy `x` in the cache: the blocks
before the offset have addresses, and addresses not yet on the disk are followed by a larger
size. -/
structure InProgress (sb : Superblock) (ino : Nat → Dinode) (d : Disk) (i : Nat) (x : Dinode)
    (t : Transfer) : Prop where
  tot_le : t.tot ≤ t.n
  bound : t.off + (t.n - t.tot) ≤ MAXFILE * BSIZE
  read : t.src = none → t.off + (t.n - t.tot) ≤ x.size.toNat
  empty : t.n = 0 → t.off ≤ x.size.toNat
  mapped : ∀ k, k * BSIZE < t.off → Mapped ino d i k
  clean : t.off + (t.n - t.tot) ≤ x.size.toNat → dinode sb d i = x

/-- The invariant, where `ino` are the inodes: the copies in the cache, and otherwise the inodes
on the disk. -/
structure Inv (s : BlockSys) (ino : Nat → Dinode) : Prop where
  wf : s.fs.sb.Wf
  boot : readsb s.fs.disk = s.fs.sb
  owned : Owned s.fs.sb ino s.fs.disk
  bound : ∀ k, 0 < (s.fs.inode k).ref → (s.fs.inode k).inum.toNat < s.fs.sb.ninodes.toNat
  unique : ∀ k k', 0 < (s.fs.inode k).ref → 0 < (s.fs.inode k').ref →
    (s.fs.inode k).inum = (s.fs.inode k').inum → k = k'
  cached : ∀ k, (s.fs.inode k).Cached →
    ino (s.fs.inode k).inum.toNat = (s.fs.inode k).toDinode ∧ (s.fs.inode k).type ≠ 0 ∧
    (dinode s.fs.sb s.fs.disk (s.fs.inode k).inum.toNat).type ≠ 0
  uncached : ∀ i < s.fs.sb.ninodes.toNat,
    (∀ k, (s.fs.inode k).Cached → (s.fs.inode k).inum.toNat ≠ i) →
    ino i = dinode s.fs.sb s.fs.disk i
  clean : ∀ k, (s.fs.inode k).Cached → s.pending k = none →
    dinode s.fs.sb s.fs.disk (s.fs.inode k).inum.toNat = (s.fs.inode k).toDinode
  pending : ∀ k t, s.pending k = some t → (s.fs.inode k).Cached ∧
    InProgress s.fs.sb ino s.fs.disk (s.fs.inode k).inum.toNat (s.fs.inode k).toDinode t

theorem Inv.booted {s : BlockSys} (h : s.Booted) :
  Inv s (dinode s.fs.sb s.fs.disk)
  := by
  have hnone : ∀ k, ¬ 0 < (s.fs.inode k).ref := by
    intro k
    rw [h.cache k]
    omega
  constructor
  · apply h.wf
  · apply h.sb
  · apply h.owned
  · intro k hk
    cases hnone k hk
  · intro k _ hk
    cases hnone k hk
  · intro k hk
    cases hnone k hk.1
  · intro _ _ _
    rfl
  · intro k hk
    cases hnone k hk.1
  · intro k t ht
    rw [h.pending k] at ht
    cases ht

section

variable {s s' : BlockSys} {ino ino' : Nat → Dinode} {ip : Slot} {i : Nat}

/-- A transfer goes on when its inode keeps its copy and its blocks. -/
theorem InProgress.congr
    {sb : Superblock} {d d' : Disk} {x : Dinode} {t : Transfer} (h : InProgress sb ino d i x t)
    (hdinode : dinode sb d' i = dinode sb d i)
    (haddr : ∀ p : Place, p.inum = i → addrAt ino d p ≠ 0 → addrAt ino' d' p ≠ 0) :
  InProgress sb ino' d' i x t
  := by
  refine ⟨h.tot_le, h.bound, h.read, h.empty, ?_, ?_⟩
  · intro k hk
    obtain ⟨p, hp, hne⟩ := h.mapped k hk
    use p, hp
    apply haddr p (inum_of_placeOf hp) hne
  · rw [hdinode]
    apply h.clean

namespace Inv

section

variable (h : Inv s ino)

include h

theorem live_of_cached {k : Slot} (hk : (s.fs.inode k).Cached) :
  Live s.fs.sb ino (s.fs.inode k).inum.toNat
  := by
  use h.bound k hk.1
  rw [(h.cached k hk).1]
  apply (h.cached k hk).2.1

/-- A change of the inode in an entry in use. -/
theorem change
    (ip : Slot) (i : Nat) (hsb : s'.fs.sb = s.fs.sb) (hboot : s'.fs.disk 1 = s.fs.disk 1)
    (howned : Owned s.fs.sb ino' s'.fs.disk)
    (hothers : ∀ k, k ≠ ip → s'.fs.inode k = s.fs.inode k)
    (hpending : ∀ k, k ≠ ip → s'.pending k = s.pending k)
    (hi : (s.fs.inode ip).inum.toNat = i) (hip : 0 < (s.fs.inode ip).ref)
    (hinum : (s'.fs.inode ip).inum = (s.fs.inode ip).inum)
    (hdinode : ∀ j < s.fs.sb.ninodes.toNat, j ≠ i →
      dinode s.fs.sb s'.fs.disk j = dinode s.fs.sb s.fs.disk j)
    (hino : ∀ j, j ≠ i → ino' j = ino j)
    (haddr : ∀ p : Place, Live s.fs.sb ino p.inum → p.inum ≠ i →
      addrAt ino s.fs.disk p ≠ 0 → addrAt ino' s'.fs.disk p ≠ 0)
    (hself : (s'.fs.inode ip).Cached → ino' i = (s'.fs.inode ip).toDinode ∧
      (s'.fs.inode ip).type ≠ 0 ∧ (dinode s.fs.sb s'.fs.disk i).type ≠ 0 ∧
      (s'.pending ip = none → dinode s.fs.sb s'.fs.disk i = (s'.fs.inode ip).toDinode))
    (huncached : ¬ (s'.fs.inode ip).Cached → ino' i = dinode s.fs.sb s'.fs.disk i)
    (hprogress : ∀ t, s'.pending ip = some t → (s'.fs.inode ip).Cached ∧
      InProgress s.fs.sb ino' s'.fs.disk i (s'.fs.inode ip).toDinode t) :
  Inv s' ino'
  := by
  have hne : ∀ k, k ≠ ip → 0 < (s.fs.inode k).ref → (s.fs.inode k).inum.toNat ≠ i := by
    intro k hk href heq
    rw [← hi] at heq
    apply hk (h.unique k ip href hip (UInt32.toNat_inj.mp heq))
  have hi' : (s'.fs.inode ip).inum.toNat = i := by
    rw [hinum, hi]
  have hlt : i < s.fs.sb.ninodes.toNat := by
    rw [← hi]
    apply h.bound ip hip
  constructor
  · rw [hsb]
    apply h.wf
  · rw [hsb, ← h.boot]
    apply readsb_congr hboot
  · rw [hsb]
    apply howned
  · intro k hk
    rcases eq_or_ne k ip with rfl | hkp
    · rw [hsb, hi']
      apply hlt
    · rw [hothers k hkp] at hk ⊢
      rw [hsb]
      apply h.bound k hk
  · intro k k' hk hk' heq
    rcases eq_or_ne k ip with rfl | hkp
    · rcases eq_or_ne k' k with rfl | hkp'
      · rfl
      · rw [hothers k' hkp'] at hk' heq
        rw [hinum] at heq
        apply h.unique k k' hip hk' heq
    · rw [hothers k hkp] at hk heq
      rcases eq_or_ne k' ip with rfl | hkp'
      · rw [hinum] at heq
        apply h.unique k k' hk hip heq
      · rw [hothers k' hkp'] at hk' heq
        apply h.unique k k' hk hk' heq
  · intro k hk
    rw [hsb]
    rcases eq_or_ne k ip with rfl | hkp
    · rw [hi']
      obtain ⟨hcopy, htype, hdisk, -⟩ := hself hk
      use hcopy, htype
    · rw [hothers k hkp] at hk ⊢
      rw [hino _ (hne k hkp hk.1), hdinode _ (h.bound k hk.1) (hne k hkp hk.1)]
      apply h.cached k hk
  · intro j hj hnone
    rw [hsb] at hj ⊢
    rcases eq_or_ne j i with rfl | hji
    · apply huncached
      intro hk
      apply hnone ip hk hi'
    · rw [hino j hji, hdinode j hj hji]
      apply h.uncached j hj
      intro k hk
      rcases eq_or_ne k ip with rfl | hkp
      · rw [hi]
        apply hji.symm
      · have := hnone k
        rw [hothers k hkp] at this
        apply this hk
  · intro k hk hp
    rw [hsb]
    rcases eq_or_ne k ip with rfl | hkp
    · rw [hi']
      apply (hself hk).2.2.2 hp
    · rw [hothers k hkp] at hk ⊢
      rw [hpending k hkp] at hp
      rw [hdinode _ (h.bound k hk.1) (hne k hkp hk.1)]
      apply h.clean k hk hp
  · intro k t ht
    rw [hsb]
    rcases eq_or_ne k ip with rfl | hkp
    · rw [hi']
      apply hprogress t ht
    · rw [hothers k hkp]
      rw [hpending k hkp] at ht
      obtain ⟨hk, hprog⟩ := h.pending k t ht
      use hk
      apply hprog.congr (hdinode _ (h.bound k hk.1) (hne k hkp hk.1))
      intro p hp
      apply haddr p
      · rw [hp]
        apply h.live_of_cached hk
      · rw [hp]
        apply hne k hkp hk.1

/-- A change of an entry in use that keeps the disk and the inodes. -/
theorem changeEntry
    (hip : 0 < (s.fs.inode ip).ref) (f : Inode → Inode) (t : Option Transfer)
    {x : Inode} (hx : f (s.fs.inode ip) = x) (hinum : x.inum = (s.fs.inode ip).inum)
    (hself : x.Cached → ino x.inum.toNat = x.toDinode ∧ x.type ≠ 0 ∧
      (dinode s.fs.sb s.fs.disk x.inum.toNat).type ≠ 0 ∧
      (t = none → dinode s.fs.sb s.fs.disk x.inum.toNat = x.toDinode))
    (huncached : ¬ x.Cached → ino x.inum.toNat = dinode s.fs.sb s.fs.disk x.inum.toNat)
    (hprogress : ∀ t' ∈ t, x.Cached ∧
      InProgress s.fs.sb ino s.fs.disk x.inum.toNat x.toDinode t') :
  Inv { fs := s.fs.modifyInode ip f, pending := update s.pending ip t } ino
  := by
  subst hx
  apply h.change ip (f (s.fs.inode ip)).inum.toNat
  · rfl
  · rfl
  · apply h.owned
  · intro k hk
    apply s.fs.modifyInode_of_ne f hk
  · intro k hk
    apply update_of_ne hk
  · rw [hinum]
  · apply hip
  · simpa using hinum
  · intro _ _ _
    rfl
  · intro _ _
    rfl
  · intro _ _ _ hp
    apply hp
  · simpa using hself
  · simpa using huncached
  · simpa using hprogress

/-- A transfer begins or ends. -/
theorem changePending
    (hip : (s.fs.inode ip).Cached) {t : Option Transfer}
    (hclean : t = none →
      dinode s.fs.sb s.fs.disk (s.fs.inode ip).inum.toNat = (s.fs.inode ip).toDinode)
    (hprogress : ∀ t' ∈ t, InProgress s.fs.sb ino s.fs.disk (s.fs.inode ip).inum.toNat
      (s.fs.inode ip).toDinode t') :
  Inv { s with pending := update s.pending ip t } ino
  := by
  obtain ⟨hcopy, htype, hdisk⟩ := h.cached ip hip
  have hsame : s.fs.modifyInode ip id = s.fs := by
    simp [FileSys.modifyInode]
  have hinv := h.changeEntry hip.1 id t rfl rfl
  rw [hsame] at hinv
  apply hinv
  · intro _
    exact ⟨hcopy, htype, hdisk, hclean⟩
  · intro hnot
    cases hnot hip
  · intro t' ht'
    exact ⟨hip, hprogress t' ht'⟩

end

end Inv

/-- A step keeps the invariant, or it fails otherwise than by a wrong block number. -/
abbrev FineBlock : Option (Except Fault BlockSys) → Prop :=
  System.Outcome (fun f => f = .freeingFree ∨ f = .bmapRange) (fun s => ∃ ino, Inv s ino)

theorem fine_after
    {α : Type} {x : FsM α} {f : α → FileSys → BlockSys}
    (h : Wp (fun f => f ≠ .freeingFree ∧ f ≠ .bmapRange) x
      (fun a fs => ∃ ino, Inv (f a fs) ino) s.fs) :
  FineBlock (s.after x f)
  := by
  unfold Wp at h
  unfold BlockSys.after
  split at h
  · rename_i a fs hx
    rw [hx]
    apply h
  · rename_i e hx
    rw [hx]
    apply not_or.mpr h

namespace Inv

section

variable (h : Inv s ino)

include h

/-- The entries in use that hold no copy show the inode on the disk. -/
theorem uncached_of_not {k : Slot} (hk : 0 < (s.fs.inode k).ref) (hnot : ¬ (s.fs.inode k).Cached) :
  ino (s.fs.inode k).inum.toNat = dinode s.fs.sb s.fs.disk (s.fs.inode k).inum.toNat
  := by
  apply h.uncached _ (h.bound k hk)
  intro k' hk' heq
  obtain rfl := h.unique k' k hk'.1 hk (UInt32.toNat_inj.mp heq)
  apply hnot hk'

/-- One more reference. -/
theorem idup (hip : 0 < (s.fs.inode ip).ref) :
  Inv { s with fs := s.fs.modifyInode ip fun x => { x with ref := x.ref + 1 } } ino
  := by
  have hcached : { s.fs.inode ip with ref := (s.fs.inode ip).ref + 1 }.Cached ↔
      (s.fs.inode ip).Cached :=
    and_congr_left fun _ => iff_of_true (Int.lt_add_one_of_le hip.le) hip
  have hinv := h.changeEntry hip (fun x => { x with ref := x.ref + 1 }) (s.pending ip) rfl rfl
  rw [update_eq_self] at hinv
  apply hinv
  · rw [hcached]
    intro hc
    obtain ⟨hcopy, htype, hdisk⟩ := h.cached ip hc
    use hcopy, htype, hdisk
    apply h.clean ip hc
  · rw [hcached]
    apply h.uncached_of_not hip
  · rw [hcached]
    apply h.pending ip

/-- An entry that is not in use gets another inode, which no entry in use has. -/
theorem recycle
    {inum : UInt32} (hlt : inum.toNat < s.fs.sb.ninodes.toNat)
    (hip : (s.fs.inode ip).ref = 0) (hnone : ∀ k, 0 < (s.fs.inode k).ref →
      (s.fs.inode k).inum ≠ inum) :
  Inv { s with fs := s.fs.modifyInode ip fun x =>
    { x with inum := inum, ref := 1, valid := false } } ino
  := by
  have hself : ¬ ((s.fs.modifyInode ip fun x =>
      { x with inum := inum, ref := 1, valid := false }).inode ip).Cached := by
    simp [Inode.Cached]
  have hother : ∀ k, 0 < (s.fs.inode k).ref → k ≠ ip := by
    rintro k hk rfl
    omega
  have hentry : ∀ k, k = ip ∨ (s.fs.modifyInode ip fun x =>
      { x with inum := inum, ref := 1, valid := false }).inode k = s.fs.inode k :=
    fun _ => or_iff_not_imp_left.mpr (FileSys.modifyInode_of_ne _ _)
  refine ⟨h.wf, h.boot, h.owned, ?_, ?_, ?_, ?_, ?_, ?_⟩
  · intro k hk
    rcases hentry k with rfl | he
    · simpa using hlt
    · rw [he] at hk ⊢
      apply h.bound k hk
  · intro k k' hk hk' heq
    rcases hentry k with rfl | he
    · rcases hentry k' with rfl | he'
      · rfl
      · rw [he'] at hk' heq
        cases hnone k' hk' (by simpa using heq.symm)
    · rw [he] at hk heq
      rcases hentry k' with rfl | he'
      · cases hnone k hk (by simpa using heq)
      · rw [he'] at hk' heq
        apply h.unique k k' hk hk' heq
  · intro k hk
    rcases hentry k with rfl | he
    · cases hself hk
    · rw [he] at hk ⊢
      apply h.cached k hk
  · intro i hi hnot
    apply h.uncached i hi
    intro k hk
    have := hnot k
    rw [FileSys.modifyInode_of_ne _ _ (hother k hk.1)] at this
    apply this hk
  · intro k hk
    rcases hentry k with rfl | he
    · cases hself hk
    · rw [he] at hk ⊢
      apply h.clean k hk
  · intro k t ht
    obtain ⟨hk, hprog⟩ := h.pending k t ht
    rw [FileSys.modifyInode_of_ne _ _ (hother k hk.1)]
    use hk
    apply hprog

theorem iget (inum : UInt32) (hlt : inum.toNat < s.fs.sb.ninodes.toNat) :
  Wp (· = .iget) (iget inum) (fun _ fs => Inv { s with fs := fs } ino) s.fs
  := by
  apply ((iget_spec s.fs inum).fail fun _ hf => hf.1).mono
  intro ip fs hgot
  cases hgot with
  | hit href _ => apply h.idup href
  | miss hmiss href => apply h.recycle hlt href hmiss

/-- A free inode on the disk becomes an empty one. -/
theorem allocate
    (hi : i < s.fs.sb.ninodes.toNat) (hfree : (dinode s.fs.sb s.fs.disk i).type = 0) {x : Dinode}
    (hx : ∀ k, x.addrs k = 0) (hsize : x.size = 0) :
  Inv { s with fs := { s.fs with disk := setDinode s.fs.sb s.fs.disk i x } }
    (update ino i x)
  := by
  have hne : ∀ k, (s.fs.inode k).Cached → (s.fs.inode k).inum.toNat ≠ i := by
    rintro k hk rfl
    apply (h.cached k hk).2.2 hfree
  have hino : (ino i).type = 0 := by
    rw [h.uncached i hi hne, hfree]
  constructor
  · apply h.wf
  · apply (readsb_congr _).trans h.boot
    apply setDinode_of_ne (h.wf.lt_IBLOCK i).ne
  · apply Owned.setDinode _ h.wf hi
    apply h.owned.replaceEmpty hx hsize (Or.inl hino)
  · apply h.bound
  · apply h.unique
  · intro k hk
    rw [update_of_ne (hne k hk), dinode_setDinode_of_ne (hne k hk)]
    apply h.cached k hk
  · intro j hj hnone
    rcases eq_or_ne j i with rfl | hji
    · simp
    · rw [update_of_ne hji, dinode_setDinode_of_ne hji]
      apply h.uncached j hj hnone
  · intro k hk hp
    rw [dinode_setDinode_of_ne (hne k hk)]
    apply h.clean k hk hp
  · intro k t ht
    obtain ⟨hk, hprog⟩ := h.pending k t ht
    use hk
    apply hprog.congr (dinode_setDinode_of_ne (hne k hk))
    intro p hp hp0
    rw [h.owned.addrAt_setDinode h.wf hi (hp ▸ h.live_of_cached hk) (hp ▸ hne k hk)]
    apply hp0

theorem ialloc (type : Int16) :
  Wp (fun f => f = .ialloc ∨ f = .iget) (ialloc type)
    (fun _ fs => ∃ ino', Inv { s with fs := fs } ino') s.fs
  := by
  simp only [Fs.ialloc, wp_bind, wp_get]
  split
  · rename_i inum hfind
    have hfree := List.find?_some hfind
    simp only [decide_eq_true_eq] at hfree
    have hlt := List.mem_range.mp (List.mem_of_find?_eq_some hfind)
    have hinum : (UInt32.ofNat inum).toNat = inum :=
      UInt32.toNat_ofNat_of_lt' (hlt.trans s.fs.sb.ninodes.toNat_lt)
    simp only [wp_bind, wp_modify]
    have h' := h.allocate hlt hfree.2 (x := ⟨type, 0, 0, 0, 0, fun _ => 0⟩) (fun _ => rfl) rfl
    apply ((h'.iget (.ofNat inum) (by rw [hinum]; exact hlt)).fail fun _ => .inr).mono
    intro _ fs hfs
    exact ⟨_, hfs⟩
  · simp

theorem ilock (hip : s.Unlocked ip) :
  Wp (fun f => f = .ilock ∨ f = .noType) (ilock ip) (fun _ fs => Inv { s with fs := fs } ino) s.fs
  := by
  simp only [Fs.ilock, wp_bind, wp_get]
  split
  · simp
  · split
    · rename_i hvalid
      simp only [wp_bind, wp_modify, wp_get, FileSys.modifyInode_self]
      split
      · simp
      · rename_i htype
        rw [wp_pure]
        have hino := h.uncached_of_not hip.1 (by simp [Inode.Cached, hvalid])
        have hinv := h.changeEntry hip.1 (fun x =>
          { x with toDinode := dinode s.fs.sb s.fs.disk x.inum.toNat, valid := true })
          (s.pending ip) rfl rfl
        rw [update_eq_self] at hinv
        apply hinv
        · intro _
          exact ⟨hino, htype, htype, fun _ => rfl⟩
        · intro _
          apply hino
        · rw [hip.pending]
          simp
    · rw [wp_pure]
      apply h

/-- The inode in an entry in use is changed and copied to the disk. -/
theorem updated
    {fs : FileSys} (hu : Updated ip i s.fs fs) (hi : (s.fs.inode ip).inum.toNat = i)
    (hip : (s.fs.inode ip).Cached) (hinum : (fs.inode ip).inum = (s.fs.inode ip).inum)
    (htype : (fs.inode ip).type ≠ 0)
    (howned : Owned s.fs.sb (update ino i (fs.inode ip).toDinode) fs.disk) :
  Inv { fs := fs, pending := update s.pending ip none }
    (update ino i (fs.inode ip).toDinode)
  := by
  apply h.change ip i
  · exact hu.sb
  · exact hu.boot
  · exact howned
  · exact hu.others
  · intro k hk
    apply update_of_ne hk
  · exact hi
  · exact hip.1
  · exact hinum
  · exact hu.dinodes
  · intro j hj
    rw [update_of_ne hj]
  · intro p hp hpi hp0
    rw [addrAt_update_of_ne hpi, h.owned.addrAt_of_data hp hu.data]
    exact hp0
  · intro _
    rw [update_self]
    refine ⟨rfl, htype, ?_, fun _ => hu.dinode⟩
    rw [hu.dinode]
    apply htype
  · intro _
    rw [update_self, hu.dinode]
  · intro t ht
    simp at ht

theorem setLinks
    (hip : s.Unlocked ip) (hvalid : (s.fs.inode ip).valid = true) {E : Fault → Prop}
    (major minor nlink : Int16) :
  Wp E (do
      modify fun s => s.modifyInode ip fun x =>
        { x with major := major, minor := minor, nlink := nlink }
      iupdate ip)
    (fun _ fs => ∃ ino', Inv { s with fs := fs } ino') s.fs
  := by
  have hcached : (s.fs.inode ip).Cached := ⟨hip.1, hvalid⟩
  obtain ⟨hcopy, htype, -⟩ := h.cached ip hcached
  have hlt := h.bound ip hip.1
  have hu : Updated ip (s.fs.inode ip).inum.toNat s.fs _ :=
    .iupdate h.wf (show (s.fs.modifyInode ip fun x =>
      { x with major := major, minor := minor, nlink := nlink }).sb = s.fs.sb from rfl)
      (fun _ _ => rfl) (fun k hk => FileSys.modifyInode_of_ne _ _ hk) hlt (by simp)
  have hinv := h.updated hu rfl hcached (by simp) (by simpa using htype) ?_
  · rw [← hip.pending, update_eq_self] at hinv
    simp only [wp_bind, wp_modify, iupdate]
    exact ⟨_, hinv⟩
  · simp only [FileSys.modifyInode_self, FileSys.modifyInode_sb, FileSys.modifyInode_disk]
    apply Owned.setDinode _ h.wf hlt
    apply h.owned.setLinks <;> rw [hcopy]

end

end Inv

end

end Xv6.Fs
