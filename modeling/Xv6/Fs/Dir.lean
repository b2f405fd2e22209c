import Xv6.Lib.CString
import Xv6.Fs.FlatFile

/-!
# Directories

A directory is a file of `struct dirent`s.  `dirlookup` and `dirlink` read it entry by entry with
`readi`; an entry with the inode number `0` is free.  The caller holds the lock of the directory.
-/

namespace Xv6.Fs

/-- `DIRSIZ`, the length of the name of an entry. -/
abbrev DIRSIZ : Nat := 14

/-- `T_DIR`, the type of a directory. -/
abbrev T_DIR : Int16 := 1

/-- `ROOTINO`, the inode number of the root directory. -/
abbrev ROOTINO : UInt32 := 1

/-! ### Entries -/

/-- `struct dirent`. -/
structure Dirent where
  inum : UInt16
  name : Fin DIRSIZ → UInt8
  deriving DecidableEq

namespace Dirent

/-- `sizeof(struct dirent)`. -/
abbrev size : Nat := 2 + DIRSIZ

/-- The bytes of an entry. -/
def bytes (de : Dirent) : List UInt8 :=
  .ofNat de.inum.toNat :: .ofNat (de.inum.toNat / 2 ^ 8) :: List.ofFn de.name

/-- The entry in a sequence of bytes. -/
def ofBytes (bs : List UInt8) : Dirent where
  inum := .ofNat ((bs.getD 0 0).toNat + 2 ^ 8 * (bs.getD 1 0).toNat)
  name k := bs.getD (k + 2) 0

/-- The name of an entry as a string. -/
def str (de : Dirent) : CStr :=
  .ofList (List.ofFn de.name)

/-- The name of an entry, up to a NUL. -/
def key (de : Dirent) : List UInt8 :=
  de.str.upTo DIRSIZ

/-- The entry that `dirlink` writes: the name is copied by `strncpy`. -/
def make (name : CStr) (inum : UInt16) : Dirent where
  inum := inum
  name k := (name.strncpy DIRSIZ).getD k 0

/-- A free entry, as `sys_unlink` writes it. -/
def zero : Dirent :=
  ⟨0, fun _ => 0⟩

@[simp]
theorem length_bytes (de : Dirent) :
  de.bytes.length = size
  := by
  simp [bytes]
  rfl

@[simp]
theorem ofBytes_bytes (de : Dirent) :
  ofBytes de.bytes = de
  := by
  obtain ⟨inum, name⟩ := de
  simp only [ofBytes, bytes, mk.injEq]
  constructor
  · have := inum.toNat_lt
    apply UInt16.toNat_inj.mp
    simp only [List.getD_cons_zero, List.getD_cons_succ, UInt8.toNat_ofNat', UInt16.toNat_ofNat']
    omega
  · funext k
    simp only [List.getD_cons_succ]
    rw [List.getD_eq_getElem _ _ (by rw [List.length_ofFn]; exact k.isLt), List.getElem_ofFn]

/-- The name that was copied is read back. -/
@[simp]
theorem key_make (name : CStr) (inum : UInt16) :
  (make name inum).key = name.upTo DIRSIZ
  := by
  rw [key, ← CStr.upTo_strncpy (t := name)]
  apply CStr.upTo_congr
  intro k hk
  simp only [str, CStr.ofList, make]
  rw [List.getD_eq_getElem _ _ (by simpa using hk), List.getElem_ofFn]

end Dirent

/-- `namecmp`. -/
def namecmp (s t : CStr) : Int :=
  s.strncmp t DIRSIZ

theorem namecmp_eq_zero {name : CStr} {de : Dirent} :
  namecmp name de.str = 0 ↔ de.key = name.upTo DIRSIZ
  := by
  rw [namecmp, CStr.strncmp_eq_zero_iff, eq_comm]
  rfl

/-! ### The functions -/

/-- The panics of `dirlookup`, `dirlink` and the removal of an entry, and the call of `acquiresleep`
for the lock of the directory, which the caller holds: it does not return. -/
inductive DirFault where
  | fs (f : Fault)
  /-- "dirlookup not DIR" -/
  | notDir
  /-- "dirlookup read" -/
  | lookupRead
  /-- "dirlink read" -/
  | linkRead
  /-- "dirlink" -/
  | link
  /-- "unlink: writei" -/
  | unlink
  | ownLock
  deriving DecidableEq, Repr

/-- Computations on the file system by a caller that holds the lock of a directory. -/
abbrev DirM : Type → Type := StateT FileSys (Except DirFault)

/-- A computation on the file system. -/
def liftFs {α : Type} (x : FsM α) : DirM α :=
  fun s =>
    match x s with
    | .ok r => .ok r
    | .error f => .error (.fs f)

/-- A loop over the entries of a directory from the offset `off` on, up to the first one that
satisfies `stop`: the offset where it ends, and the entry.  `bad` is the panic for a short read. -/
def scanDir (dp : Slot) (bad : DirFault) (stop : Dirent → Bool) :
    Nat → UInt32 → DirM (UInt32 × Option Dirent)
  | 0, off => pure (off, none)
  | fuel + 1, off => do
      let s ← get
      if off < (s.inode dp).size then
        let (r, bs) ← liftFs (readiAll dp off (.ofNat Dirent.size))
        if r ≠ Dirent.size then throw bad
        else if stop (.ofBytes bs) then return (off, some (.ofBytes bs))
        else scanDir dp bad stop fuel (off + .ofNat Dirent.size)
      else return (off, none)

/-- The number of steps of a loop over the entries of a directory. -/
def dirSteps (x : Dinode) : Nat :=
  (x.size.toNat + Dirent.size - 1) / Dirent.size

/-- `dirlookup`: the inode of the entry with the name, and the offset of the entry. -/
def dirlookup (dp : Slot) (name : CStr) : DirM (Option (Slot × UInt32)) := do
  let s ← get
  if (s.inode dp).type ≠ T_DIR then throw .notDir
  else
    let r ← scanDir dp .lookupRead (fun de => de.inum ≠ 0 ∧ namecmp name de.str = 0)
      (dirSteps (s.inode dp).toDinode) 0
    match r with
    | (off, some de) =>
        let ip ← liftFs (iget (.ofNat de.inum.toNat))
        return some (ip, off)
    | (_, none) => return none

/-- `iput` by a caller that holds the lock of `dp`. -/
def iputBeside (dp ip : Slot) : DirM Unit :=
  if ip = dp then throw .ownLock else liftFs (iput ip)

/-- `dirlink`: write a new entry into a directory. -/
def dirlink (dp : Slot) (name : CStr) (inum : UInt32) : DirM Int := do
  match ← dirlookup dp name with
  | some (ip, _) =>
      iputBeside dp ip
      return -1
  | none =>
      let s ← get
      let (off, _) ← scanDir dp .linkRead (fun de => de.inum = 0)
        (dirSteps (s.inode dp).toDinode) 0
      let de := Dirent.make name (.ofNat inum.toNat)
      let r ← liftFs (writeiAll dp (fun k => de.bytes.getD k 0) off (.ofNat Dirent.size))
      if r ≠ Dirent.size then throw .link
      else return 0

/-- The removal of an entry in `sys_unlink`: look the name up, and write zeros over the entry. -/
def removeEntry (dp : Slot) (name : CStr) : DirM Int := do
  match ← dirlookup dp name with
  | some (_, off) =>
      let r ← liftFs (writeiAll dp (fun k => Dirent.zero.bytes.getD k 0) off (.ofNat Dirent.size))
      if r ≠ Dirent.size then throw .unlink
      else return 0
  | none => return -1

/-! ### Loops over the entries -/

theorem map_getD_range (p : List UInt8) :
  (List.range p.length).map (fun k => p.getD k 0) = p
  := by
  apply List.ext_getElem
  · simp
  · intro k _ hk
    simp [hk]

/-- The entries of a directory with the contents `bs`. -/
def dirents (bs : List UInt8) : List Dirent :=
  (List.range (bs.length / Dirent.size)).map fun k =>
    .ofBytes ((bs.drop (k * Dirent.size)).take Dirent.size)

theorem dirents_append {a b : List UInt8} {m : Nat} (ha : a.length = m * Dirent.size) :
  dirents (a ++ b) = dirents a ++ dirents b
  := by
  have hpos : 0 < Dirent.size := by
    decide
  have hlen : (a ++ b).length / Dirent.size = m + b.length / Dirent.size := by
    rw [List.length_append, ha, Nat.mul_comm, Nat.mul_add_div hpos]
  have hm : a.length / Dirent.size = m := by
    rw [ha, Nat.mul_div_cancel m hpos]
  rw [dirents, dirents, dirents, hlen, hm, List.range_add, List.map_append, List.map_map]
  congr 1
  · apply List.map_congr_left
    intro k hk
    rw [List.mem_range] at hk
    have hk' := Nat.mul_le_mul_right Dirent.size hk
    rw [Nat.succ_mul] at hk'
    rw [List.drop_append_of_le_length (by omega),
      List.take_append_of_le_length (by rw [List.length_drop]; omega)]
  · apply List.map_congr_left
    intro k _
    rw [Function.comp_apply, Nat.add_mul, ← ha, List.drop_length_add_append]

@[simp]
theorem dirents_bytes (de : Dirent) :
  dirents de.bytes = [de]
  := by
  rw [dirents, de.length_bytes]
  change [Dirent.ofBytes (de.bytes.take Dirent.size)] = [de]
  rw [← de.length_bytes, List.take_length, Dirent.ofBytes_bytes]

section

/-- The entries of the directory `dp`. -/
abbrev FileSys.entries (s : FileSys) (dp : Slot) : List Dirent :=
  dirents ((s.inode dp).contents s.disk)

variable {s : FileSys} {dp : Slot} {bad : DirFault} {stop : Dirent → Bool}

/-- A computation on the file system that does not fail. -/
theorem wp_liftFs
    {α : Type} {E : DirFault → Prop} {x : FsM α} {Q : α → FileSys → Prop} :
  Wp E (liftFs x) Q s ↔ Wp (fun f => E (.fs f)) x Q s
  := by
  simp only [Wp, liftFs]
  cases x s with
  | ok r | error f => rfl

/-- One step of a loop over the entries. -/
theorem readEntry_spec
    (hdev : (s.inode dp).type ≠ T_DEV) {k : Nat}
    (hk : k < (s.entries dp).length)
    (hmapped : ∀ o < (k + 1) * Dirent.size, (s.inode dp).blockAddr s.disk (o / BSIZE) ≠ 0) :
  Wp (fun _ => False) (readiAll dp (.ofNat (k * Dirent.size)) (.ofNat Dirent.size))
    (fun r s' => s' = s ∧ r.1 = Dirent.size ∧
      Dirent.ofBytes r.2 = (s.entries dp)[k]) s
  := by
  have hlen : ((s.inode dp).contents s.disk).length = (s.inode dp).size.toNat := by
    rw [Dinode.contents, List.length_map, List.length_range]
  have hsize : (k + 1) * Dirent.size ≤ (s.inode dp).size.toNat := by
    simp only [FileSys.entries, dirents, List.length_map, List.length_range, hlen] at hk
    exact (Nat.le_div_iff_mul_le (by decide)).mp hk
  rw [Nat.succ_mul] at hsize
  have hoff : (UInt32.ofNat (k * Dirent.size)).toNat = k * Dirent.size := by
    have := (s.inode dp).size.toNat_lt
    rw [UInt32.toNat_ofNat']
    omega
  have hn : (UInt32.ofNat Dirent.size).toNat = Dirent.size := by
    decide
  apply (readiAll_spec hdev (.ofNat (k * Dirent.size)) (.ofNat Dirent.size) ?_).mono
  · rintro r s' ⟨rfl, ⟨hrefuses, -⟩ | ⟨-, rfl⟩⟩
    · rcases hrefuses with hgt | hlt
      · rw [gt_iff_lt, UInt32.lt_iff_toNat_lt, hoff] at hgt
        omega
      · rw [UInt32.lt_iff_toNat_lt, UInt32.toNat_add, hoff, hn] at hlt
        have := (s'.inode dp).size.toNat_lt
        omega
    · refine ⟨rfl, ?_, ?_⟩
      · rw [hoff, hn]
        dsimp only
        omega
      · simp only [FileSys.entries, dirents, List.getElem_map, List.getElem_range, hoff, hn]
  · intro o ho ho' _
    rw [hoff, hn] at ho'
    apply hmapped o
    rw [Nat.succ_mul]
    exact ho'

/-- The entry `k` is below the size. -/
theorem ofNat_lt_size {k : Nat} (hk : k < (s.entries dp).length) :
  UInt32.ofNat (k * Dirent.size) < (s.inode dp).size
  := by
  simp only [FileSys.entries, dirents, Dinode.contents, List.length_map, List.length_range] at hk
  have hsize := (Nat.le_div_iff_mul_le (by decide)).mp hk
  have := (s.inode dp).size.toNat_lt
  have hpos : 0 < Dirent.size := by
    decide
  rw [Nat.succ_mul] at hsize
  rw [UInt32.lt_iff_toNat_lt, UInt32.toNat_ofNat']
  omega

section

variable {j : Nat} (hj : j < (s.entries dp).length)
  (hmapped : ∀ o < (j + 1) * Dirent.size, (s.inode dp).blockAddr s.disk (o / BSIZE) ≠ 0)

include hj hmapped

/-- A loop that ends at the entry `j`, the first one that satisfies `stop`. -/
theorem scanDir_found
    (hdev : (s.inode dp).type ≠ T_DEV) (hstop : stop (s.entries dp)[j] = true)
    (hbefore : ∀ i (hi : i < j), stop ((s.entries dp).get ⟨i, hi.trans hj⟩) = false)
    {fuel k : Nat} (hk : k ≤ j) (hfuel : j - k < fuel) :
  Wp (fun _ => False) (scanDir dp bad stop fuel (.ofNat (k * Dirent.size)))
    (fun r s' => s' = s ∧ r = (.ofNat (j * Dirent.size), some (s.entries dp)[j])) s
  := by
  induction fuel generalizing k with
  | zero => omega
  | succ fuel ih =>
    have hkj : k < (s.entries dp).length := by
      omega
    rw [scanDir, wp_bind, wp_get, if_pos (ofNat_lt_size hkj), wp_bind, wp_liftFs]
    apply (readEntry_spec hdev hkj ?_).mono
    · rintro ⟨r, bs⟩ _ ⟨rfl, hr, hde⟩
      dsimp only at hr hde ⊢
      rw [if_neg (not_not.mpr hr), hde]
      obtain rfl | hlt := Nat.eq_or_lt_of_le hk
      · rw [if_pos hstop]
        exact ⟨rfl, rfl⟩
      · have hnot := hbefore k hlt
        rw [List.get_eq_getElem] at hnot
        rw [hnot, if_neg (by simp), ← UInt32.ofNat_add, ← Nat.succ_mul]
        apply ih hlt
        omega
    · intro o ho
      apply hmapped o (ho.trans_le (Nat.mul_le_mul_right _ (by omega)))

/-- `dirlookup` for a name whose first entry is `j`. -/
theorem dirlookup_found
    {name : CStr} {E : DirFault → Prop} {Q : Option (Slot × UInt32) → FileSys → Prop}
    (htype : (s.inode dp).type = T_DIR) (hlive : (s.entries dp)[j].inum ≠ 0)
    (hkey : (s.entries dp)[j].key = name.upTo DIRSIZ)
    (hbefore : ∀ i (hi : i < j),
      ((s.entries dp).get ⟨i, hi.trans hj⟩).inum = 0 ∨
      ((s.entries dp).get ⟨i, hi.trans hj⟩).key ≠ name.upTo DIRSIZ)
    (hQ : Wp (fun f => E (.fs f))
      (iget (.ofNat (s.entries dp)[j].inum.toNat))
      (fun ip s' => Q (some (ip, .ofNat (j * Dirent.size))) s') s) :
  Wp E (dirlookup dp name) Q s
  := by
  have hdev : (s.inode dp).type ≠ T_DEV := by
    rw [htype]
    decide
  have hfuel : j - 0 < dirSteps (s.inode dp).toDinode := by
    have hlen := hj
    simp only [FileSys.entries, dirents, Dinode.contents, List.length_map, List.length_range]
      at hlen
    rw [dirSteps]
    simp only [Dirent.size, DIRSIZ] at hlen ⊢
    omega
  have hscan : Wp E (scanDir dp .lookupRead (fun de => de.inum ≠ 0 ∧ namecmp name de.str = 0)
      (dirSteps (s.inode dp).toDinode) (.ofNat (0 * Dirent.size)))
      (fun r s' => s' = s ∧ r = (.ofNat (j * Dirent.size),
        some (s.entries dp)[j])) s := by
    refine (scanDir_found hj hmapped hdev ?_ ?_ (Nat.zero_le j) hfuel).noFail
    · rw [decide_eq_true_iff, namecmp_eq_zero]
      exact ⟨hlive, hkey⟩
    · intro i hi
      rw [decide_eq_false_iff_not, namecmp_eq_zero]
      rintro ⟨hne, heq⟩
      rcases hbefore i hi with hzero | hkey
      · exact hne hzero
      · exact hkey heq
  rw [Nat.zero_mul] at hscan
  rw [dirlookup, wp_bind, wp_get, if_neg (not_not.mpr htype)]
  apply hscan.bind
  rintro _ _ ⟨rfl, rfl⟩
  dsimp only
  rw [wp_bind, wp_liftFs]
  exact hQ

end

/-- `iget` for an inode that is not in the cache. -/
theorem wp_iget
    {inum : UInt32} {E : Fault → Prop} (hmiss : ∀ k, 0 < (s.inode k).ref → (s.inode k).inum ≠ inum)
    (hfree : ∃ k, (s.inode k).ref = 0) :
  Wp E (iget inum) (fun ip s' => (s.inode ip).ref = 0 ∧
    s' = s.modifyInode ip fun x => { x with inum := inum, ref := 1, valid := false }) s
  := by
  apply ((iget_spec s inum).fail ?_).mono
  · intro ip s' hgot
    cases hgot with
    | hit href hinum => cases hmiss ip href hinum
    | miss _ href => exact ⟨href, rfl⟩
  · rintro f ⟨-, hfull⟩
    obtain ⟨k, hk⟩ := hfree
    cases hfull k hk

/-- `ilock` for an inode that has just been put into the cache. -/
theorem wp_ilock
    {ip : Slot} {inum : UInt32} {E : Fault → Prop}
    (htype : (dinode s.sb s.disk inum.toNat).type ≠ 0) :
  Wp E (ilock ip) (fun _ s' => s' = s.modifyInode ip fun _ =>
    { dinode s.sb s.disk inum.toNat with inum := inum, ref := 1, valid := true })
    (s.modifyInode ip fun x => { x with inum := inum, ref := 1, valid := false })
  := by
  rw [ilock, wp_bind, wp_get, FileSys.modifyInode_self, if_neg (by decide : ¬ (1 : Int) < 1),
    if_pos rfl, wp_bind, wp_modify, wp_bind, wp_get, FileSys.modifyInode_self,
    FileSys.modifyInode_self]
  rw [if_neg (by exact htype)]
  simp only [wp_pure, FileSys.modifyInode, Function.update_idem, Function.update_self]

end

end Xv6.Fs
