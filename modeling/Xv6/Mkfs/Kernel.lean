import Xv6.Mkfs.Holes

/-!
# The kernel on the image

The image that `mkfs` writes, read by the functions of the kernel: `dirlookup` finds the files in
the root directory, `readi` reads their bytes, and the free map marks the blocks that are used.
-/

namespace Xv6.Mkfs

open Fs

variable {st : Image} {l : List Contents} {i j : Nat}

/-! ### The finished image -/

theorem readsb_finish (h : Laid st l) :
  readsb st.finish.disk = sb
  := by
  have hone : st.finish.disk 1 = st.disk 1 := by
    have hne : 1 ≠ sb.IBLOCK 1 := by
      decide
    rw [Image.finish]
    dsimp only
    rw [setDinode_of_ne hne, Image.view_of_ne (by decide)]
  have hword : ∀ k < 7, (st.finish.disk 1).word k = sbWord k := by
    intro k hk
    have hlt : k < Block.nwords := hk.trans (by decide)
    rw [hone, h.super, Block.word_setWords hlt, if_pos ⟨Nat.zero_le k, by omega⟩, Nat.sub_zero]
  simp only [readsb, hword 0 (by decide), hword 1 (by decide), hword 2 (by decide),
    hword 3 (by decide), hword 4 (by decide), hword 5 (by decide), hword 6 (by decide)]
  rfl

theorem finish_of_data {k : Nat} (hk : nmeta ≤ k) :
  st.finish.disk k = st.view k
  := finish_of_le (bmapstart_le hk)

/-- The root directory begins with the entries that `mkfs` wrote. -/
theorem Laid.root_finish {files : List File} (h : Laid st (layout files)) :
  rootBytes files <+: (st.finish.inodes 1).contents st.finish.disk
  := by
  have hj := layout_pos files
  have hfile := h.file 0 hj
  have hroom := h.length_le
  have hsize := h.size_root
  have hle : (st.inodes 1).size.toNat ≤ (st.finish.inodes 1).size.toNat := by
    rw [inodes_finish_root, hsize, UInt32.toNat_ofNat', Nat.mod_eq_of_lt]
    · simp only [BSIZE]
      omega
    · simp only [maxInodes, ninodeblocks, NINODES, IPB, BSIZE, Dirent.size, DIRSIZ] at hroom ⊢
      omega
  have hbyte : ∀ o,
      (st.finish.inodes 1).byteAt st.finish.disk o = (st.inodes 1).byteAt st.view o := by
    intro o
    rw [inodes_finish_root]
    exact h.owned.byteAt_of_data (h.live hj) (fun _ => finish_of_data) o
  have hroot : (st.inodes 1).contents st.view = rootBytes files := hfile.contents
  rw [← hroot, Dinode.contents, Dinode.contents, List.map_congr_left (fun o _ => hbyte o)]
  apply List.IsPrefix.map
  obtain ⟨m, hm⟩ := Nat.exists_eq_add_of_le hle
  rw [hm, List.range_add]
  exact List.prefix_append _ _

theorem dirents_flatMap_append (es : List Dirent) (bs : List UInt8) :
  dirents (es.flatMap Dirent.bytes ++ bs) = es ++ dirents bs
  := by
  induction es with
  | nil => rfl
  | cons de es ih =>
    rw [List.flatMap_cons, List.append_assoc,
      dirents_append (m := 1) (by rw [de.length_bytes, Nat.one_mul]), dirents_bytes, ih]
    rfl

/-! ### The free map -/

section

variable (h : Laid st l)

include h

theorem bit_finish {b : Nat} (hb : b < FSSIZE) :
  bit sb st.finish.disk b = decide (b < st.freeblock)
  := by
  have hlt : b < BPB := hb.trans (by decide)
  have hle : st.freeblock ≤ BPB := h.high.trans (by decide)
  rw [← st.bit_view hle hlt]
  apply bit_congr
  rw [show sb.BBLOCK b = sb.bmapstart.toNat from BBLOCK_mapSb hlt]
  exact finish_of_le (Nat.le_refl _)

omit h in
/-- Only the size of the root directory is changed at the end. -/
theorem inodes_finish (hi : i < maxInodes) :
  (st.finish.inodes i).type = (st.inodes i).type ∧ (st.finish.inodes i).addrs = (st.inodes i).addrs
  := by
  rcases eq_or_ne i 1 with rfl | hne
  · rw [inodes_finish_root]
    exact ⟨rfl, rfl⟩
  · rw [inodes_finish_of_ne hi hne]
    exact ⟨rfl, rfl⟩

section

variable (hroom : l.length < NINODES)

include hroom

/-- The inodes of the kernel are those that `mkfs` made. -/
theorem Laid.live_finish :
  Live sb st.finish.inodes i ↔ Live mapSb st.inodes i
  := by
  have hkernel : sb.ninodes.toNat = NINODES := by
    decide
  have hmap : mapSb.ninodes.toNat = maxInodes := by
    decide
  have hle : NINODES ≤ maxInodes := by
    decide
  rw [Live, Live, hkernel, hmap]
  constructor
  · rintro ⟨hi, htype⟩
    rw [(inodes_finish (hi.trans_le hle)).1] at htype
    exact ⟨hi.trans_le hle, htype⟩
  · rintro ⟨hi, htype⟩
    rw [(inodes_finish hi).1]
    refine ⟨?_, htype⟩
    by_contra hge
    rw [h.unused i hi (.inr (by rw [h.count]; omega))] at htype
    exact htype rfl

omit hroom in
theorem Laid.addrAt_finish {p : Place} (hp : Live mapSb st.inodes p.inum) :
  addrAt st.finish.inodes st.finish.disk p = addrAt st.inodes st.view p
  := by
  apply addrAt_congr (inodes_finish hp.1).2
  intro hind
  exact finish_of_data (h.owned.ind_used hp hind).1.1

/-- The addresses in the inodes of the kernel. -/
theorem Laid.mem_refs_finish {p : Place} :
  p ∈ refs sb st.finish.inodes st.finish.disk ↔ p ∈ refs mapSb st.inodes st.view
  := by
  change Live _ _ _ ∧ _ ↔ Live _ _ _ ∧ _
  rw [h.live_finish hroom]
  apply and_congr_right
  intro hp
  rw [h.addrAt_finish hp]

/-- The free map marks the metadata and the blocks of inodes. -/
theorem Laid.bit_finish_iff {b : Nat} (hb : b < FSSIZE) :
  bit sb st.finish.disk b = true ↔ b < nmeta ∨
    ∃ p ∈ refs sb st.finish.inodes st.finish.disk, addrAt st.finish.inodes st.finish.disk p = b
  := by
  have hlow := st.low h.owned h.high
  rw [bit_finish h hb, decide_eq_true_iff]
  constructor
  · intro hlt
    rcases Nat.lt_or_ge b nmeta with hmeta | hdata
    · exact .inl hmeta
    · right
      have hused : b ∈ used mapSb st.view := by
        refine ⟨⟨hdata, hb⟩, ?_⟩
        rw [st.bit_view (h.high.trans (by decide)) (hb.trans (by decide))]
        exact decide_eq_true hlt
      obtain ⟨p, hp, haddr⟩ := h.owned.bij.surjOn hused
      refine ⟨p, (h.mem_refs_finish hroom).mpr hp, ?_⟩
      rw [h.addrAt_finish hp.1, haddr]
  · rintro (hmeta | ⟨p, hp, rfl⟩)
    · omega
    · rw [h.mem_refs_finish hroom] at hp
      rw [h.addrAt_finish hp.1]
      exact (st.used_lt h.high (h.owned.bij.mapsTo hp)).2

/-- No block has two references. -/
theorem Laid.injOn_finish :
  Set.InjOn (addrAt st.finish.inodes st.finish.disk) (refs sb st.finish.inodes st.finish.disk)
  := by
  intro p hp q hq heq
  rw [h.mem_refs_finish hroom] at hp hq
  rw [h.addrAt_finish hp.1, h.addrAt_finish hq.1] at heq
  exact h.owned.bij.injOn hp hq heq

/-- The block allocation invariant of the kernel. -/
theorem Laid.owned_finish (hroot : (st.finish.inodes 1).NoHole st.finish.disk) :
  Owned sb st.finish.inodes st.finish.disk
  := by
  refine ⟨⟨?_, h.injOn_finish hroom, ?_⟩, ?_, ?_⟩
  · intro p hp
    have hp' := (h.mem_refs_finish hroom).mp hp
    have hdata := (h.owned.bij.mapsTo hp').1
    rw [← h.addrAt_finish hp'.1] at hdata
    exact ⟨hdata, (h.bit_finish_iff hroom hdata.2).mpr (.inr ⟨p, hp, rfl⟩)⟩
  · intro b ⟨hdata, hbit⟩
    exact ((h.bit_finish_iff hroom hdata.2).mp hbit).resolve_left hdata.1.not_gt
  · intro b hb
    exact (h.bit_finish_iff hroom (hb.trans (by decide))).mpr (.inl hb)
  · intro i hi k hk
    apply mapped_iff.mpr
    rcases eq_or_ne i 1 with rfl | hne
    · exact hroot k hk
    · exact h.noHole_finish_of_ne (hi.1.trans_le (by decide)) hne k hk

end

end

/-! ### Looking up a file -/

/-- The file system when the kernel has booted with the image. -/
structure Image.Boots (image : Image) (s : FileSys) : Prop where
  disk : s.disk = image.disk
  sb : s.sb = readsb s.disk
  cache : ∀ k, (s.inode k).ref = 0

/-- Look a name up in the root directory, and read from the inode that is found.  The result is the
size of the inode and what `readi` gives. -/
def readFile (name : CStr) (off n : UInt32) : DirM (Option (UInt32 × Int × List UInt8)) := do
  let dp ← liftFs (iget ROOTINO)
  liftFs (ilock dp)
  match ← dirlookup dp name with
  | some (ip, _) =>
      liftFs (ilock ip)
      let s ← get
      let r ← liftFs (readiAll ip off n)
      return some ((s.inode ip).size, r)
  | none => return none

theorem upTo_ofList {s : List UInt8} (h : 0 ∉ s) (n : Nat) :
  (CStr.ofList s).upTo n = s.take n
  := by
  induction n generalizing s with
  | zero => rfl
  | succ n ih =>
    cases s with
    | nil => rfl
    | cons c s =>
      rw [List.mem_cons, not_or] at h
      rw [CStr.upTo, CStr.tail_ofList_cons, ih h.2, if_neg (fun hc => h.1 hc.symm)]
      rfl

/-- The names of the entries of the root directory. -/
def rootNames (files : List File) : List (List UInt8) :=
  [46] :: [46, 46] :: files.map File.target

theorem File.zero_notMem_target {f : File} (h : 0 ∉ f.name) :
  0 ∉ f.target
  := by
  rw [target]
  split
  · rename_i rest hname
    rw [hname, List.mem_cons, not_or] at h
    exact h.2
  · exact h

section

variable {files : List File}

theorem keys_rootEntries (hstr : ∀ f ∈ files, 0 ∉ f.name) :
  (rootEntries files).map Dirent.key = (rootNames files).map (·.take DIRSIZ)
  := by
  have hfiles : (files.zipIdx 2).map
      (fun p => (Dirent.make (.ofList p.1.target) (.ofNat p.2)).key)
      = files.map fun f => f.target.take DIRSIZ := by
    conv_rhs => rw [← List.zipIdx_map_fst 2 files, List.map_map]
    apply List.map_congr_left
    intro p hp
    have hmem : p.1 ∈ files := by
      rw [← List.zipIdx_map_fst 2 files]
      exact List.mem_map_of_mem hp
    rw [Dirent.key_make, upTo_ofList (File.zero_notMem_target (hstr _ hmem))]
    rfl
  simp only [rootEntries, rootNames, List.map_cons, List.map_map, Dirent.key_make]
  rw [upTo_ofList (by decide), upTo_ofList (by decide)]
  congr 2

/-- The blocks with the entries have addresses. -/
theorem Laid.root_mapped
    (h : Laid st (layout files)) {o : Nat} (ho : o < (files.length + 2) * Dirent.size) :
  (st.finish.inodes 1).blockAddr st.finish.disk (o / BSIZE) ≠ 0
  := by
  have hj := layout_pos files
  have hsize := h.size_root
  rw [inodes_finish_root]
  change (st.inodes 1).blockAddr st.finish.disk (o / BSIZE) ≠ 0
  rw [h.blockAddr_finish (h.live hj)]
  apply mapped_iff.mp
  apply h.owned.noHole 1 (h.live hj)
  rw [hsize]
  exact (Nat.div_mul_le_self o BSIZE).trans_lt ho

/-- No two entries of the root directory have one name. -/
theorem key_ne_of_lt
    (hstr : ∀ f ∈ files, 0 ∉ f.name) (hnames : ((rootNames files).map (·.take DIRSIZ)).Nodup)
    (hij : i < j) (hj : j < (rootEntries files).length) :
  ((rootEntries files).get ⟨i, hij.trans hj⟩).key ≠ (rootEntries files)[j].key
  := by
  rw [← keys_rootEntries hstr] at hnames
  have hlen : j < ((rootEntries files).map Dirent.key).length := by
    rw [List.length_map]
    exact hj
  have hne := List.pairwise_iff_getElem.mp hnames i j (hij.trans hlen) hlen hij
  rw [List.getElem_map, List.getElem_map] at hne
  exact hne

end

variable {files : List File} {s : FileSys}

/-- `dirlookup` finds the entry of an input file in the root directory. -/
theorem dirlookup_root
    {dp : Slot} {E : DirFault → Prop} {Q : Option (Slot × UInt32) → FileSys → Prop}
    (h : Laid st (layout files)) (hstr : ∀ f ∈ files, 0 ∉ f.name)
    (hnames : ((rootNames files).map (·.take DIRSIZ)).Nodup) (hroom : files.length + 1 < NINODES)
    (hdp : (s.inode dp).toDinode = st.finish.inodes 1) (hdisk : s.disk = st.finish.disk)
    {k : Nat} (hk : k < files.length)
    (hQ : Wp (fun f => E (.fs f)) (iget (.ofNat (k + 2)))
      (fun ip s' => Q (some (ip, .ofNat ((k + 2) * Dirent.size))) s') s) :
  Wp E (dirlookup dp (.ofList files[k].target)) Q s
  := by
  have hentries : ∀ j (hj : j < (rootEntries files).length),
      ∃ hj' : j < (s.entries dp).length, (s.entries dp)[j] = (rootEntries files)[j] := by
    intro j hj
    obtain ⟨rest, hrest⟩ := h.root_finish
    apply List.getElem?_eq_some_iff.mp
    rw [FileSys.entries, hdp, hdisk, ← hrest, rootBytes, dirents_flatMap_append,
      List.getElem?_append_left hj, List.getElem?_eq_getElem hj]
  have hlen : k + 2 < (rootEntries files).length := by
    rw [length_rootEntries]
    omega
  have hentry : (rootEntries files)[k + 2] = .make (.ofList files[k].target) (.ofNat (k + 2)) :=
    List.getElem_eq_iff hlen |>.mpr (by simp [rootEntries, hk, Nat.add_comm])
  have hinum : (UInt16.ofNat (k + 2)).toNat = k + 2 := by
    rw [UInt16.toNat_ofNat', Nat.mod_eq_of_lt]
    simp only [NINODES] at hroom
    omega
  obtain ⟨hj, heq⟩ := hentries (k + 2) hlen
  rw [hentry] at heq
  refine dirlookup_found hj ?_ ?_ ?_ ?_ ?_ ?_
  · intro o ho
    rw [hdp, hdisk]
    apply h.root_mapped
    exact ho.trans_le (Nat.mul_le_mul_right _ (by omega))
  · rw [hdp]
    exact (inodes_finish (by decide)).1.trans (h.file 0 (layout_pos files)).type
  · rw [heq]
    intro hzero
    have htoNat : (UInt16.ofNat (k + 2)).toNat = 0 := congrArg UInt16.toNat hzero
    rw [hinum] at htoNat
    cases htoNat
  · rw [heq, Dirent.key_make]
  · intro i hi
    right
    obtain ⟨_, heq'⟩ := hentries i (hi.trans hlen)
    have hne := key_ne_of_lt hstr hnames hi hlen
    rw [hentry, Dirent.key_make] at hne
    rw [List.get_eq_getElem, heq']
    exact hne
  · rw [heq]
    change Wp _ (iget (.ofNat (UInt16.ofNat (k + 2)).toNat)) _ _
    rw [hinum]
    exact hQ

/-- `readi` reads from a file without holes. -/
theorem readiAll_file
    {ip : Slot} {bytes : List UInt8} {off n : UInt32}
    (hfile : HasFile (s.inode ip).toDinode s.disk (T_FILE, bytes))
    (hhole : (s.inode ip).NoHole s.disk) (hoff : off.toNat ≤ bytes.length)
    (hn : off.toNat + n.toNat < 2 ^ 32) :
  Wp (fun _ => False) (readiAll ip off n) (fun r s' => s' = s ∧
    r = ((((bytes.drop off.toNat).take n.toNat).length : Int),
      (bytes.drop off.toNat).take n.toNat)) s
  := by
  have hdev : (s.inode ip).type ≠ T_DEV := by
    intro htype
    exact absurd (hfile.type.symm.trans htype) (by decide : T_FILE ≠ T_DEV)
  have hsize : (s.inode ip).size.toNat = bytes.length := hfile.size_eq
  have haccepts : ¬ RefusesRead (s.inode ip).toDinode off n := by
    rintro (hgt | hlt)
    · rw [gt_iff_lt, UInt32.lt_iff_toNat_lt, hsize] at hgt
      omega
    · rw [UInt32.lt_iff_toNat_lt, UInt32.toNat_add, Nat.mod_eq_of_lt hn] at hlt
      omega
  apply (readiAll_spec hdev off n ?_).mono
  · rintro r s' ⟨rfl, ⟨hrefuses, -⟩ | ⟨-, rfl⟩⟩
    · cases haccepts hrefuses
    · refine ⟨rfl, ?_⟩
      rw [show (s'.inode ip).contents s'.disk = bytes from hfile.contents, hsize, List.length_take,
        List.length_drop]
  · intro o _ _ ho
    exact hhole.mapped ho

/-- The kernel finds an input file in the root directory, and reads its bytes. -/
theorem readFile_spec
    (h : Laid st (layout files)) (hs : st.finish.Boots s) (hstr : ∀ f ∈ files, 0 ∉ f.name)
    (hnames : ((rootNames files).map (·.take DIRSIZ)).Nodup) (hroom : files.length + 1 < NINODES)
    {k : Nat} (hk : k < files.length) {off n : UInt32}
    (hoff : off.toNat ≤ files[k].contents.length) (hn : off.toNat + n.toNat < 2 ^ 32) :
  Wp (fun _ => False) (readFile (.ofList files[k].target) off n)
    (fun r _ => r = some (.ofNat files[k].contents.length,
      (((files[k].contents.drop off.toNat).take n.toNat).length : Int),
      (files[k].contents.drop off.toNat).take n.toNat)) s
  := by
  have hsb : s.sb = sb := by
    rw [hs.sb, hs.disk, readsb_finish h]
  have hino : ∀ i, dinode s.sb s.disk i = st.finish.inodes i := by
    intro i
    rw [hsb, hs.disk]
    rfl
  have hroot : (st.finish.inodes 1).type = T_DIR :=
    (inodes_finish (by decide)).1.trans (h.file 0 (layout_pos files)).type
  have hlen : k + 1 < (layout files).length := by
    rw [length_layout]
    omega
  have hfile : HasFile (st.finish.inodes (k + 2)) st.finish.disk (T_FILE, files[k].contents) := by
    have hfile := (h.file (k + 1) hlen).of_data h.owned rfl (h.lt hlen) fun _ => finish_of_data
    rw [← inodes_finish_of_ne (h.lt hlen) (by omega)] at hfile
    rw [show (layout files)[k + 1] = (T_FILE, files[k].contents) by simp [layout]] at hfile
    exact hfile
  rw [readFile, wp_bind, wp_liftFs]
  apply (wp_iget ?_ ⟨0, hs.cache 0⟩).mono
  swap
  · intro k hk
    rw [hs.cache k] at hk
    cases hk
  rintro dp _ ⟨-, rfl⟩
  rw [wp_bind, wp_liftFs]
  apply (wp_ilock ?_).mono
  swap
  · rw [hino]
    exact fun hzero => absurd (hroot.symm.trans hzero) (by decide)
  rintro _ _ rfl
  rw [wp_bind]
  refine dirlookup_root h hstr hnames hroom ?_ ?_ hk ?_
  · rw [FileSys.modifyInode_self]
    exact hino 1
  · exact hs.disk
  have hinum : (UInt32.ofNat (k + 2)).toNat = k + 2 := by
    rw [UInt32.toNat_ofNat', Nat.mod_eq_of_lt]
    simp only [NINODES] at hroom
    omega
  have htype : (st.finish.inodes (k + 2)).type = T_FILE := hfile.type
  apply (wp_iget ?_ ?_).mono
  · rintro ip _ ⟨-, rfl⟩
    rw [wp_bind, wp_liftFs]
    apply (wp_ilock ?_).mono
    swap
    · rw [hinum]
      change (dinode s.sb s.disk (k + 2)).type ≠ 0
      rw [hino, htype]
      decide
    rintro _ _ rfl
    rw [wp_bind, wp_get, wp_bind, wp_liftFs]
    generalize hs₃ : FileSys.modifyInode _ ip _ = s₃
    have hip : (s₃.inode ip).toDinode = st.finish.inodes (k + 2) := by
      rw [← hs₃, FileSys.modifyInode_self]
      change dinode s.sb s.disk (UInt32.ofNat (k + 2)).toNat = _
      rw [hinum, hino]
    have hdisk : s₃.disk = st.finish.disk := by
      rw [← hs₃]
      exact hs.disk
    apply (readiAll_file (s := s₃) (by rw [hip, hdisk]; exact hfile) ?_ hoff hn).mono
    · rintro r _ ⟨-, hr⟩
      rw [wp_pure, hr, ← hfile.size_eq, UInt32.ofNat_toNat, ← hip]
    · rw [hip, hdisk]
      exact h.noHole_finish_of_ne (h.lt hlen) (by omega)
  · intro x hx
    rcases eq_or_ne x dp with rfl | hne
    · rw [FileSys.modifyInode_self]
      intro heq
      have := congrArg UInt32.toNat heq
      rw [hinum] at this
      cases this
    · rw [s.modifyInode_of_ne _ hne, hs.cache] at hx
      cases hx
  · obtain ⟨x, hne⟩ := exists_ne dp
    use x
    rw [s.modifyInode_of_ne _ hne, hs.cache]

/-! ### The image -/

/-- The kernel reads the image that `mkfs` writes: the lookup of an input file gives an inode with
its size and its bytes, the free map marks the metadata and the blocks of inodes and no other, and
no block has two references. -/
theorem mkfs_image_readable
    {files : List File} (hstr : ∀ f ∈ files, 0 ∉ f.name ∧ 47 ∉ f.name)
    (hnames : ((rootNames files).map (·.take DIRSIZ)).Nodup)
    (hsize : ∀ f ∈ files, f.contents.length ≤ MAXFILE * BSIZE)
    (hinodes : files.length + 1 < NINODES) (hblocks : nmeta + need (layout files) ≤ FSSIZE) :
  ∃ image, main files start = .ok ((), image) ∧
    (∀ s, image.Boots s → ∀ f ∈ files, ∀ off n : UInt32, off.toNat ≤ f.contents.length →
      off.toNat + n.toNat < 2 ^ 32 →
      ∃ s', readFile (.ofList f.target) off n s = .ok (some (.ofNat f.contents.length,
        (((f.contents.drop off.toNat).take n.toNat).length : Int),
        (f.contents.drop off.toNat).take n.toNat), s')) ∧
    (∀ b < FSSIZE, bit (readsb image.disk) image.disk b = true ↔ b < nmeta ∨
      ∃ p ∈ refs (readsb image.disk) (dinode (readsb image.disk) image.disk) image.disk,
        addrAt (dinode (readsb image.disk) image.disk) image.disk p = b) ∧
    Set.InjOn (addrAt (dinode (readsb image.disk) image.disk) image.disk)
      (refs (readsb image.disk) (dinode (readsb image.disk) image.disk) image.disk)
  := by
  obtain ⟨st, hok, hlaid⟩ := main_ok hinodes hsize (fun f hf => (hstr f hf).2) hblocks
  have hlen : (layout files).length < NINODES := by
    rw [length_layout]
    exact hinodes
  refine ⟨_, hok, ?_, ?_, ?_⟩
  · intro s hs f hf off n hoff hn
    obtain ⟨k, hk, rfl⟩ := List.mem_iff_getElem.mp hf
    obtain ⟨_, s', hread, rfl⟩ := (readFile_spec hlaid hs (fun f hf => (hstr f hf).1) hnames
      hinodes hk hoff hn).exists_ok
    exact ⟨s', hread⟩
  · intro b hb
    rw [readsb_finish hlaid]
    exact hlaid.bit_finish_iff hlen hb
  · rw [readsb_finish hlaid]
    exact hlaid.injOn_finish hlen

/-- Two files, one with a leading `_`. -/
theorem mkfs_image_readable_two :
  ∃ image, main [⟨[95, 108, 115], [[1, 2, 3]]⟩, ⟨[82], [[4], [5]]⟩] start = .ok ((), image) ∧
    ∀ s, image.Boots s →
      ∃ s', readFile (.ofList [108, 115]) 1 2 s = .ok (some (3, 2, [2, 3]), s')
  := by
  obtain ⟨image, hok, hread, -⟩ := @mkfs_image_readable
    [⟨[95, 108, 115], [[1, 2, 3]]⟩, ⟨[82], [[4], [5]]⟩]
    (by decide) (by decide) (by decide) (by decide) (by decide +kernel)
  use image, hok
  intro s hs
  exact hread s hs _ List.mem_cons_self 1 2 (by decide) (by decide)

/-- The kernel boots with the block allocation invariant on every image that `mkfs` makes, if the
entries do not fill the last block of the root directory. -/
theorem mkfs_image_boots
    {files : List File} {image : Image} (h : main files start = .ok ((), image))
    (hroom : files.length + 1 < NINODES) (hroot : (files.length + 2) % (BSIZE / Dirent.size) ≠ 0)
    {s : BlockSys} (hs : image.Boots s.fs) (hpending : ∀ ip, s.pending ip = none) :
  s.Booted
  := by
  have hmax : NINODES ≤ maxInodes := by
    decide
  have hmain := main_spec (E := fun _ => True) files (by omega) (fun _ => trivial)
    (fun _ => trivial) (fun _ => trivial)
  obtain ⟨st, hlaid, rfl⟩ := hmain.of_ok h
  have hsb : s.fs.sb = sb := by
    rw [hs.sb, hs.disk, readsb_finish hlaid]
  refine ⟨?_, hs.sb.symm, ?_, hs.cache, hpending⟩
  · rw [hsb]
    constructor <;> decide
  · rw [hsb, hs.disk]
    exact hlaid.owned_finish (by rwa [length_layout]) (hlaid.noHole_finish_root.mpr hroot)

/-- The image of two files. -/
theorem mkfs_image_boots_two :
  ∃ image, main [⟨[95, 108, 115], [[1, 2, 3]]⟩, ⟨[82], [[4], [5]]⟩] start = .ok ((), image) ∧
    BlockSys.Booted ⟨⟨readsb image.disk, image.disk, smallSys.fs.inode⟩, smallSys.pending⟩
  := by
  obtain ⟨st, hok, -⟩ := @main_ok [⟨[95, 108, 115], [[1, 2, 3]]⟩, ⟨[82], [[4], [5]]⟩] (by decide)
    (by decide) (by decide) (by decide +kernel)
  refine ⟨_, hok, ?_⟩
  exact mkfs_image_boots hok (by decide) (by decide) ⟨rfl, rfl, fun _ => rfl⟩ (fun _ => rfl)

end Xv6.Mkfs
