import Xv6.Mkfs.Build

/-!
# The image that `mkfs` makes

`mkfs` makes the root directory and then the input files.  As long as there are no more inodes than
fit before the free map, the files of the image are those of `layout`.
-/

namespace Xv6.Mkfs

open Fs

/-- The entries of the root directory. -/
def rootEntries (files : List File) : List Dirent :=
  .make (.ofList [46]) 1 :: .make (.ofList [46, 46]) 1 ::
    (files.zipIdx 2).map fun p => .make (.ofList p.1.target) (.ofNat p.2)

/-- The contents of the root directory. -/
def rootBytes (files : List File) : List UInt8 :=
  (rootEntries files).flatMap Dirent.bytes

/-- The files of the image. -/
def layout (files : List File) : List Contents :=
  (T_DIR, rootBytes files) :: files.map fun f => (T_FILE, f.contents)

@[simp]
theorem length_layout (files : List File) :
  (layout files).length = files.length + 1
  := by
  simp [layout]

@[simp]
theorem length_rootEntries (files : List File) :
  (rootEntries files).length = files.length + 2
  := by
  simp [rootEntries]

theorem length_rootBytes (files : List File) :
  (rootBytes files).length = (files.length + 2) * Dirent.size
  := by
  simp [rootBytes, List.length_flatMap, Dirent.length_bytes, length_rootEntries]

/-- One more file. -/
theorem rootBytes_append (files : List File) (f : File) :
  rootBytes (files ++ [f])
    = rootBytes files ++ (Dirent.make (.ofList f.target) (.ofNat (files.length + 2))).bytes
  := by
  simp [rootBytes, rootEntries, List.zipIdx_append, Nat.add_comm]

theorem layout_append (files : List File) (f : File) :
  layout (files ++ [f])
    = ((layout files ++ [(T_FILE, [])]).modify 0
        (Contents.append (Dirent.make (.ofList f.target) (.ofNat (files.length + 2))).bytes)).modify
          (files.length + 1) (Contents.append f.contents)
  := by
  rw [layout, rootBytes_append, layout, List.cons_append, List.modify_zero_cons,
    List.modify_succ_cons, List.map_append]
  congr 1
  have happend : ∀ l : List Contents, (l ++ [(T_FILE, [])]).modify l.length
      (Contents.append f.contents) = l ++ [(T_FILE, f.contents)] := by
    intro l
    induction l with
    | nil => rfl
    | cons c l ih =>
      rw [List.cons_append, List.length_cons, List.modify_succ_cons, ih, List.cons_append]
  have := happend (files.map fun f => (T_FILE, f.contents))
  rw [List.length_map] at this
  exact this.symm

/-! ### The number of blocks -/

theorem blocksFor_mono {n m : Nat} (h : n ≤ m) :
  blocksFor n ≤ blocksFor m
  := by
  have hle : blocksOf n ≤ blocksOf m := by
    apply Nat.div_le_div_right
    omega
  rw [blocksFor, blocksFor]
  by_cases hd : NDIRECT < blocksOf n
  · rw [if_pos hd, if_pos (hd.trans_le hle)]
    omega
  · rw [if_neg hd]
    omega

variable {l : List Contents} {j : Nat}

theorem need_append_le {p q : List UInt8} (hj : j < l.length) :
  need (l.modify j (Contents.append p)) ≤ need (l.modify j (Contents.append (p ++ q)))
  := by
  have hp := need_modify (Contents.append p) hj
  have hq := need_modify (Contents.append (p ++ q)) hj
  have hle : blocksFor (l[j].append p).2.length ≤ blocksFor (l[j].append (p ++ q)).2.length := by
    apply blocksFor_mono
    simp [Contents.append]
  omega

theorem contents_append_nil :
  Contents.append [] = id
  := by
  funext f
  rw [Contents.append, List.append_nil]
  rfl

theorem contents_append_append (p q : List UInt8) :
  Contents.append q ∘ Contents.append p = Contents.append (p ++ q)
  := by
  funext f
  simp [Contents.append]

/-- More files need more blocks. -/
theorem need_layout_le (files rest : List File) :
  need (layout files) ≤ need (layout (files ++ rest))
  := by
  have hroot :
      blocksFor (rootBytes files).length ≤ blocksFor (rootBytes (files ++ rest)).length := by
    apply blocksFor_mono
    rw [length_rootBytes, length_rootBytes, List.length_append]
    apply Nat.mul_le_mul_right
    omega
  simp only [need, layout, List.map_cons, List.sum_cons, List.map_append, List.sum_append]
  omega

/-! ### The loop over the files -/

variable {st : Image} {E : Failure → Prop}

/-- The loop over the parts of a file. -/
theorem appendAll_spec
    (h : Laid st l) (hj : j < l.length) (chunks : List (List UInt8))
    (hread : FSSIZE < nmeta + need (l.modify j (Contents.append chunks.flatten)) → E .read)
    (hmax : MAXFILE * BSIZE < l[j].2.length + chunks.flatten.length → E .maxfile) :
  Wp E (chunks.forM (iappend (j + 1)))
    (fun _ st' => Laid st' (l.modify j (Contents.append chunks.flatten))) st
  := by
  induction chunks generalizing st l with
  | nil =>
    rw [List.flatten_nil, contents_append_nil, List.modify_id]
    exact h
  | cons p chunks ih =>
    have hmodify : (l.modify j (Contents.append p)).modify j (Contents.append chunks.flatten)
        = l.modify j (Contents.append (p :: chunks).flatten) := by
      rw [List.modify_modify_eq, contents_append_append, List.flatten_cons]
    rw [List.forM]
    apply (iappend_spec h hj p ?_ ?_).bind
    · intro _ st' h'
      rw [← hmodify]
      apply ih h' (by rw [List.length_modify]; exact hj)
      · rw [hmodify]
        exact hread
      · rw [List.getElem_modify_eq]
        simpa [Contents.append, Nat.add_assoc] using hmax
    · intro hlt
      apply hread
      have := need_append_le (l := l) (p := p) (q := chunks.flatten) hj
      rw [List.flatten_cons]
      omega
    · intro hlt
      apply hmax
      rw [List.flatten_cons, List.length_append]
      omega

/-- The body of the loop over the files. -/
theorem addFile_spec
    {files : List File} {f : File} (h : Laid st (layout files))
    (hroom : files.length + 2 < maxInodes)
    (hread : FSSIZE < nmeta + need (layout (files ++ [f])) → E .read)
    (hmax : MAXFILE * BSIZE < f.contents.length ∨
      MAXFILE * BSIZE < (rootBytes (files ++ [f])).length → E .maxfile)
    (hslash : 47 ∈ f.name → E .slash) :
  Wp E (addFile 1 f) (fun _ st' => Laid st' (layout (files ++ [f]))) st
  := by
  rw [addFile]
  split
  · rename_i hmem
    exact hslash hmem
  · have hlen : (layout files ++ [(T_FILE, ([] : List UInt8))]).length = files.length + 2 := by
      rw [List.length_append, length_layout, List.length_singleton]
    rw [layout_append] at hread ⊢
    apply (ialloc_spec h (by rw [length_layout]; exact hroom) (by decide)).noFail.bind
    rintro inum st₁ ⟨rfl, h₁⟩
    rw [length_layout, wp_bind, show files.length + 1 + 1 = files.length + 2 from rfl]
    apply (iappend_spec (j := 0) h₁ (by omega) _ ?_ ?_).mono
    · intro _ st₂ h₂
      apply appendAll_spec h₂ (by rw [List.length_modify, hlen]; omega)
      · exact hread
      · intro hlt
        apply hmax
        left
        rw [List.getElem_modify_ne _ _ (by omega)] at hlt
        rw [List.getElem_append_right (by rw [length_layout])] at hlt
        simpa [File.contents] using hlt
    · intro hlt
      apply hread
      have hj : files.length + 1 < ((layout files ++ [(T_FILE, [])]).modify 0 (Contents.append
          (Dirent.make (.ofList f.target) (.ofNat (files.length + 2))).bytes)).length := by
        rw [List.length_modify, hlen]
        omega
      have hneed := need_append_le (p := []) (q := f.contents) hj
      rw [contents_append_nil, List.modify_id, List.nil_append] at hneed
      omega
    · intro hlt
      apply hmax
      right
      rw [length_rootBytes, List.length_append, List.length_singleton]
      rw [List.getElem_append_left (by rw [length_layout]; omega)] at hlt
      simp only [layout, List.getElem_cons_zero, length_rootBytes, Dirent.length_bytes] at hlt
      rw [← Nat.succ_mul] at hlt
      rw [Nat.add_right_comm]
      exact hlt

/-! ### The whole program -/

/-- The image after the root directory has its size and the free map is written. -/
def Image.finish (st : Image) : Image :=
  { st with
    disk := setDinode sb st.view 1
      { st.inodes 1 with size := .ofNat (((st.inodes 1).size.toNat / BSIZE + 1) * BSIZE) } }

theorem zeroSectors_spec (n : Nat) :
  Wp E (zeroSectors n) (fun _ st => st = { start with size := n }) start
  := by
  rw [zeroSectors]
  have hloop := Wp.forM (E := E) (f := fun i => wsect i .zero) (s := start) (l := List.range n)
    (I := fun l st => ∃ k, k ≤ n ∧ l = List.range' k (n - k) ∧ st = { start with size := k }) ?_
    ⟨0, Nat.zero_le _, List.range_eq_range', rfl⟩
  · apply hloop.mono
    rintro _ st ⟨k, hk, hnil, rfl⟩
    have hlen := congrArg List.length hnil
    rw [List.length_nil, List.length_range'] at hlen
    obtain rfl : k = n := by
      omega
    rfl
  · rintro i l st ⟨k, hk, hcons, rfl⟩
    have hlt : k < n := by
      by_contra hge
      rw [Nat.sub_eq_zero_of_le (Nat.le_of_not_lt hge)] at hcons
      cases hcons
    rw [show n - k = n - (k + 1) + 1 by omega, List.range'_succ] at hcons
    obtain ⟨rfl, rfl⟩ := List.cons.inj hcons
    refine ⟨i + 1, hlt, rfl, ?_⟩
    have hdisk : Function.update start.disk i Block.zero = start.disk := Function.update_eq_self ..
    simp [hdisk]

/-- The image before the root directory. -/
def formatted : Image :=
  { start with
    disk := Function.update start.disk 1 (Block.zero.setWords 0 7 sbWord)
    size := FSSIZE }

theorem formatted_of_ne {b : Nat} (hb : b ≠ 1) :
  formatted.disk b = .zero
  := Function.update_of_ne hb ..

theorem inodes_formatted {i : Nat} (hi : i < maxInodes) :
  formatted.inodes i = noInode
  := by
  rw [Image.inodes, dinode, formatted_of_ne (IBLOCK_lt hi).1.ne']
  simp only [Block.word_zero]
  rfl

/-- The empty file system. -/
theorem laid_formatted :
  Laid formatted []
  := by
  have hrefs : refs mapSb formatted.inodes formatted.view = ∅ := by
    ext p
    simp only [refs, Set.mem_ofPred_eq, Set.mem_empty_iff_false, iff_false]
    rintro ⟨⟨hlt, htype⟩, -⟩
    rw [inodes_formatted hlt] at htype
    exact htype rfl
  have hused : used mapSb formatted.view = ∅ := by
    ext b
    simp only [used, Set.mem_ofPred_eq, Set.mem_empty_iff_false, iff_false]
    rintro ⟨⟨hlow, hhigh⟩, hbit⟩
    rw [formatted.bit_view (by decide) (hhigh.trans (by decide))] at hbit
    have hlt : b < nmeta := of_decide_eq_true hbit
    exact absurd hlow (Nat.not_le.mpr hlt)
  constructor
  · rfl
  · decide
  · intro b hb
    apply formatted_of_ne
    rintro rfl
    exact absurd hb (by decide)
  · constructor
    · rw [hrefs, hused]
      exact Set.bijOn_empty _
    · intro b hb
      rw [formatted.bit_view (by decide) (hb.trans (by decide))]
      exact decide_eq_true hb
    · intro i hi
      have htype := hi.2
      rw [inodes_formatted hi.1] at htype
      cases htype rfl
  · exact Nat.le_add_right ..
  · rfl
  · decide
  · intro j hj
    cases hj
  · intro i hi _
    exact inodes_formatted hi
  · exact Function.update_self 1 _ start.disk

theorem makeRoot_spec :
  Wp E makeRoot (fun r st => r = 1 ∧ Laid st (layout [])) start
  := by
  rw [makeRoot]
  apply (zeroSectors_spec FSSIZE).bind
  rintro _ _ rfl
  rw [wp_bind, wp_wsect_of_lt (by decide)]
  change Wp E _ _ formatted
  apply (ialloc_spec laid_formatted (by decide) (by decide)).noFail.bind
  rintro _ st₁ ⟨rfl, h₁⟩
  dsimp only [List.length_nil, List.nil_append] at h₁ ⊢
  rw [if_neg (by decide)]
  apply (iappend_spec (j := 0) h₁ (by decide) _ ?_ ?_).bind
  · intro _ st₂ h₂
    apply (iappend_spec (j := 0) h₂ (by decide) _ ?_ ?_).bind
    · intro _ st₃ h₃
      exact ⟨rfl, h₃⟩
    · intro hlt
      exact absurd hlt (by decide)
    · intro hlt
      exact absurd hlt (by decide)
  · intro hlt
    exact absurd hlt (by decide)
  · intro hlt
    exact absurd hlt (by decide)

/-- Writing the size of the root directory and the free map. -/
theorem finish_spec {files : List File} (h : Laid st (layout files)) :
  Wp E (do
      fixRoot 1
      let st ← get
      balloc st.freeblock) (fun _ image => image = st.finish) st
  := by
  have hroot : 1 < maxInodes := by
    decide
  have hused : st.freeblock < BSIZE * 8 := h.high.trans_lt (by decide)
  rw [wp_bind, fixRoot, wp_bind, wp_rinode h.size hroot, wp_winode st h.size hroot, wp_bind, wp_get,
    balloc, if_pos hused, wp_wsect_of_lt (by dsimp only; rw [h.size]; decide)]
  rw [Image.finish, ← view_setDinode st _ hroot]
  rfl

/-- The loop over the files. -/
theorem addFiles_spec
    {files rest : List File} (h : Laid st (layout files))
    (hroom : (files ++ rest).length + 2 ≤ maxInodes)
    (hread : FSSIZE < nmeta + need (layout (files ++ rest)) → E .read)
    (hmax : (∃ f ∈ rest, MAXFILE * BSIZE < f.contents.length) ∨
      MAXFILE * BSIZE < (rootBytes (files ++ rest)).length → E .maxfile)
    (hslash : (∃ f ∈ rest, 47 ∈ f.name) → E .slash) :
  Wp E (rest.forM (addFile 1)) (fun _ st' => Laid st' (layout (files ++ rest))) st
  := by
  induction rest generalizing st files with
  | nil =>
    rw [List.append_nil]
    exact h
  | cons f rest ih =>
    have hlen := hroom
    rw [List.length_append, List.length_cons] at hlen
    have happend : files ++ f :: rest = files ++ [f] ++ rest := by
      rw [List.append_assoc, List.singleton_append]
    rw [happend] at hroom hread hmax ⊢
    rw [List.forM]
    apply (addFile_spec h (by omega) ?_ ?_ ?_).bind
    · intro _ st' h'
      apply ih h' hroom hread
      · rintro (⟨g, hg, hlt⟩ | hlt)
        · exact hmax (.inl ⟨g, List.mem_cons_of_mem f hg, hlt⟩)
        · exact hmax (.inr hlt)
      · rintro ⟨g, hg, hs⟩
        exact hslash ⟨g, List.mem_cons_of_mem f hg, hs⟩
    · intro hlt
      apply hread
      have := need_layout_le (files ++ [f]) rest
      omega
    · rintro (hlt | hlt)
      · exact hmax (.inl ⟨f, List.mem_cons_self, hlt⟩)
      · apply hmax
        right
        rw [length_rootBytes] at hlt ⊢
        apply hlt.trans_le
        apply Nat.mul_le_mul_right
        simp
    · intro hs
      exact hslash ⟨f, List.mem_cons_self, hs⟩

theorem main_spec
    (files : List File) (hroom : files.length + 2 ≤ maxInodes)
    (hread : FSSIZE < nmeta + need (layout files) → E .read)
    (hmax : (∃ f ∈ files, MAXFILE * BSIZE < f.contents.length) ∨
      MAXFILE * BSIZE < (rootBytes files).length → E .maxfile)
    (hslash : (∃ f ∈ files, 47 ∈ f.name) → E .slash) :
  Wp E (main files) (fun _ image => ∃ st, Laid st (layout files) ∧ image = st.finish) start
  := by
  rw [main]
  apply makeRoot_spec.bind
  rintro _ st ⟨rfl, h⟩
  apply (addFiles_spec h hroom hread hmax hslash).bind
  intro _ st' h'
  rw [List.nil_append] at h'
  apply (finish_spec h').mono
  rintro _ _ rfl
  exact ⟨st', h', rfl⟩

/-- `mkfs` succeeds with files that fit. -/
theorem main_ok
    {files : List File} (hinodes : files.length + 1 < NINODES)
    (hsize : ∀ f ∈ files, f.contents.length ≤ MAXFILE * BSIZE)
    (hslash : ∀ f ∈ files, 47 ∉ f.name) (hblocks : nmeta + need (layout files) ≤ FSSIZE) :
  ∃ st, main files start = .ok ((), st.finish) ∧ Laid st (layout files)
  := by
  have hroot : (rootBytes files).length ≤ MAXFILE * BSIZE := by
    rw [length_rootBytes]
    simp only [Dirent.size, DIRSIZ, MAXFILE, NDIRECT, NINDIRECT, BSIZE, NINODES] at hinodes ⊢
    omega
  have hroom : files.length + 2 ≤ maxInodes := by
    have : NINODES ≤ maxInodes := by
      decide
    omega
  have hmain := main_spec (E := fun _ => False) files hroom ?_ ?_ ?_
  · obtain ⟨_, _, hok, st, hlaid, rfl⟩ := hmain.exists_ok
    exact ⟨st, hok, hlaid⟩
  · exact hblocks.not_gt
  · rintro (⟨f, hf, hlt⟩ | hlt)
    · exact absurd (hsize f hf) hlt.not_ge
    · exact absurd hroot hlt.not_ge
  · rintro ⟨f, hf, hs⟩
    exact hslash f hf hs

end Xv6.Mkfs
