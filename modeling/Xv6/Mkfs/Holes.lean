import Xv6.Mkfs.Main

/-!
# Holes in the image

`mkfs` rounds the size of the root directory up to the next block, also when its entries end with a
block; the block after them has no address then.  And `mkfs` does not check the number of inodes:
those that do not fit before the free map are overwritten by it.
-/

namespace Xv6.Mkfs

open Fs

/-- Every inode of the file system and every inode that `mkfs` made has an address for every block
below its size. -/
def Image.NoHoles (image : Image) : Prop :=
  ∀ i, i < NINODES ∨ i < image.freeinode → (image.inodes i).NoHole image.disk

variable {st : Image} {l : List Contents} {i : Nat}

/-! ### When the inodes fit before the free map -/

theorem finish_of_le {k : Nat} (hk : sb.bmapstart.toNat ≤ k) :
  st.finish.disk k = st.view k
  := setDinode_view_of_le (by decide) hk

theorem inodes_finish_of_ne (hi : i < maxInodes) (hne : i ≠ 1) :
  st.finish.inodes i = st.inodes i
  := by
  apply (dinode_setDinode_of_ne hne).trans
  apply dinode_congr
  apply Image.view_of_ne (IBLOCK_lt hi).2.ne

theorem inodes_finish_root :
  st.finish.inodes 1
    = { st.inodes 1 with size := .ofNat (((st.inodes 1).size.toNat / BSIZE + 1) * BSIZE) }
  := dinode_setDinode_self

theorem Laid.blockAddr_finish (h : Laid st l) (hlive : Live mapSb st.inodes i) (k : Nat) :
  (st.inodes i).blockAddr st.finish.disk k = (st.inodes i).blockAddr st.view k
  := Dinode.blockAddr_congr
    (fun hind => finish_of_le (bmapstart_le (h.owned.ind_used hlive hind).1.1)) k

/-- The input files have no hole. -/
theorem Laid.noHole_finish_of_ne (h : Laid st l) (hi : i < maxInodes) (hne : i ≠ 1) :
  (st.finish.inodes i).NoHole st.finish.disk
  := by
  rw [inodes_finish_of_ne hi hne]
  intro k hk
  by_cases hunused : i = 0 ∨ st.freeinode ≤ i
  · rw [h.unused i hi hunused] at hk
    cases Nat.not_lt_zero _ hk
  · obtain ⟨j, rfl⟩ : ∃ j, i = j + 1 := ⟨i - 1, by omega⟩
    have hlive : Live mapSb st.inodes (j + 1) := by
      apply h.live
      have := h.count
      omega
    rw [h.blockAddr_finish hlive]
    apply mapped_iff.mp (h.owned.noHole _ hlive k hk)

theorem layout_pos (files : List File) : 0 < (layout files).length
  := by
  rw [length_layout]
  omega

section

variable {files : List File} (h : Laid st (layout files))

include h

theorem Laid.length_le : files.length + 2 ≤ maxInodes
  := by
  have := h.room
  rw [h.count, length_layout] at this
  exact this

/-- The size of the root directory. -/
theorem Laid.size_root : (st.inodes 1).size.toNat = (files.length + 2) * Dirent.size
  := by
  rw [(h.file 0 (layout_pos files)).size_eq, ← length_rootBytes]
  rfl

end

/-- The root directory has no hole unless its entries end with a block. -/
theorem Laid.noHole_finish_root {files : List File} (h : Laid st (layout files)) :
  (st.finish.inodes 1).NoHole st.finish.disk ↔ (files.length + 2) % (BSIZE / Dirent.size) ≠ 0
  := by
  have hj := layout_pos files
  have hfile := h.file 0 hj
  have hlive := h.live hj
  have hsize := h.size_root
  have hroom := h.length_le
  have hround : (UInt32.ofNat (((st.inodes 1).size.toNat / BSIZE + 1) * BSIZE)).toNat
      = ((files.length + 2) * Dirent.size / BSIZE + 1) * BSIZE := by
    rw [hsize, UInt32.toNat_ofNat', Nat.mod_eq_of_lt]
    simp only [maxInodes, ninodeblocks, NINODES, IPB, BSIZE, Dirent.size, DIRSIZ] at hroom ⊢
    omega
  have haddr : ∀ k, (st.finish.inodes 1).blockAddr st.finish.disk k
      = (st.inodes 1).blockAddr st.view k := by
    intro k
    rw [inodes_finish_root, ← h.blockAddr_finish hlive k]
    rfl
  have hmapped : ∀ k, (st.inodes 1).blockAddr st.view k ≠ 0 ↔
      k * BSIZE < (files.length + 2) * Dirent.size := by
    intro k
    constructor
    · intro hne
      by_contra hge
      apply hne
      apply hfile.within.1
      rw [← hfile.size_eq, hsize, blocksOf]
      simp only [BSIZE, Dirent.size, DIRSIZ] at hge ⊢
      omega
    · intro hk
      rw [← hsize] at hk
      apply mapped_iff.mp (h.owned.noHole 1 hlive k hk)
  simp only [Dinode.NoHole, haddr, hmapped]
  rw [inodes_finish_root]
  dsimp only
  rw [hround]
  simp only [BSIZE, Dirent.size, DIRSIZ]
  constructor
  · intro hall hmod
    have := hall ((files.length + 2) * 16 / 512) (by omega)
    omega
  · intro hmod k hk
    omega

/-! ### When they do not -/

/-- The computation does not give inodes or blocks back. -/
def Takes {α : Type} (x : MkfsM α) : Prop :=
  ∀ st, Wp (fun _ => True) x
    (fun _ st' => st.freeblock ≤ st'.freeblock ∧ st.freeinode ≤ st'.freeinode) st

namespace Takes

variable {α β : Type}

theorem pure (a : α) :
  Takes (pure a)
  := fun _ => ⟨le_rfl, le_rfl⟩

theorem bind {x : MkfsM α} {f : α → MkfsM β} (hx : Takes x) (hf : ∀ a, Takes (f a)) :
  Takes (x >>= f)
  := by
  intro st
  apply (hx st).bind
  intro a st₁ h₁
  apply (hf a st₁).mono
  intro _ st₂ h₂
  omega

theorem wsect (b : Nat) (buf : Block) :
  Takes (wsect b buf)
  := fun _ => ⟨le_rfl, le_rfl⟩

theorem takeBlock :
  Takes takeBlock
  := fun _ => ⟨Nat.le_succ _, le_rfl⟩

theorem rsect (b : Nat) :
  Takes (rsect b)
  := by
  intro st
  rw [Mkfs.rsect, wp_bind, wp_get]
  split
  · exact pure _ st
  · trivial

theorem winode (i : Nat) (x : Dinode) :
  Takes (winode i x)
  := (rsect _).bind fun _ => wsect _ _

theorem rinode (i : Nat) :
  Takes (rinode i)
  := (rsect _).bind fun _ => pure _

theorem appendInner (din : Dinode) (j : Nat) :
  Takes (appendInner din j)
  := by
  apply (rsect _).bind
  intro indirect
  split
  · apply takeBlock.bind
    intro x
    apply (wsect _ _).bind
    intro _
    exact (rsect _).bind fun _ => pure _
  · exact (rsect _).bind fun _ => pure _

theorem appendBlock (din : Dinode) (k : Nat) :
  Takes (appendBlock din k)
  := by
  rw [Mkfs.appendBlock]
  split
  · split
    · apply takeBlock.bind
      intro x
      exact (rsect _).bind fun _ => pure _
    · exact (rsect _).bind fun _ => pure _
  · split
    · exact takeBlock.bind fun _ => appendInner _ _
    · exact appendInner _ _

theorem appendLoop (fuel : Nat) (din : Dinode) (off : Nat) (p : List UInt8) :
  Takes (appendLoop fuel din off p)
  := by
  induction fuel generalizing din off p with
  | zero => exact pure _
  | succ fuel ih =>
    rw [Mkfs.appendLoop]
    dsimp only
    split
    · split
      · apply (appendBlock _ _).bind
        rintro ⟨din, x, buf⟩
        exact (wsect _ _).bind fun _ => ih _ _ _
      · exact fun _ => trivial
    · exact pure _

theorem iappend (i : Nat) (p : List UInt8) :
  Takes (iappend i p)
  := by
  apply (rinode i).bind
  intro din
  apply (appendLoop _ _ _ _).bind
  rintro ⟨din, off⟩
  exact winode _ _

theorem forM {γ : Type} {f : γ → MkfsM Unit} (hf : ∀ c, Takes (f c)) (l : List γ) :
  Takes (l.forM f)
  := by
  induction l with
  | nil => exact pure _
  | cons c l ih => exact (hf c).bind fun _ => ih

end Takes

/-- A file takes an inode. -/
theorem addFile_takes (rootino : Nat) (f : File) (st : Image) :
  Wp (fun _ => True) (addFile rootino f)
    (fun _ st' => st.freeblock ≤ st'.freeblock ∧ st.freeinode + 1 ≤ st'.freeinode) st
  := by
  rw [addFile]
  split
  · trivial
  · rw [wp_bind, ialloc, wp_bind, wp_get, wp_bind, wp_set]
    apply ((Takes.winode _ _) _).bind
    intro _ st₁ h₁
    rw [wp_pure]
    have hrest : Takes (do
        iappend rootino (Dirent.make (.ofList f.target) (.ofNat st.freeinode)).bytes
        f.chunks.forM (iappend st.freeinode)) :=
      (Takes.iappend _ _).bind fun _ => .forM (fun c => .iappend _ c) _
    apply (hrest st₁).mono
    intro _ st₂ h₂
    dsimp only at h₁
    omega

section

variable {used k : Nat} (hused : used ≤ BPB) (hk : k < BSIZE)

include hused hk

/-- The bits of the free map that `mkfs` writes. -/
theorem testBit_bitmap {j : Nat} (hj : j < 8) :
  ((bitmap used).byte k).toNat.testBit j = decide (8 * k + j < used)
  := by
  have hlt : 8 * k + j < BPB := by
    simp only [BPB, BSIZE] at hk ⊢
    omega
  have hbit := Image.bit_view ⟨fun _ => .zero, 0, 0, used⟩ hused hlt
  rw [bit_eq_testBit, BBLOCK_mapSb hlt, Image.view, Function.update_self, Nat.mod_eq_of_lt hlt]
    at hbit
  rw [← hbit]
  congr 3 <;> omega

/-- A byte of the free map whose bits are all equal. -/
theorem byte_bitmap {x : UInt8} (hx : ∀ j < 8, x.toNat.testBit j = decide (8 * k + j < used)) :
  (bitmap used).byte k = x
  := by
  apply UInt8.toNat_inj.mp
  apply Nat.eq_of_testBit_eq
  intro j
  by_cases hj : j < 8
  · rw [testBit_bitmap hused hk hj, hx j hj]
  · have hpow : 2 ^ 8 ≤ 2 ^ j := Nat.pow_le_pow_right (by decide) (Nat.le_of_not_lt hj)
    rw [Nat.testBit_lt_two_pow ((UInt8.toNat_lt _).trans_le hpow),
      Nat.testBit_lt_two_pow ((UInt8.toNat_lt _).trans_le hpow)]

theorem byte_bitmap_of_le (h : used ≤ 8 * k) :
  (bitmap used).byte k = 0
  := by
  apply byte_bitmap hused hk
  intro j hj
  rw [UInt8.toNat_zero, Nat.zero_testBit, decide_eq_false]
  omega

theorem byte_bitmap_of_lt (h : 8 * (k + 1) ≤ used) :
  (bitmap used).byte k = 255
  := by
  apply byte_bitmap hused hk
  intro j hj
  rw [show (255 : UInt8).toNat = 2 ^ 8 - 1 from rfl, Nat.testBit_two_pow_sub_one, decide_eq_decide]
  omega

theorem byte_bitmap_ne_zero (h : 8 * k < used) :
  (bitmap used).byte k ≠ 0
  := by
  intro hzero
  have hbit := testBit_bitmap (j := 0) hused hk (by decide)
  rw [hzero, UInt8.toNat_zero, Nat.zero_testBit] at hbit
  exact absurd (of_decide_eq_false hbit.symm) (by omega)

end

theorem word_ne_zero {b : Block} (h : b.byte (4 * i) ≠ 0) :
  b.word i ≠ 0
  := by
  have := (b.byte (4 * i)).toNat_lt
  have := (b.byte (4 * i + 1)).toNat_lt
  have := (b.byte (4 * i + 2)).toNat_lt
  have := (b.byte (4 * i + 3)).toNat_lt
  rw [ne_eq, ← UInt8.toNat_inj, UInt8.toNat_zero] at h
  rw [← toNat_ne_zero, Block.word, UInt32.toNat_ofNat']
  omega

/-- The first inode that does not fit has a hole when the free map is written over it. -/
theorem hole_of_bitmap {d : Disk} {used : Nat} (hd : d sb.bmapstart.toNat = bitmap used)
    (hlow : 64 < used) (hhigh : used ≤ BPB) :
  ¬ (dinode sb d maxInodes).NoHole d
  := by
  have hword : ∀ k, (d (sb.IBLOCK maxInodes)).word (iwords * (maxInodes % IPB) + k)
      = (bitmap used).word k := by
    intro k
    rw [show sb.IBLOCK maxInodes = sb.bmapstart.toNat by decide, hd,
      show maxInodes % IPB = 0 by decide, Nat.mul_zero, Nat.zero_add]
  simp only [dinode, hword]
  intro hhole
  rcases Nat.lt_or_ge used 96 with hlt | hge
  · -- there is no first block
    apply hhole 0
    · have hword₂ := word_ne_zero (i := 2) (byte_bitmap_ne_zero (k := 8) hhigh (by decide) hlow)
      rw [Nat.zero_mul]
      exact Nat.pos_of_ne_zero (toNat_ne_zero.mpr hword₂)
    · have hzero : ∀ k, 12 ≤ k → k < 16 → (bitmap used).byte k = 0 := by
        intro k hk hk'
        apply byte_bitmap_of_le hhigh _ (by omega)
        simp only [BSIZE]
        omega
      have hword₃ : (bitmap used).word 3 = 0 := by
        rw [Block.word, hzero 12 le_rfl (by omega), hzero 13 (by omega) (by omega),
          hzero 14 (by omega) (by omega), hzero 15 (by omega) (by omega)]
        rfl
      rw [Dinode.blockAddr, dif_pos (by decide)]
      exact congrArg UInt32.toNat hword₃
  · -- the file is too large
    apply hhole MAXFILE
    · have hones : ∀ k, 8 ≤ k → k < 12 → (bitmap used).byte k = 255 := by
        intro k hk hk'
        apply byte_bitmap_of_lt hhigh _ (by omega)
        simp only [BSIZE]
        omega
      have hword₂ : (bitmap used).word 2 = 4294967295 := by
        rw [Block.word, hones 8 le_rfl (by omega), hones 9 (by omega) (by omega),
          hones 10 (by omega) (by omega), hones 11 (by omega) (by omega)]
        rfl
      simp only [Dinode.ofWords, hword₂]
      decide
    · simp [Dinode.blockAddr]

/-- The blocks of the root directory are different ones. -/
theorem Laid.le_freeblock {files : List File} (h : Laid st (layout files)) :
  nmeta + blocksOf ((files.length + 2) * Dirent.size) ≤ st.freeblock
  := by
  have hj := layout_pos files
  have hlive := h.live hj
  have hsize := h.size_root
  have hmapped : ∀ k < blocksOf ((files.length + 2) * Dirent.size),
      Mapped st.inodes st.view 1 k := by
    intro k hk
    apply h.owned.noHole 1 hlive
    rw [blocksOf] at hk
    rw [hsize]
    simp only [BSIZE] at hk ⊢
    omega
  have hcard := Finset.card_le_card_of_injOn
    (s := Finset.range (blocksOf ((files.length + 2) * Dirent.size)))
    (t := Finset.Ico nmeta st.freeblock) ((st.inodes 1).blockAddr st.view) ?_ ?_
  · have hlow := st.low h.owned h.high
    rw [Finset.card_range, Nat.card_Ico] at hcard
    omega
  · intro k hk
    obtain ⟨p, hp, hne⟩ := hmapped k (Finset.mem_range.mp hk)
    have hused := h.owned.used_of_live (inum_of_placeOf hp ▸ hlive) hne
    have hlt := st.used_lt h.high hused
    rw [blockAddr_of_placeOf hp]
    exact Finset.mem_Ico.mpr hlt
  · intro k hk k' hk' heq
    obtain ⟨p, hp, hne⟩ := hmapped k (Finset.mem_range.mp hk)
    obtain ⟨p', hp', -⟩ := hmapped k' (Finset.mem_range.mp hk')
    rw [blockAddr_of_placeOf hp, blockAddr_of_placeOf hp'] at heq
    have hpp := h.owned.place_eq (inum_of_placeOf hp ▸ hlive) (inum_of_placeOf hp' ▸ hlive) hne heq
    rw [← block_of_placeOf hp, hpp, block_of_placeOf hp']

/-- The end of `main` writes the free map. -/
theorem finish_takes (st : Image) :
  Wp (fun _ => True) (do
      fixRoot 1
      let st ← get
      balloc st.freeblock)
    (fun _ image => st.freeblock ≤ image.freeblock ∧ st.freeinode ≤ image.freeinode ∧
      image.freeblock ≤ BPB ∧ image.disk sb.bmapstart.toNat = bitmap image.freeblock) st
  := by
  have hfix : Takes (fixRoot 1) := (Takes.rinode 1).bind fun _ => .winode _ _
  apply (hfix st).bind
  rintro _ st₁ ⟨hblock, hinode⟩
  rw [wp_bind, wp_get, balloc]
  split
  · rename_i hused
    refine ⟨hblock, hinode, hused.le, ?_⟩
    exact Function.update_self sb.bmapstart.toNat _ st₁.disk
  · trivial

/-- Too many files. -/
theorem holes_of_many {files : List File} (hmany : maxInodes < files.length + 2) :
  Wp (fun _ => True) (main files) (fun _ image => ¬ image.NoHoles) start
  := by
  have hmax : 2 ≤ maxInodes := by
    decide
  obtain ⟨f, rest, hrest⟩ : ∃ f rest, files.drop (maxInodes - 2) = f :: rest := by
    cases hdrop : files.drop (maxInodes - 2) with
    | nil =>
      have := List.drop_eq_nil_iff.mp hdrop
      omega
    | cons f rest => exact ⟨f, rest, rfl⟩
  have hlen : (files.take (maxInodes - 2)).length = maxInodes - 2 := by
    rw [List.length_take]
    omega
  rw [main]
  apply makeRoot_spec.bind
  rintro _ st ⟨rfl, h⟩
  rw [wp_bind, ← List.take_append_drop (maxInodes - 2) files, hrest, wp_forM_append]
  apply (addFiles_spec h ?_ (fun _ => trivial) (fun _ => trivial) (fun _ => trivial)).mono
  · intro _ st₁ h₁
    rw [List.nil_append] at h₁
    have hblocks := h₁.le_freeblock
    have hcount := h₁.count
    rw [hlen] at hblocks
    rw [length_layout, hlen] at hcount
    rw [List.forM]
    apply (addFile_takes 1 f st₁).bind
    intro _ st₂ h₂
    apply (Takes.forM (fun c => (fun st => (addFile_takes 1 c st).mono (by omega))) rest st₂).mono
    intro _ st₃ h₃
    apply (finish_takes st₃).mono
    rintro _ image ⟨hblock, hinode, hhigh, hmap⟩ hholes
    have hlow : 64 < nmeta + blocksOf ((maxInodes - 2 + 2) * Dirent.size) := by
      decide
    apply hole_of_bitmap hmap (by omega) hhigh
    apply hholes
    right
    omega
  · rw [List.nil_append, hlen]
    omega

/-! ### The result -/

/-- When `mkfs` succeeds, no inode has a hole if and only if the inodes fit before the free map and
the entries of the root directory do not end with a block. -/
theorem noHoles_iff {files : List File} {image : Image} (h : main files start = .ok ((), image)) :
  image.NoHoles ↔ files.length + 2 ≤ ninodeblocks * IPB ∧
    (files.length + 2) % (BSIZE / Dirent.size) ≠ 0
  := by
  by_cases hroom : files.length + 2 ≤ maxInodes
  · have hmain := main_spec (E := fun _ => True) files hroom (fun _ => trivial) (fun _ => trivial)
      (fun _ => trivial)
    obtain ⟨st, hlaid, rfl⟩ := hmain.of_ok h
    have hbound : NINODES ≤ maxInodes := by
      decide
    have hroot : 1 < NINODES := by
      decide
    have hfree : st.finish.freeinode ≤ maxInodes := hlaid.room
    rw [← hlaid.noHole_finish_root]
    constructor
    · intro hholes
      exact ⟨hroom, hholes 1 (.inl hroot)⟩
    · rintro ⟨-, hone⟩ i hi
      rcases eq_or_ne i 1 with rfl | hne
      · exact hone
      · exact hlaid.noHole_finish_of_ne (by omega) hne
  · constructor
    · intro hholes
      cases (holes_of_many (by omega)).of_ok h hholes
    · rintro ⟨hle, -⟩
      cases hroom hle

/-- Two files do not fill the block of the root directory. -/
theorem noHoles_iff_two :
  ∃ image, main [⟨[95, 108, 115], [[1, 2, 3]]⟩, ⟨[82], [[4], [5]]⟩] start = .ok ((), image) ∧
    image.NoHoles
  := by
  obtain ⟨st, hok, -⟩ := @main_ok [⟨[95, 108, 115], [[1, 2, 3]]⟩, ⟨[82], [[4], [5]]⟩] (by decide)
    (by decide) (by decide) (by decide +kernel)
  exact ⟨_, hok, (noHoles_iff hok).mpr (by decide)⟩

/-- With thirty files, the entries of the root directory fill its block, and the block after it has
no address. -/
theorem hole_thirtyFiles :
  ∃ image, main (List.replicate 30 ⟨[97], []⟩) start = .ok ((), image) ∧ ¬ image.NoHoles
  := by
  obtain ⟨st, hok, hlaid⟩ := @main_ok (List.replicate 30 ⟨[97], []⟩) (by decide) (by decide)
    (by decide) (by decide +kernel)
  refine ⟨_, hok, ?_⟩
  intro hholes
  exact absurd (hlaid.noHole_finish_root.mp (hholes 1 (.inl (by decide)))) (by decide)

end Xv6.Mkfs
