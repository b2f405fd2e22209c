import Xv6.Vm.Args
import Xv6.Vm.Isolation

/-!
# `exec` of any file

Whatever a program file contains and wherever `kalloc` fails, `exec` leaves the process as it was or
gives it a new image below `KERNBASE`, unless the arguments overrun the image.  Then a process can
choose the page that `copyout` writes to: it puts an entry for the page at address 0, where the null
pointer leads.  So every page has one role as long as no arguments overrun an image, but not longer.
-/

namespace Xv6.Vm

open Ptable (Slot)
open Syscall (Caller)

variable {L : Layout} {m m' m₁ m₂ : Memory} {d sz : Nat} {ip : Inode} {elf : Elfhdr}
  {argv : List (List UInt8)}

/-! ### The size of an image -/

/-- The size of the memory after `n` program headers, as far as the headers tell. -/
def segmentsSize (ip : Inode) : (n off sz : Nat) → Nat
  | 0, _, sz => sz
  | n + 1, off, sz =>
    let ph := Proghdr.ofBytes ((ip.readi off Proghdr.size).getD [])
    segmentsSize ip n ((off + Proghdr.size) % 2 ^ 32)
      (if ph.type = ELF_PROG_LOAD then max sz ((ph.vaddr + ph.memsz) % 2 ^ 32) else sz)

/-- The size of an image: the segments, a page that is not accessible and the stack. -/
def imageSize (ip : Inode) (elf : Elfhdr) : Nat :=
  pgroundup (segmentsSize ip elf.phnum elf.phoff 0) + 2 * PGSIZE

/-- What `sys_exec` accepts. -/
def Accepted (argv : List (List UInt8)) : Prop :=
  argv.length < MAXARG ∧ ∀ str ∈ argv, str.length + 1 < KERNBASE

/-- The argument strings overrun the image that the program headers ask for. -/
def ArgsOverrun (ip : Inode) (argv : List (List UInt8)) : Prop :=
  ∃ bs, ip.readi 0 Elfhdr.size = some bs ∧
    Overruns (imageSize ip (.ofBytes bs)) (imageSize ip (.ofBytes bs)) argv

theorem wp_true {α : Type} (x : Mem α) :
  Wp (fun _ => True) x (fun _ _ => True) m
  := by
  unfold Wp
  split
  · trivial
  · trivial

/-- What `allocuvm` returns when it does not fail. -/
theorem allocLoop_size (oldsz newsz n a : Nat) :
  Wp (fun _ => True) (allocLoop L d oldsz newsz n a) (fun r _ => r ≠ 0 → r = newsz) m
  := by
  induction n generalizing a m with
  | zero => exact fun _ => rfl
  | succ n ih =>
    rw [allocLoop]
    apply (wp_true kalloc).bind
    rintro (_ | f) m₁ -
    · rw [wp_bind]
      exact (wp_true _).mono fun _ _ _ hne => absurd rfl hne
    · rw [wp_bind, wp_modify]
      apply (wp_true _).bind
      rintro (_ | _) m₂ -
      · rw [if_neg Bool.false_ne_true]
        apply (wp_true _).bind
        intro _ m₃ _
        rw [wp_bind]
        exact (wp_true _).mono fun _ _ _ hne => absurd rfl hne
      · rw [if_pos rfl]
        exact ih _

theorem allocuvm_size (oldsz newsz : Nat) :
  Wp (fun _ => True) (allocuvm L d oldsz newsz) (fun r _ => r ≠ 0 → r = max oldsz newsz) m
  := by
  rcases Nat.lt_or_ge newsz KERNBASE with hnew | hnew
  · rcases Nat.lt_or_ge newsz oldsz with hlt | hle
    · rw [wp_allocuvm_of_lt hnew hlt, Nat.max_eq_left hlt.le]
      exact fun _ => rfl
    · rw [allocuvm, if_neg (by omega), if_neg (by omega), Nat.max_eq_right hle]
      exact allocLoop_size ..
  · rw [wp_allocuvm_of_ge hnew]
    exact fun hne => absurd rfl hne

theorem loadSegment_size (ph : Proghdr) (sz : Nat) :
  Wp (fun _ => True) (loadSegment L ip d ph sz)
    (fun r _ => ∀ sz' ∈ r, sz' =
      if ph.type = ELF_PROG_LOAD then max sz ((ph.vaddr + ph.memsz) % 2 ^ 32) else sz) m
  := by
  rw [loadSegment]
  by_cases htype : ph.type = ELF_PROG_LOAD
  · rw [if_neg (not_not.mpr htype)]
    split
    · rintro sz' ⟨⟩
    split
    · rintro sz' ⟨⟩
    apply (allocuvm_size ..).bind
    intro r m₁ hr
    split
    · rintro sz' ⟨⟩
    rename_i hne
    split
    · rintro sz' ⟨⟩
    apply (wp_true _).bind
    rintro (_ | _) m₂ -
    · rintro sz' ⟨⟩
    · rintro sz' ⟨⟩
      exact hr hne
  · rw [if_pos htype, if_neg htype]
    rintro sz' ⟨⟩
    rfl

/-- The size after the loop of `exec` over the program headers. -/
theorem loadSegments_size (n off sz : Nat) :
  Wp (fun _ => True) (loadSegments L ip d n off sz)
    (fun r _ => ∀ sz' ∈ r, sz' = segmentsSize ip n off sz) m
  := by
  induction n generalizing off sz m with
  | zero =>
    rintro sz' ⟨⟩
    rfl
  | succ n ih =>
    rw [loadSegments]
    split
    · rintro sz' ⟨⟩
    rename_i bs hread
    split
    · rintro sz' ⟨⟩
    apply (loadSegment_size ..).bind
    rintro (_ | sz₁) m₁ hsz₁
    · rintro sz' ⟨⟩
    · rw [segmentsSize, hread]
      have := hsz₁ sz₁ rfl
      dsimp only [Option.getD_some]
      rw [← this]
      exact ih ..

theorem loadImage_size :
  Wp (fun _ => True) (loadImage L ip elf d) (fun r _ => ∀ sz ∈ r, sz = imageSize ip elf) m
  := by
  rw [loadImage]
  apply (loadSegments_size ..).bind
  rintro (_ | sz) m₁ hsz
  · rintro sz' ⟨⟩
  · apply (allocuvm_size ..).bind
    intro r m₂ hr
    split
    · rintro sz' ⟨⟩
    rename_i hne
    apply (wp_true _).bind
    rintro _ m₃ - sz' ⟨⟩
    rw [hr hne, imageSize, ← hsz sz rfl, Nat.max_eq_right (Nat.le_add_right _ _)]

/-! ### Building the image -/

/-- A null pointer leads to the same word as long as the pages of the process are not traded. -/
theorem nullWord_of_trade
    {A : Multiset Nat} (hp : Pool L m (m.owned d)) (h : Trade 0 m A m') :
  m'.nullWord d = m.nullWord d
  := by
  obtain ⟨-, hentry, hpage⟩ := hp.entry_of_trade h
  simp only [Memory.nullWord, hentry]
  split
  · rename_i hP
    rw [hpage _ (Multiset.mem_add.mpr (.inr (Space.mem_frames (by decide) hP)))]
  · rfl

/-- `exec` builds an image, if a null pointer does no harm when the arguments overrun it. -/
theorem execImage_args
    {E : Fault → Prop} {null : Mem UInt32} (hp : Pool L m 0) (hargv : Accepted argv)
    (hnull : ArgsOverrun ip argv →
      ∀ {d m'}, Trade 0 m (m'.owned d) m' → Harmless E True null m') :
  Wp E (execImage L null ip argv)
    (fun r m' => Builds L m r m' ∧ ∀ img ∈ r, Stack m' img.pgdir img.sz) m
  := by
  apply execImage_of_pushArgs hp
  intro bs d m₁ sz m₂ hread hload htrade hs hk
  have hsize := loadImage_size.of_ok hload sz rfl
  apply (pushArgs_fault (N := True) (hp.trade htrade) hs hk hargv.1 hargv.2 _).mono fun _ _ h => h.1
  intro hover m' hm'
  rw [hsize] at hover
  exact hnull ⟨bs, hread, hover⟩ (htrade.trans hm'.trade_owned)

/-! ### The calls of `loaduvm` -/

/-- `exec` calls `loaduvm` in the memory `m₂` for the segment `ph`: the headers before it are done,
and `allocuvm` has made room for it. -/
def CallsLoaduvm (L : Layout) (ip : Inode) (elf : Elfhdr) (d : Nat) (m₁ : Memory) (ph : Proghdr)
    (m₂ : Memory) : Prop :=
  ∃ k < elf.phnum, ∃ sz m bs sz', loadSegments L ip d k elf.phoff 0 m₁ = .ok (some sz, m) ∧
    ip.readi ((elf.phoff + k * Proghdr.size) % 2 ^ 32) Proghdr.size = some bs ∧
    bs.length = Proghdr.size ∧ ph = .ofBytes bs ∧ ph.type = ELF_PROG_LOAD ∧
    ¬ ph.memsz < ph.filesz ∧ ¬ (ph.vaddr + ph.memsz) % 2 ^ 32 < ph.vaddr ∧
    allocuvm L d sz ((ph.vaddr + ph.memsz) % 2 ^ 32) m = .ok (sz', m₂) ∧ sz' ≠ 0 ∧
    ph.vaddr % PGSIZE = 0

/-- Such a call returns, and writes into the segment only. -/
theorem CallsLoaduvm.writes
    {ph : Proghdr} (hp : Pool L m₁ (m₁.owned d)) (hs : Space L m₁ d 0)
    (h : CallsLoaduvm L ip elf d m₁ ph m₂) :
  ∃ ok m₃, loaduvm d ph.vaddr ip ph.off ph.filesz m₂ = .ok (ok, m₃) ∧
    Writes d ph.vaddr (ph.vaddr + ph.filesz) m₂ m₃
  := by
  obtain ⟨k, -, sz, m, bs, sz', hsegments, -, -, rfl, -, hfilesz, hwrap, halloc, hne, haddr⟩ := h
  obtain ⟨htrade, hspace⟩ := (loadSegments_spec hp hs).of_ok hsegments
  have hp' := hp.trade htrade
  obtain ⟨htrade₂, hr⟩ := (allocuvm_space hp' (hspace sz rfl) _).of_ok halloc
  obtain ⟨hle, hs₂⟩ := hr hne
  have hvaddr := field_lt bs 8 4
  have hmemsz := field_lt bs 20 4
  apply (loaduvm_spec (hp'.trade htrade₂) hs₂ haddr _).exists_ok
  simp only [Proghdr.ofBytes] at hfilesz hwrap hle ⊢
  omega

/-! ### `exec` -/

variable {s s' : Kernel} {p : Slot} {u : Caller} {path : List UInt8} {f : Nat}

/-- The process and its memory are as before. -/
structure ExecKeeps (s s' : Kernel) (p : Slot) : Prop where
  proc : s'.proc = s.proc
  owned : s'.mem.owned (s.proc p).pgdir = s.mem.owned (s.proc p).pgdir
  pages : ∀ f ∈ s.mem.owned (s.proc p).pgdir, s'.mem.page f = s.mem.page f

/-- The process has a new image, below `KERNBASE`, with a page below the stack that the user cannot
access. -/
structure ExecImage (s' : Kernel) (p : Slot) : Prop where
  lt : (s'.proc p).sz < KERNBASE
  below : ∀ e : Entry, isP (s'.mem.entry (s'.proc p).pgdir e) →
    e.1 < pdx KERNBASE ∨ isU (s'.mem.entry (s'.proc p).pgdir e) → PGSIZE * e.vpn < (s'.proc p).sz
  stack : isP (s'.mem.entry (s'.proc p).pgdir (.ofVa ((s'.proc p).sz - PGSIZE))) ∧
    isU (s'.mem.entry (s'.proc p).pgdir (.ofVa ((s'.proc p).sz - PGSIZE)))
  guard : 2 * PGSIZE ≤ (s'.proc p).sz ∧
    isU (s'.mem.entry (s'.proc p).pgdir (.ofVa ((s'.proc p).sz - 2 * PGSIZE))) = false

/-- The arguments do not overrun the image, or a null pointer leads to an entry that the user may
not access. -/
def ExecSafe (s : Kernel) (p : Slot) (ip : Inode) (argv : List (List UInt8)) : Prop :=
  ArgsOverrun ip argv →
    ∃ w, s.mem.nullWord (s.proc p).pgdir = some w ∧ ¬ (isP w ∧ isU w)

theorem exec_args
    (h : Inv L s) (hp : (s.proc p).HasImage) (hargv : Accepted argv)
    (hsafe : ExecSafe s p ip argv) :
  Wp NoFault (exec L readNull p path (some ip) argv)
    (fun ok s' => Moves L s 0 s' ∧ (ok = false → ExecKeeps s s' p) ∧
      (ok = true → ExecImage s' p)) s
  := by
  have himage : Wp NoFault (execImage L (readNull (s.proc p).pgdir) ip argv)
      (fun r m' => Builds L s.mem r m' ∧ ∀ img ∈ r, Stack m' img.pgdir img.sz) s.mem := by
    apply execImage_args (h.pool.of_le (Multiset.zero_le _)) hargv
    intro hover d m' htrade
    obtain ⟨w, hw, hpte⟩ := hsafe hover
    rw [Harmless, readNull, wp_bind, wp_get, nullWord_of_trade (h.owned hp) htrade, hw]
    exact ⟨rfl, hpte, trivial⟩
  have himage' := himage.mono fun r m' hm' => (⟨hm'.1, hm'⟩ : Builds L s.mem r m' ∧ _)
  apply (exec_of_image h hp himage').mono
  rintro (_ | _) s' ⟨hmoves, hs'⟩
  · obtain ⟨hproc, htrade, -⟩ := hs'
    refine ⟨hmoves, fun _ => ?_, by intro hok; cases hok⟩
    obtain ⟨-, -, hpage⟩ := (h.owned hp).entry_of_trade htrade
    refine ⟨hproc, ?_, hpage⟩
    exact Memory.owned_congr fun f hf => hpage f (Multiset.mem_add.mpr (.inl hf))
  · obtain ⟨img, m₁, ⟨⟨-, hspace⟩, hstack⟩, hproc, hpage⟩ := hs'
    refine ⟨hmoves, (by intro hok; cases hok), fun _ => ?_⟩
    have hk := hstack img rfl
    have hentry : s'.mem.entry img.pgdir = m₁.entry img.pgdir :=
      Memory.entry_congr fun f hf => hpage f (Multiset.mem_add.mpr (.inl hf))
    have hpgdir : (s'.proc p).pgdir = img.pgdir := by
      rw [hproc]
      rfl
    have hsz : (s'.proc p).sz = img.sz := by
      rw [hproc]
      rfl
    constructor
    · rw [hsz]
      exact hspace.lt
    · rw [hpgdir, hsz, hentry]
      intro e hP he
      have huser := he.elim id hspace.user_of_isU
      exact lt_npages_iff.mp (hspace.below e huser hP)
    · rw [hpgdir, hsz, hentry]
      exact hk.stack
    · rw [hpgdir, hsz, hentry]
      exact ⟨hk.le, hk.guard⟩

/-- The arguments of a call of `exec` do not overrun the image. -/
def Label.Fits : Label → Prop
  | .exec _ _ ip argv => Accepted argv ∧ ∀ i ∈ ip, ¬ ArgsOverrun i argv
  | _ => True

theorem exec_of_fits {ip : Option Inode} (h : Inv L s) (hp : (s.proc p).HasImage)
    (hfits : (Label.exec p path ip argv).Fits) :
  Wp NoFault (exec L readNull p path ip argv) (fun _ s' => Moves L s 0 s') s
  := by
  obtain ⟨hargv, hnot⟩ := hfits
  cases ip with
  | none => apply Moves.refl h
  | some ip =>
    apply (exec_args h hp hargv fun hover => absurd hover (hnot ip rfl)).mono
    intro _ _ hs'
    exact hs'.1

/-- The invariant holds on the machine as long as no arguments overrun an image. -/
theorem Inv.of_fits (h : (machineSys L).Reach (fun _ l => l.Fits) s) :
  Inv L s
  := Inv.of_reach (fun hs hp hfits => (exec_of_fits hs hp hfits).noFail) h

theorem WithoutExec.fits (h : WithoutExec L s) :
  (machineSys L).Reach (fun _ l => l.Fits) s
  := by
  apply (h readNull).mono
  intro _ l hl
  cases l with
  | exec => cases hl
  | _ => trivial

/-- Overwriting a page that is no page table of `d`. -/
theorem page_setPage {c : Page} (hf : f ∉ m.tree d) :
  ∀ g ∈ m.tree d, (m.setPage f c).page g = m.page g
  := by
  intro g hg
  apply Function.update_of_ne
  rintro rfl
  exact hf hg

/-- Bytes at the end of the page before the devices, where there is no page table, and on: the null
pointer leads to the entry of the page `f`, which gets the first of them. -/
theorem copyout_overwrites
    {buf : List UInt8} (hs : Space L m d sz) (hf : f ∉ m.tree d) (hlt : f < 2 ^ 20)
    (hnull : m.nullWord f = some (mkPte (PGSIZE * f) (PTE_W ||| PTE_U)))
    (hlen : 8 < buf.length) :
  Wp NoFault (copyout (readNull f) d 0xFDFFFFF8 buf)
    (fun r m' => r = false ∧ m' = m.setPage f ((m.page f).store 0xff8 (buf.take 8))) m
  := by
  have hnone : m.table d (pdx 0xFDFFF000) = none := by
    rw [← Option.not_isSome_iff_eq_none, hs.table _ (by decide)]
    decide
  have hround : pgrounddown 0xFDFFFFF8 = 0xFDFFF000 := by
    decide
  have hperm : PTE_W ||| PTE_U < PGSIZE := by
    decide
  have hmin : min (PGSIZE - (0xFDFFFFF8 - 0xFDFFF000)) buf.length = 8 :=
    Nat.min_eq_left hlen.le
  obtain ⟨n, hn⟩ : ∃ n, buf.length = n + 1 := ⟨buf.length - 1, by omega⟩
  rw [copyout, hn, copyoutLoop, if_pos (by omega), hround, wp_bind, wp_uva2ka, hnone, readNull,
    wp_bind, wp_get, hnull, wp_pure,
    if_pos ⟨isP_mkPte hlt hperm, (isU_mkPte hlt hperm).trans (by decide)⟩,
    pteAddr_mkPte hlt hperm, hmin, wp_bind, wp_modify]
  have hpage := page_setPage (c := (m.page f).store 0xff8 (buf.take 8)) hf
  have hs' := hs.of_entry (Memory.table_congr (hpage d Memory.mem_tree_self))
    (Memory.entry_congr hpage)
  apply (copyoutLoop_kernel (N := True) hs' (by decide) (by decide) _ _ _).mono
  · rintro r m' ⟨rfl, rfl, -⟩
    exact ⟨rfl, rfl⟩
  · rw [List.length_drop]
    omega
  · rw [List.length_drop]
    omega
  · intro hu
    exact absurd hu.2 (by decide)

/-- `exec` with the argument string of `longArg` fails, after it has overwritten the last two
entries of the page directory `f`. -/
theorem execImage_overwrites
    (hp : Pool L m (m.owned f)) (hlen : 68 ≤ m.freelist.length)
    (hnull : m.nullWord f = some (mkPte (PGSIZE * f) (PTE_W ||| PTE_U))) :
  Wp NoFault (execImage L (readNull f) noSegments [List.replicate 0x2002007 7])
    (fun r m' => r = none ∧ m'.page f 1022 = 0x07070707 ∧ m'.page f 1023 = 0x07070707) m
  := by
  have hp₀ : Pool L m 0 := hp.of_le (Multiset.zero_le _)
  obtain ⟨d, m₁, m₂, hsetup, hload⟩ := exists_image noSegments ⟨ELF_MAGIC, 0, 0, 0⟩ hp₀ hlen rfl
  obtain ⟨htrade, hs, -⟩ := image_of_loadImage hp₀ hsetup hload
  have hmem : f ∈ m.owned f := Multiset.mem_add.mpr (.inl Memory.mem_tree_self)
  have hboth : Pool L m₂ (m₂.owned d + m.owned f) := by
    rw [← zero_add (m.owned f)] at hp
    exact hp.trade (htrade.frame (m.owned f))
  have howned : f ∉ m₂.owned d := fun h =>
    Multiset.disjoint_left.mp (Multiset.nodup_add.mp hboth.nodup_right).2.2 h hmem
  have htree : f ∉ m₂.tree d := fun h => howned (Multiset.mem_add.mpr (.inl h))
  obtain ⟨str, hstr⟩ : ∃ str, str = List.replicate 0x2002007 (7 : UInt8) := ⟨_, rfl⟩
  have hlength : str.length + 1 = 0x2002008 := by
    rw [hstr, List.length_replicate]
  have htake : (str ++ [0]).take 8 = List.replicate 8 7 := by
    rw [List.take_append_of_le_length (by omega), hstr, List.take_replicate,
      Nat.min_eq_left (by decide)]
  have hsp : sub32 (2 * PGSIZE) (str.length + 1) / 4 * 4 = 0xFDFFFFF8 := by
    rw [hlength]
    decide
  rw [← hstr, Wp, execImage_noSegments hsetup hload]
  change Wp NoFault _ _ m₂
  rw [wp_bind, pushArgs, wp_bind, pushStrings, if_neg (by decide), wp_bind, hsp]
  apply (copyout_overwrites hs htree (hp.inRange hmem).lt
    ((nullWord_of_trade hp htrade).trans hnull) _).mono
  · rintro r m₃ ⟨rfl, rfl⟩
    have howned₃ := Memory.owned_congr
      (page_setPage (c := (m₂.page f).store 0xff8 ((str ++ [0]).take 8)) htree)
    apply (freevm_spec (howned₃ ▸ ⟨hboth.left.nodup, hboth.left.range⟩)).bind
    intro _ m₄ hm₄
    have hsame := hm₄.same f (hboth.right.notMem_freelist hmem) (howned₃ ▸ howned)
    rw [wp_pure, hsame, htake, Memory.setPage]
    dsimp only
    rw [Function.update_self]
    simp [Page.store, Page.ofBytes]
  · rw [List.length_append, List.length_singleton]
    omega

/-- The first process has an entry for its own page directory at address 0 when it calls `exec`. -/
theorem exists_overwritten :
  ∃ s s' w path argv, WithoutExec .sample s ∧ (s.proc 0).state = .running ∧
    (s.proc 0).sz = (longArg w).sz.toNat ∧ s.mem.nullWord (s.proc 0).pgdir = some w ∧
    sysExec (longArg w) = some (path, argv) ∧
    exec .sample readNull 0 path (some noSegments) argv s = .ok (false, s') ∧
    HasRole s' 0x7070 (.image (some 0) (.table 1022)) ∧
    HasRole s' 0x7070 (.image (some 0) (.table 1023))
  := by
  obtain ⟨s, hreach, hstate, hsz, hspace, hU, -, hlen⟩ :=
    exists_grown (n := 0x3fff000) (i := 0x3fff) (by decide) (by decide) (by decide)
  obtain ⟨w, hw⟩ : ∃ w, w = mkPte (PGSIZE * (s.proc 0).pgdir) (PTE_W ||| PTE_U) := ⟨_, rfl⟩
  have hP : isP (s.mem.entry (s.proc 0).pgdir (.ofVa 0)) := hspace.full _ (by rw [hsz]; decide)
  have hinv := Inv.of_reachable hreach.reachable
  -- the process writes the entry to its first page
  obtain ⟨m, hm⟩ : ∃ m, m = s.mem.setPage (pteAddr (s.mem.entry (s.proc 0).pgdir (.ofVa 0)))
    fun _ => w := ⟨_, rfl⟩
  have hstores : Stores (s.proc 0).pgdir s.mem m := by
    rw [hm]
    exact .setPage (hinv.owned (.of_running hstate)) (Space.mem_frames (by decide) hP)
  have hreach' : WithoutExec .sample { s with mem := m } := by
    apply hreach.step (l := .write 0 (.ofVa 0) fun _ => w) trivial ⟨hstate, hP, hU⟩
    intro null
    rw [hm]
    rfl
  have hword : m.nullWord (s.proc 0).pgdir = some w := by
    rw [Memory.nullWord, hstores.entry, if_pos hP, hm, Memory.setPage]
    dsimp only
    rw [Function.update_self]
  have hp : Pool .sample m (m.owned (s.proc 0).pgdir) :=
    (hinv.owned (.of_running hstate)).trade hstores.trade_owned
  have hfree : 68 ≤ m.freelist.length := by
    rw [hm]
    change 68 ≤ s.mem.freelist.length
    omega
  have hspec : Wp NoFault (exec .sample readNull 0 [97] (some noSegments)
      [List.replicate 0x2002007 7]) (fun ok s' => ok = false ∧ s'.proc = s.proc ∧
        s'.mem.page (s.proc 0).pgdir 1022 = 0x07070707 ∧
        s'.mem.page (s.proc 0).pgdir 1023 = 0x07070707) { s with mem := m } := by
    rw [exec, wp_bind, wp_get, wp_bind, wp_onMemory]
    apply (execImage_overwrites hp hfree (hw ▸ hword)).mono
    rintro _ m' ⟨rfl, hpage⟩
    exact ⟨rfl, rfl, hpage⟩
  obtain ⟨_, s', hexec, rfl, hproc, hpage₁, hpage₂⟩ := hspec.exists_ok
  have hrole : ∀ j, s'.mem.page (s.proc 0).pgdir j = 0x07070707 →
      HasRole s' 0x7070 (.image (some 0) (.table j)) := by
    intro j hj
    refine ⟨(s.proc 0).pgdir, pgdir_eq_some.mpr ?_, ?_⟩
    · rw [hproc]
      exact ⟨.of_running hstate, rfl⟩
    · change s'.mem.table _ j = _
      rw [Memory.table, hj]
      rfl
  exact ⟨_, s', w, _, _, hreach', hstate, hsz, hword, sysExec_longArg w, hexec, hrole _ hpage₁,
    hrole _ hpage₂⟩

/-- In every state that the kernel reaches on the machine, with no arguments of `exec` that overrun
an image, each page has at most one role.  Hence `kfree` was never called on a free page, and
`kalloc` returns a page that has no role but being first on the free list. -/
theorem page_has_one_role (h : (machineSys L).Reach (fun _ l => l.Fits) s) :
  (∀ f r r', HasRole s f r → HasRole s f r' → r = r') ∧
    s.mem.refreed = [] ∧
    ∀ f m', kalloc s.mem = .ok (some f, m') → ∀ r, HasRole s f r → r = .free 0
  := by
  have hinv := Inv.of_fits h
  refine ⟨fun f r r' => hinv.role_unique, hinv.refreed, ?_⟩
  intro f m' hkalloc r hr
  apply hinv.role_unique hr
  have hspec : Wp (fun _ => False) kalloc (fun r _ => s.mem.freelist.head? = r) s.mem := by
    rw [wp_kalloc]
    constructor
    · intro hf
      rw [hf, List.head?_nil]
    · intro g l hf
      rw [hf, List.head?_cons]
  have hhead := hspec.of_ok hkalloc
  rw [List.head?_eq_getElem?] at hhead
  apply hhead

/-- The first process grows and calls `exec`. -/
theorem page_has_one_role_exec :
  ∃ s s', (s.proc 0).sz = 2 * PGSIZE ∧
    (machineSys .sample).step s (.exec 0 [] (some noSegments) [[8]]) = some (.ok s') ∧
    ∀ f r r', HasRole s' f r → HasRole s' f r' → r = r'
  := by
  obtain ⟨s, hreach, hstate, hsz, -⟩ :=
    exists_grown (n := 0x1000) (i := 1) (by decide) (by decide) (by decide)
  have hfits : (Label.exec 0 [] (some noSegments) [[8]]).Fits := by
    refine ⟨⟨by decide, by decide⟩, ?_⟩
    rintro _ ⟨⟩ ⟨_, -, hover⟩
    exact absurd hover (not_overruns (by decide))
  obtain ⟨_, s', hexec, -⟩ :=
    (exec_of_fits (Inv.of_fits hreach.fits) (.of_running hstate) hfits).exists_ok
  have hstep : (machineSys .sample).step s (.exec 0 [] (some noSegments) [[8]]) =
      some (.ok s') := by
    have he : Enabled s (.exec 0 [] (some noSegments) [[8]]) := hstate
    simp only [machineSys, systemOf, if_pos he, perform, bind, StateT.bind, Except.bind, hexec]
    rfl
  exact ⟨s, s', hsz, hstep, (page_has_one_role (.step hreach.fits hfits hstep)).1⟩

/-- After an `exec` that returns `-1` a page is two page tables of the process. -/
theorem page_has_two_roles :
  ∃ s s' w path argv, (machineSys .sample).Reachable s ∧
    s.mem.nullWord (s.proc 0).pgdir = some w ∧ sysExec (longArg w) = some (path, argv) ∧
    (machineSys .sample).step s (.exec 0 path (some noSegments) argv) = some (.ok s') ∧
    HasRole s' 0x7070 (.image (some 0) (.table 1022)) ∧
    HasRole s' 0x7070 (.image (some 0) (.table 1023))
  := by
  obtain ⟨s, s', w, path, argv, hreach, hstate, -, hword, hargv, hexec, hroles⟩ :=
    exists_overwritten
  refine ⟨s, s', w, path, argv, (hreach readNull).mono fun _ _ _ => trivial, hword, hargv, ?_,
    hroles⟩
  have he : Enabled s (.exec 0 path (some noSegments) argv) := hstate
  simp only [machineSys, systemOf, if_pos he, perform, bind, StateT.bind, Except.bind, hexec]
  rfl

end Xv6.Vm
