import Xv6.Vm.Pipes

/-!
# The kernel after `main`

`main` puts the pages above the kernel on the free list, in two parts, and takes pages for the
page directory of the kernel, the stacks of the other processors and the first process.
-/

namespace Xv6.Vm

open Ptable (NPROC Slot)
open Function

variable {L : Layout} {s s' : Kernel} {m m' : Memory} {d : Nat} {p : Slot} {E : Fault → Prop}

/-! ### `freerange` -/

/-- The pages of `[vstart, vend)` that `freerange` frees. -/
def rangePages (vstart vend : Nat) : List Nat :=
  List.range' ((vstart + PGSIZE - 1) / PGSIZE) (vend / PGSIZE - (vstart + PGSIZE - 1) / PGSIZE)

theorem mem_rangePages {vstart vend f : Nat} (h : f ∈ rangePages vstart vend) :
  vstart ≤ PGSIZE * f ∧ PGSIZE * f + PGSIZE ≤ vend
  := by
  rw [rangePages, List.mem_range'_1] at h
  simp only [PGSIZE] at h ⊢
  omega

theorem freerange_spec
    {vstart vend : Nat} (hp : Pool L m ↑(rangePages vstart vend)) :
  Wp NoFault (freerange L vstart vend)
    (fun _ m' => Trade ↑(rangePages vstart vend) m 0 m') m
  := by
  change Wp NoFault ((rangePages vstart vend).forM (kfree L)) _ m
  apply (Wp.forM (I := fun l m' => Trade ↑(rangePages vstart vend) m ↑l m') _ _).mono
  · intro _ m' hm'
    apply hm'
  · intro f l m₁ hm₁
    apply wp_kfree_of_mem (A := ↑l) (hp.trade hm₁)
    intro htrade
    apply hm₁.trans htrade
  · apply Trade.refl

/-! ### `startothers` -/

theorem startothers_spec {n : Nat} :
  Wp E (startothers n)
    (fun _ s' => ∃ l m', s' = { s with mem := m', cpustack := l ++ s.cpustack } ∧
      Trade 0 s.mem ↑l m' ∧ l.length ≤ n) s
  := by
  induction n generalizing s with
  | zero => exact ⟨[], s.mem, rfl, .refl _ _, le_refl _⟩
  | succ n ih =>
    rw [startothers, wp_bind, wp_onMemory, wp_kalloc]
    constructor
    · intro _
      apply ih.mono
      rintro _ _ ⟨l, m', hs', htrade, hl⟩
      exact ⟨l, m', hs', htrade, by omega⟩
    · intro f l hf
      simp only [wp_bind, wp_modify]
      apply ih.mono
      rintro _ _ ⟨l', m', hs', htrade, hl⟩
      refine ⟨l' ++ [f], m', ?_, ?_, ?_⟩
      · rw [hs', List.append_assoc, List.singleton_append]
      · rw [← Multiset.coe_add, Multiset.coe_singleton]
        apply (Trade.kalloc hf).trans (htrade.frame {f})
      · rw [List.length_append, List.length_singleton]
        omega

/-! ### `userinit` -/

/-- A memory of one page, which the user may access. -/
structure OnePage (L : Layout) (m : Memory) (d : Nat) : Prop where
  space : Space L m d PGSIZE
  user : isU (m.entry d (.ofVa 0))
  table : ∀ j : Fin 1024, (m.table d j).isSome ↔
    j.val = 0 ∨ 512 ≤ j.val ∧ j.val < 568 ∨ 1016 ≤ j.val


/-- `inituvm` maps one page. -/
theorem inituvm_spec
    {init : List UInt8} (hp : Pool L m (m.tree d)) (hk : KernelOnly L m d)
    (hlen : 2 ≤ m.freelist.length) :
  Wp (fun _ => PGSIZE ≤ init.length) (inituvm d init)
    (fun _ m' => Trade (m.tree d) m (m'.owned d) m' ∧ OnePage L m' d ∧
      m.freelist.length = m'.freelist.length + 2) m
  := by
  have howned : m.owned d = m.tree d := by
    rw [Memory.owned, hk.frames, add_zero]
  have hempty : isP (m.entry d (.ofVa (PGSIZE * 0))) = false := by
    rw [hk.entry, Entry.vpn_ofVa (by decide), kernelPte_of_lt (by decide), isP_zero]
  rw [inituvm]
  split
  · rename_i hle
    apply hle
  · rw [wp_bind, wp_kalloc]
    constructor
    · intro hnil
      rw [hnil, List.length_nil] at hlen
      omega
    · intro f l hf
      rw [wp_bind, wp_modify]
      apply (mapFresh_spec (v := 0) hp hf (by decide) (by decide) hempty).noFail.bind
      rintro (_ | _) m₁ hm₁
      · have hcard := hm₁.trade.card
        rw [Multiset.card_cons, hm₁.freelist, List.length_nil, Memory.tree_congr hm₁.table] at hcard
        omega
      · have hadds : AddsZeros d (npages 0) (npages PGSIZE) {f} m m₁ := by
          apply (AddsPages.refl d 0 _ _ m).snoc (howned ▸ hp) hm₁ (by decide)
        have hmem : f ∈ m₁.frames d := by
          rw [hm₁.frames]
          apply Multiset.mem_cons_self
        have htrade := hadds.trade_owned
        have hpool : Pool L m (m.owned d) := howned ▸ hp
        have hstores := Stores.setPage (c := (m₁.page f).store 0 init) (hpool.trade htrade) hmem
        rw [wp_modify]
        refine ⟨?_, ⟨?_, ?_, ?_⟩, ?_⟩
        · rw [← howned]
          apply htrade.trans hstores.trade_owned
        · apply (hk.space.adds hpool (by decide) hadds).stores hstores
        · obtain ⟨g, hg, hentry, -⟩ := hadds.inside (.ofVa 0) (by decide) (by decide)
          have hrange := (hpool.trade htrade).inRange (Multiset.mem_add.mpr (.inr (hadds.frames ▸
            Multiset.mem_add.mpr (.inl hg))))
          rw [hstores.entry, hentry, isU_mkPte hrange.lt (by decide)]
          decide
        · intro j
          rw [hstores.table, hadds.table, hk.table, or_comm]
          apply or_congr_left
          simp only [NeedsTable, npages, PGSIZE]
          omega
        · have hlength := hadds.length_freelist
          have htables : newTables m d (npages 0) (npages PGSIZE) = 1 :=
            hk.newTables (i := 1) (by decide)
          rw [htables] at hlength
          apply hlength

/-- The first process has one page. -/
structure First (L : Layout) (s : Kernel) (p : Slot) : Prop where
  state : (s.proc p).state = .runnable
  sz : (s.proc p).sz = PGSIZE
  page : OnePage L s.mem (s.proc p).pgdir

theorem Inv.setInitproc {x : Option Slot} (h : Inv L s) :
  Moves L s 0 { s with initproc := x }
  := by
  have hholding : ∀ o, holding { s with initproc := x } o = holding s o := by
    intro o
    cases o with
    | kernel | cpus | pipes | proc q => simp only [holding]
  constructor
  · constructor
    · simp only [hholding]
      apply h.pool
    · apply h.refreed
    · apply h.user
    · apply h.unused_nodup
    · apply h.unused
    · apply h.file_inj
    · apply h.ends
  · simp only [hholding, add_zero]

theorem userinit_spec
    {us : List Slot} {initcode : List UInt8} (h : Inv L s) (hus : s.unused = p :: us)
    (hlen : 68 ≤ s.mem.freelist.length) :
  Wp (fun _ => PGSIZE ≤ initcode.length) (userinit L initcode)
    (fun _ s' => Moves L s 0 s' ∧ First L s' p ∧ s'.unused = us ∧
      s.mem.freelist.length = s'.mem.freelist.length + 68) s
  := by
  rw [userinit, wp_bind, wp_allocproc, hus]
  cases hf : s.mem.freelist with
  | nil =>
    rw [hf, List.length_nil] at hlen
    omega
  | cons f l =>
    rw [hf, List.length_cons] at hlen
    have hm := h.embryo hus hf
    have hm₁ := hm.trans (hm.inv.setInitproc (x := some p))
    have hnot : p ∉ us := by
      have hnodup := h.unused_nodup
      rw [hus, List.nodup_cons] at hnodup
      apply hnodup.1
    have hproc : (s.embryo p us f l).proc p = { s.proc p with state := .embryo, kstack := f } :=
      update_self _ _ _
    have hmem : (s.embryo p us f l).mem.freelist = l := rfl
    have hunused : (s.embryo p us f l).unused = us := rfl
    simp only [wp_bind, wp_modify]
    generalize s.embryo p us f l = s₁ at *
    rw [wp_onMemory]
    have hpool : Pool L s₁.mem 0 := hm.inv.pool.of_le (Multiset.zero_le _)
    apply (setupkvm_spec hpool).noFail.mono
    rintro (_ | d) m₂ hm₂
    · have := hm₂.2
      rw [hmem] at this
      omega
    · obtain ⟨htree, hk⟩ := hm₂
      have hcard := htree.card
      rw [hk.card_tree, Multiset.card_zero, hmem] at hcard
      simp only [wp_bind, wp_onMemory]
      apply (inituvm_spec (hpool.trade htree) hk (by omega)).mono
      rintro _ m₃ ⟨htrade, hpage, hlength⟩
      rw [wp_setProc]
      obtain ⟨pr, hpr⟩ : ∃ pr : Proc, pr = { s₁.proc p with
          state := .runnable
          pgdir := d
          sz := PGSIZE
          eip := 0
          esp := PGSIZE
          name := "initcode".toUTF8.toList } := ⟨_, rfl⟩
      have hi : pr.HasImage := by
        rw [hpr]
        apply Proc.HasImage.of_live
        exact .inr (.inl rfl)
      have hpages : pr.pages m₃ = f ::ₘ m₃.owned d := by
        rw [Proc.pages_of_hasImage hi, hpr, hproc]
      have hmoves := hm₁.inv.update (p := p) (c := pr) (n := m₃) (X := 0) (hunused ▸ hnot)
        (by
          rw [zero_add, hpages, hproc, Proc.pages_of_embryo rfl]
          have := (htree.trans htrade).frame_left {f}
          rw [add_zero, Multiset.singleton_add] at this
          apply this)
        (fun _ => hpr ▸ hpage.space.toUser)
      rw [← hpr]
      have hlength' : (f :: l).length = m₃.freelist.length + 68 := by
        rw [List.length_cons]
        omega
      refine ⟨hm₁.trans hmoves, ?_, hunused, hlength'⟩
      constructor
      · change (update s₁.proc p pr p).state = _
        rw [update_self, hpr]
      · change (update s₁.proc p pr p).sz = _
        rw [update_self, hpr]
      · change OnePage L m₃ (update s₁.proc p pr p).pgdir
        rw [update_self, hpr]
        apply hpage

/-! ### `main` -/

/-- The pages that `kinit1` frees. -/
def lowPages (L : Layout) : List Nat :=
  rangePages L.kend (4 * 1024 * 1024)

/-- The pages that `kinit2` frees. -/
def highPages : List Nat :=
  rangePages (4 * 1024 * 1024) PHYSTOP

theorem length_lowPages (L : Layout) :
  (lowPages L).length = 1024 - (L.kend + PGSIZE - 1) / PGSIZE
  := by
  rw [lowPages, rangePages, List.length_range']
  congr 1

theorem length_highPages :
  highPages.length = 56320
  := by
  rw [highPages, rangePages, List.length_range']
  decide

theorem pool_bootPages (hm : m.freelist = []) :
  Pool L m (↑(lowPages L) + ↑highPages)
  := by
  have hend := L.kend_le
  rw [Multiset.coe_add]
  constructor
  · rw [hm, Multiset.coe_nil, zero_add, Multiset.coe_nodup, List.nodup_append]
    refine ⟨List.nodup_range', List.nodup_range', ?_⟩
    rintro f hf g hg rfl
    have h1 := mem_rangePages hf
    have h2 := mem_rangePages hg
    simp only [PGSIZE] at h1 h2
    omega
  · intro f hf
    rw [hm, Multiset.coe_nil, zero_add, Multiset.mem_coe, List.mem_append] at hf
    rcases hf with hf | hf
    all_goals
      have := mem_rangePages hf
      simp only [Layout.InRange, PGSIZE, PHYSTOP] at this ⊢
      omega

/-- The state before `userinit`. -/
def Kernel.start (page : Nat → Page) (pipe : Nat → Pipe) (m : Memory) (d : Nat) (l : List Nat) :
    Kernel :=
  { Kernel.zero page pipe with mem := m, kpgdir := some d, cpustack := l ++ [] }

theorem Inv.start
    (page : Nat → Page) (pipe : Nat → Pipe) {l : List Nat} (hp : Pool L m (m.owned d + ↑l))
    (hm : m.refreed = []) :
  Inv L (.start page pipe m d l)
  := by
  have hpages : pipePages (fun _ => File.closed) = ∅ := by
    ext f
    simp [mem_pipePages]
  have hsum : ∑ o, holding (.start page pipe m d l) o = m.owned d + ↑l := by
    have hsubset : ∑ o ∈ {.kernel, .cpus}, holding (.start page pipe m d l) o
        = ∑ o, holding (.start page pipe m d l) o := by
      apply Finset.sum_subset (Finset.subset_univ _)
      intro o _ ho
      cases o with
      | kernel | cpus => simp at ho
      | pipes => simp only [holding, Kernel.start, Kernel.zero, hpages, Finset.empty_val]
      | proc p =>
        rw [holding]
        apply Proc.pages_of_unused
        rfl
    rw [← hsubset, Finset.sum_pair (by decide), holding, holding]
    simp only [Kernel.start, Option.elim_some, List.append_nil]
  constructor
  · rw [hsum]
    apply hp
  · apply hm
  · intro p hp
    exact absurd rfl hp.1
  · apply List.nodup_finRange
  · intro _ _
    rfl
  · intro i j f w hi
    cases hi
  · intro i f w hi
    cases hi

/-- `main` stops only when there are too few pages below 4 Mbyte for the page directory of the
kernel, or when `initcode` is too long. -/
theorem main_spec
    (page : Nat → Page) (pipe : Nat → Pipe) (n : Nat) (initcode : List UInt8) :
  Wp (fun _ => (lowPages L).length < 65 ∨ PGSIZE ≤ initcode.length) (main L n initcode)
    (fun _ s => Inv L s ∧ First L s 0 ∧ s.unused = (List.finRange NPROC).tail ∧
      ∃ k ≤ n, s.mem.freelist.length + 133 + k = (lowPages L).length + 56320) (.zero page pipe)
  := by
  have hp : Pool L (Kernel.zero page pipe).mem (↑(lowPages L) + ↑highPages) := pool_bootPages rfl
  simp only [main, wp_bind, wp_onMemory]
  apply (freerange_spec hp.left).noFail.mono
  intro _ m₁ hm₁
  have hm₁ : Trade ↑(lowPages L) (Kernel.zero page pipe).mem 0 m₁ := hm₁
  have hp₁ : Pool L m₁ (0 + ↑highPages) := hp.trade (hm₁.frame _)
  simp only [kvmalloc, wp_bind, wp_onMemory]
  apply (setupkvm_spec hp₁.left).noFail.mono
  rintro (_ | d) m₂ hm₂
  · left
    have hcard := hm₁.card
    have hlt := hm₂.2
    rw [Multiset.card_zero, Multiset.coe_card] at hcard
    change _ = 0 + _ at hcard
    omega
  · obtain ⟨htree, hk⟩ := hm₂
    have howned : m₂.owned d = m₂.tree d := by
      rw [Memory.owned, hk.frames, add_zero]
    rw [← howned] at htree
    have hp₂ : Pool L m₂ (m₂.owned d + ↑highPages) := hp₁.trade (htree.frame _)
    rw [wp_modify]
    apply startothers_spec.mono
    rintro _ _ ⟨l, m₃, rfl, hm₃, hl⟩
    have hm₃ : Trade 0 m₂ ↑l m₃ := hm₃
    have howned₃ : m₃.owned d = m₂.owned d := by
      apply Pool.owned_of_trade (L := L) _ hm₃
      rw [zero_add]
      apply hp₂.left
    have hp₃ : Pool L m₃ (↑highPages + (m₃.owned d + ↑l)) := by
      have hcomm : (↑l : Multiset Nat) + (m₂.owned d + ↑highPages) =
          ↑highPages + (m₂.owned d + ↑l) := by
        rw [add_comm, add_right_comm, add_comm]
      have htrade := hm₃.frame (m₂.owned d + ↑highPages)
      rw [zero_add, hcomm] at htrade
      rw [howned₃]
      apply hp₂.trade htrade
    apply (freerange_spec hp₃.left).noFail.mono
    intro _ m₄ hm₄
    have hm₄ : Trade ↑highPages m₃ 0 m₄ := hm₄
    have hp₄ := hp₃.trade (hm₄.frame _)
    rw [zero_add] at hp₄
    have howned₄ : m₄.owned d = m₃.owned d := by
      apply Pool.owned_of_trade (L := L) _ hm₄
      rw [← add_assoc] at hp₃
      apply hp₃.left
    have hrefreed : m₄.refreed = [] := by
      rw [hm₄.refreed, hm₃.refreed, htree.refreed, hm₁.refreed]
      rfl
    have hlen : m₄.freelist.length + 65 + l.length = (lowPages L).length + 56320 ∧
        56320 ≤ m₄.freelist.length := by
      have h1 := hm₁.card
      have h2 := htree.card
      have h3 := hm₃.card
      have h4 := hm₄.card
      rw [howned, hk.card_tree] at h2
      rw [Multiset.coe_card] at h1 h3 h4
      rw [length_highPages] at h4
      simp only [Multiset.card_zero, Kernel.zero, List.length_nil] at h1 h2 h3 h4
      omega
    rw [← howned₄] at hp₄
    have hinv := Inv.start page pipe hp₄ hrefreed
    have hus : (Kernel.start page pipe m₄ d l).unused = 0 :: (List.finRange NPROC).tail := rfl
    apply ((userinit_spec hinv hus (by change 68 ≤ m₄.freelist.length; omega)).fail
      fun _ => .inr).mono
    rintro _ s ⟨hmoves, hfirst, hunused, hlength⟩
    refine ⟨hmoves.inv, hfirst, hunused, l.length, hl, ?_⟩
    change m₄.freelist.length = _ at hlength
    omega

/-- A kernel that ends at 2 Mbyte. -/
def Layout.sample : Layout where
  data := 0x108000
  kend := 0x200000
  data_dvd := by decide
  lt_data := by decide
  data_le := by decide
  kend_le := by decide

/-- With that kernel and one processor, `main` leaves 56699 free pages. -/
theorem exists_main :
  ∃ s, (kernelSys .sample).init s ∧ Inv .sample s ∧ First .sample s 0 ∧
    s.unused = (List.finRange NPROC).tail ∧ s.mem.freelist.length = 56699
  := by
  have hlow : (lowPages .sample).length = 512 := length_lowPages _
  have hspec := main_spec (L := .sample) (fun _ => .fill 0) (fun _ => ⟨false, false⟩) 0 []
  have hfail : ¬ ((lowPages .sample).length < 65 ∨ PGSIZE ≤ ([] : List UInt8).length) := by
    rw [hlow]
    decide
  obtain ⟨_, s, hs, hinv, hfirst, hunused, k, hk, hlen⟩ :=
    (hspec.fail fun _ h => hfail h).exists_ok
  refine ⟨s, ⟨_, _, _, _, hs⟩, hinv, hfirst, hunused, ?_⟩
  omega

end Xv6.Vm
