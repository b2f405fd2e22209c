import Xv6.Vm.Alloc

/-!
# Copying user memory

`copyuvm` makes a page directory for a child with copies of the user pages of the parent.  When
it runs out of pages it frees the new page directory.
-/

namespace Xv6.Vm

/-- The loop of `copyuvm`, with `n` pages from `i` on. -/
def copyLoop (L : Layout) (pgdir d : Nat) : (n i : Nat) → Mem (Option Nat)
  | 0, _ => return some d
  | n + 1, i => do
    match ← walkpgdir pgdir i false with
    | none => throw (.panic "copyuvm: pte should exist")
    | some (t, k) =>
      let pte := (← get).page t k
      if !isP pte then
        throw (.panic "copyuvm: page not present")
      match ← kalloc with
      | none =>
        freevm L d
        return none
      | some mem =>
        modify fun m => m.setPage mem (m.page (pteAddr pte))
        if ← mappages d i PGSIZE (PGSIZE * mem) (pteFlags pte) then
          copyLoop L pgdir d n (i + PGSIZE)
        else
          freevm L d
          return none

/-- `copyuvm` -/
def copyuvm (L : Layout) (pgdir sz : Nat) : Mem (Option Nat) := do
  match ← setupkvm L with
  | none => return none
  | some d => copyLoop L pgdir d (npages sz) 0

variable {L : Layout} {m m₁ m₂ m' : Memory} {s d : Nat}

/-- The flags of the page that the directory `s` maps at a virtual page. -/
def flagsAt (m : Memory) (s v : Nat) : Nat :=
  pteFlags (m.entry s (.ofVa (PGSIZE * v)))

/-- The contents of the page that the directory `s` maps at a virtual page. -/
def contentsAt (m : Memory) (s v : Nat) : Page :=
  m.page (pteAddr (m.entry s (.ofVa (PGSIZE * v))))

/-- The pages that a new directory needs besides those of `setupkvm`: one for each user page, and
the page tables. -/
theorem KernelOnly.newTables (h : KernelOnly L m d) {i : Nat} (hi : i ≤ 2 ^ 19) :
  newTables m d 0 i = (i + 1023) / 1024
  := by
  have hiff : ∀ j : Fin 1024, m.table d j = none ∧ NeedsTable 0 i j ↔
      j.val < (i + 1023) / 1024 := by
    intro j
    have htable := h.table j
    cases hj : m.table d j with
    | none =>
      simp only [true_and, NeedsTable]
      omega
    | some t =>
      rw [hj] at htable
      simp only [Option.isSome_some, true_iff] at htable
      simp only [reduceCtorEq, false_and, false_iff]
      omega
  rw [Vm.newTables]
  simp only [hiff, Fin.card_filter_val_lt]
  omega

/-- Where `copyuvm` can fail, seen from the number of free pages: in `setupkvm`, or at a user
page. -/
def FailsClean (free n : Nat) : Prop :=
  free < 65 ∨ ∃ i < n, free = 65 + i + (i + 1023) / 1024

/-- The number of free pages with which `copyuvm` gets a page for a user page but none for its
page table. -/
def FailsAtTable (free n : Nat) : Prop :=
  ∃ j, 1024 * j < n ∧ free = 66 + 1025 * j

/-- The two are apart. -/
theorem FailsClean.not_atTable {free n : Nat} (h : FailsClean free n) :
  ¬ FailsAtTable free n
  := by
  rintro ⟨j, hj, rfl⟩
  rcases h with h | ⟨i, hi, h⟩
  · omega
  · omega

/-- The memory seen through a page directory that is not part of a trade. -/
theorem Pool.entry_of_trade {A : Multiset Nat} (hp : Pool L m (m.owned s)) (h : Trade 0 m A m') :
  m'.table s = m.table s ∧ m'.entry s = m.entry s ∧
    ∀ f ∈ m.owned s, m'.page f = m.page f
  := by
  rw [← zero_add (m.owned s)] at hp
  have hpage : ∀ f ∈ m.owned s, m'.page f = m.page f := fun f hf => hp.same_of_mem h hf
  have htree : ∀ f ∈ m.tree s, m'.page f = m.page f := by
    intro f hf
    apply hpage
    rw [Memory.owned, Multiset.mem_add]
    exact .inl hf
  exact ⟨Memory.table_congr (htree s Memory.mem_tree_self), Memory.entry_congr htree, hpage⟩

theorem pteFlags_lt (pte : UInt32) :
  pteFlags pte < PGSIZE
  := by
  apply Nat.mod_lt
  decide

/-- A user page that is present belongs to its page directory. -/
theorem mem_owned_of_isP
    {v : Nat} (hv : PGSIZE * v < KERNBASE) (hP : isP (m.entry s (.ofVa (PGSIZE * v)))) :
  pteAddr (m.entry s (.ofVa (PGSIZE * v))) ∈ m.owned s
  := by
  rw [Memory.owned, Multiset.mem_add, Memory.frames, mem_held]
  right
  use .ofVa (PGSIZE * v)
  rw [Memory.frame, Entry.frame, if_pos ⟨pdx_lt_kernbase hv, hP⟩]

/-- What the loop of `copyuvm` has done before the page `i`. -/
structure CopyState (L : Layout) (s d i : Nat) (F : Multiset Nat) (m m₁ m₂ : Memory) :
    Prop where
  kernel : KernelOnly L m₁ d
  setup : Trade 0 m (m₁.tree d) m₁
  pages : AddsPages d 0 i (flagsAt m s) (contentsAt m s) F m₁ m₂

namespace CopyState

variable {i : Nat} {F : Multiset Nat}

theorem trade (h : CopyState L s d i F m m₁ m₂) :
  Trade 0 m (m₂.owned d) m₂
  := by
  have := h.pages.trade_owned
  rw [Memory.owned, h.kernel.frames, add_zero] at this
  apply h.setup.trans this

/-- The number of pages that were free at the start. -/
theorem length_freelist (h : CopyState L s d i F m m₁ m₂) (hi : i ≤ 2 ^ 19) :
  m.freelist.length = m₂.freelist.length + 65 + i + (i + 1023) / 1024
  := by
  have hsetup := h.setup.card
  have hpages := h.pages.length_freelist
  rw [h.kernel.card_tree, Multiset.card_zero] at hsetup
  rw [h.kernel.newTables hi] at hpages
  omega

end CopyState

/-- The failure of `copyuvm`: all pages are back, or the page that could not be mapped is
lost. -/
def CopyFails (m : Memory) (n : Nat) (m' : Memory) : Prop :=
  Trade 0 m 0 m' ∧ FailsClean m.freelist.length n ∨
    ∃ f, Trade 0 m {f} m' ∧ FailsAtTable m.freelist.length n

theorem copyLoop_spec
    {N n i : Nat} {F : Multiset Nat} (hp : Pool L m (m.owned s)) (hN : N ≤ 2 ^ 19)
    (h : CopyState L s d i F m m₁ m₂) (hn : i + n = N) :
  Wp (fun _ => ∃ e : Entry, e.vpn < N ∧ isP (m.entry s e) = false)
    (copyLoop L s d n (PGSIZE * i))
    (fun r m' => match r with
      | none => CopyFails m N m'
      | some d' => d' = d ∧ ∃ F, CopyState L s d N F m m₁ m') m₂
  := by
  induction n generalizing i F m₂ with
  | zero =>
    obtain rfl : i = N := hn
    exact ⟨rfl, F, h⟩
  | succ n ih =>
    have hi : i < 2 ^ 19 := by
      omega
    have hva : PGSIZE * i < KERNBASE := by
      simp only [PGSIZE, KERNBASE]
      omega
    have hvpn := Entry.vpn_ofVa (v := i) (by omega)
    obtain ⟨htable, hentry, hpage⟩ := hp.entry_of_trade h.trade
    have hpool : Pool L m₂ (m₂.owned d) := by
      apply Pool.trade _ h.trade
      apply hp.of_le (Multiset.zero_le _)
    have hlen := h.length_freelist hi.le
    rw [copyLoop, wp_bind, wp_walkpgdir, htable]
    cases ht : m.table s (pdx (PGSIZE * i)) with
    | none =>
      refine ⟨.ofVa (PGSIZE * i), by omega, ?_⟩
      rw [Memory.entry_of_none (e := .ofVa (PGSIZE * i)) ht, isP_zero]
    | some t =>
      have hpte : m₂.page t (ptx (PGSIZE * i)) = m.entry s (.ofVa (PGSIZE * i)) := by
        rw [← hentry]
        symm
        apply Memory.entry_eq
        rw [htable, ht]
      simp only [Option.map_some, wp_bind, wp_get, hpte]
      by_cases hP : isP (m.entry s (.ofVa (PGSIZE * i)))
      · rw [hP, Bool.not_true, if_neg Bool.false_ne_true, wp_bind, wp_kalloc]
        constructor
        · intro hfree
          apply (freevm_spec hpool).noFail.bind
          intro _ m' hm'
          left
          refine ⟨h.trade.trans hm', .inr ⟨i, by omega, ?_⟩⟩
          rw [hfree, List.length_nil] at hlen
          omega
        · intro f l hf
          have hnot : isP (m₂.entry d (.ofVa (PGSIZE * i))) = false := by
            rw [h.pages.outside _ (by omega), h.kernel.entry, hvpn, kernelPte_of_lt hva, isP_zero]
          have hcontents : m₂.page (pteAddr (m.entry s (.ofVa (PGSIZE * i)))) =
              contentsAt m s i := by
            apply hpage
            apply mem_owned_of_isP hva hP
          simp only [wp_bind, wp_modify, hcontents]
          apply (mapFresh_spec hpool.left hf hva (pteFlags_lt _) hnot).noFail.mono
          rintro (_ | _) m₃ hm₃
          · have htrade := hm₃.trade_owned
            have hpool₃ := (hpool.trade htrade).of_le (Multiset.le_cons_self _ f)
            rw [if_neg Bool.false_ne_true]
            apply (freevm_spec hpool₃).noFail.bind
            intro _ m' hm'
            right
            refine ⟨f, (h.trade.trans htrade).trans (hm'.cons f), i / 1024, ?_⟩
            have hneeds : ¬ NeedsTable 0 i (pdx (PGSIZE * i)) := by
              intro hneeds
              have := (h.pages.table (pdx (PGSIZE * i))).mpr (.inr hneeds)
              rw [hm₃.missing] at this
              cases this
            have hpdx := Entry.pdx_val (v := i) (by omega)
            simp only [NeedsTable] at hneeds
            have hcard := hm₃.trade.card
            rw [Multiset.card_cons, hm₃.freelist, List.length_nil,
              Memory.tree_congr hm₃.table] at hcard
            omega
          · rw [if_pos rfl, ← Nat.mul_succ]
            have hpool₁ : Pool L m₁ (m₁.owned d) := by
              apply Pool.trade (hp.of_le (Multiset.zero_le _))
              rw [Memory.owned, h.kernel.frames, add_zero]
              apply h.setup
            have hnext : CopyState L s d (i + 1) (f ::ₘ F) m m₁ m₃ :=
              ⟨h.kernel, h.setup, h.pages.snoc hpool₁ hm₃ (by omega)⟩
            apply ih hnext
            omega
      · rw [Bool.not_eq_true] at hP
        rw [hP, Bool.not_false, if_pos rfl, wp_bind, wp_throw]
        exact ⟨.ofVa (PGSIZE * i), by omega, hP⟩

/-- The page directory `d` maps copies of the first `n` user pages of `s`, and the kernel. -/
structure Copies (L : Layout) (s n d : Nat) (m m' : Memory) : Prop where
  inside : ∀ e : Entry, e.vpn < n → ∃ f ∈ m'.frames d,
    m'.entry d e = mkPte (PGSIZE * f) (pteFlags (m.entry s e)) ∧
      m'.page f = m.page (pteAddr (m.entry s e))
  outside : ∀ e : Entry, n ≤ e.vpn → m'.entry d e = kernelPte L e.vpn
  trade : Trade 0 m (m'.owned d) m'
  length : m.freelist.length = m'.freelist.length + 65 + n + (n + 1023) / 1024

theorem CopyState.copies
    {n : Nat} {F : Multiset Nat} (h : CopyState L s d n F m m₁ m') (hn : n ≤ 2 ^ 19) :
  Copies L s n d m m'
  := by
  constructor
  · intro e he
    obtain ⟨f, hf, hentry, hpage⟩ := h.pages.inside e (Nat.zero_le _) he
    have hva : Entry.ofVa (PGSIZE * e.vpn) = e :=
      ((Entry.ofVa_eq_iff e.vpn_lt e).mpr rfl).symm
    use f
    rw [h.pages.frames, Multiset.mem_add, hentry, hpage, flagsAt, contentsAt, hva]
    exact ⟨.inl hf, rfl, rfl⟩
  · intro e he
    rw [h.pages.outside e (by omega), h.kernel.entry]
  · apply h.trade
  · apply h.length_freelist hn

/-- With so few pages there is no copy. -/
theorem Copies.not_atTable {n : Nat} (h : Copies L s n d m m') :
  ¬ FailsAtTable m.freelist.length n
  := by
  rintro ⟨j, hj, hlen⟩
  have := h.length
  omega

/-- `copyuvm` copies the user pages, or it fails; it panics only if a page is missing. -/
theorem copyuvm_spec {sz : Nat} (hp : Pool L m (m.owned s)) (hsz : sz ≤ KERNBASE) :
  Wp (fun _ => ∃ e : Entry, e.vpn < npages sz ∧ isP (m.entry s e) = false) (copyuvm L s sz)
    (fun r m' => match r with
      | none => CopyFails m (npages sz) m'
      | some d => Copies L s (npages sz) d m m') m
  := by
  have hN : npages sz ≤ 2 ^ 19 := by
    simp only [npages, PGSIZE, KERNBASE] at hsz ⊢
    omega
  rw [copyuvm]
  apply (setupkvm_spec (hp.of_le (Multiset.zero_le _))).noFail.bind
  rintro (_ | d) m₁ hm₁
  · exact .inl ⟨hm₁.1, .inl hm₁.2⟩
  · obtain ⟨htrade, hkernel⟩ := hm₁
    apply (copyLoop_spec hp hN ⟨hkernel, htrade, .refl d 0 _ _ m₁⟩ (Nat.zero_add _)).mono
    rintro (_ | d') m' hm'
    · apply hm'
    · obtain ⟨rfl, F, hstate⟩ := hm'
      apply hstate.copies hN

end Xv6.Vm
