import Xv6.Vm.Kvm

/-!
# Adding user pages

The common part of `allocuvm` and `copyuvm`: a page is taken from the free list, filled, and
mapped.  The pages are mapped one after the other, and page tables are added on the way.
-/

namespace Xv6.Vm

variable {L : Layout} {m m' m'' : Memory} {d v f perm : Nat} {c : Page}

/-! ### One page -/

/-- The page `f` with the contents `c` is mapped at the virtual page `v`. -/
structure AddsPage (d v f perm : Nat) (c : Page) (m m' : Memory) : Prop where
  table : ∃ t, m'.table d = Function.update (m.table d) (pdx (PGSIZE * v)) (some t)
  entry : m'.entry d =
    Function.update (m.entry d) (.ofVa (PGSIZE * v)) (mkPte (PGSIZE * f) perm)
  page : m'.page f = c
  frames : m'.frames d = f ::ₘ m.frames d
  trade : Trade (m.tree d) m (f ::ₘ m'.tree d) m'

/-- The page `f` is taken from the free list, but there is no other for the page table that the
virtual page `v` needs. -/
structure Strays (d v f : Nat) (m m' : Memory) : Prop where
  table : m'.table d = m.table d
  entry : m'.entry d = m.entry d
  missing : m.table d (pdx (PGSIZE * v)) = none
  freelist : m'.freelist = []
  trade : Trade (m.tree d) m (f ::ₘ m'.tree d) m'

/-- All pages of the directory are traded. -/
theorem Strays.trade_owned (h : Strays d v f m m') :
  Trade (m.owned d) m (f ::ₘ m'.owned d) m'
  := by
  have := h.trade.frame (m.frames d)
  rw [Multiset.cons_add] at this
  rw [Memory.owned, Memory.owned, Memory.frames_congr h.entry]
  apply this

/-- A page that was taken from the free list and filled. -/
theorem Trade.fill {l : List Nat} (hp : Pool L m (m.tree d)) (hf : m.freelist = f :: l) :
  let m₁ := ({ m with freelist := l } : Memory).setPage f c
  m₁.table d = m.table d ∧ m₁.entry d = m.entry d ∧
    Trade (m.tree d) m (f ::ₘ m₁.tree d) m₁
  := by
  intro m₁
  have hpage : ∀ g ∈ m.tree d, m₁.page g = m.page g := by
    intro g hg
    apply Function.update_of_ne
    rintro rfl
    apply hp.notMem_freelist hg
    rw [hf]
    apply List.mem_cons_self
  have htable := Memory.table_congr (hpage d Memory.mem_tree_self)
  have htrade := ((Trade.kalloc hf).trans
    (Trade.setPage (c := c) (Multiset.mem_singleton_self f))).frame (m.tree d)
  rw [zero_add, Multiset.singleton_add] at htrade
  refine ⟨htable, Memory.entry_congr hpage, ?_⟩
  rw [Memory.tree_congr htable]
  apply htrade

/-- `mappages` of a page that was taken from the free list and filled. -/
theorem mapFresh_spec
    {l : List Nat} (hp : Pool L m (m.tree d)) (hf : m.freelist = f :: l)
    (hv : PGSIZE * v < KERNBASE) (hperm : perm < PGSIZE)
    (hnot : isP (m.entry d (.ofVa (PGSIZE * v))) = false) :
  Wp NoFault (mappages d (PGSIZE * v) PGSIZE (PGSIZE * f) perm)
    (fun ok m' => match ok with
      | false => Strays d v f m m'
      | true => AddsPage d v f perm c m m') (({ m with freelist := l } : Memory).setPage f c)
  := by
  obtain ⟨htable, hentry, htrade⟩ := Trade.fill (c := c) hp hf
  have hpage : (({ m with freelist := l } : Memory).setPage f c).page f = c :=
    Function.update_self _ _ _
  have hfree : (({ m with freelist := l } : Memory).setPage f c).freelist = l := rfl
  generalize ({ m with freelist := l } : Memory).setPage f c = m₁ at *
  have hp₁ := hp.trade htrade
  rw [← Multiset.singleton_add, add_comm] at hp₁
  have heq : mappages d (PGSIZE * v) PGSIZE (PGSIZE * f) perm
      = mapPage d (PGSIZE * v) (PGSIZE * f) perm := by
    have hfirst : pgrounddown (PGSIZE * v) = PGSIZE * v := by
      simp only [pgrounddown, PGSIZE]
      omega
    have hlast : pgrounddown (PGSIZE * v + PGSIZE - 1) = PGSIZE * v := by
      simp only [pgrounddown, PGSIZE]
      omega
    simp only [mappages, hfirst, hlast, Nat.sub_self, Nat.zero_div, mapLoop]
  rw [heq]
  apply (mapPage_spec hp₁.left (hentry ▸ hnot) _ perm).mono
  rintro (_ | _) m' hm'
  · obtain ⟨rfl, hempty, hnone⟩ := hm'
    exact ⟨htable, hentry, htable ▸ hnone, hempty, htrade⟩
  · have hrange : f < 2 ^ 20 := by
      apply Layout.InRange.lt (L := L)
      apply hp₁.right.inRange (Multiset.mem_singleton_self f)
    constructor
    · obtain ⟨t, ht⟩ := hm'.table
      exact ⟨t, htable ▸ ht⟩
    · rw [hm'.entry, hentry]
    · rw [hp₁.same_of_mem hm'.trade (Multiset.mem_singleton_self f), hpage]
    · have hnone : m.frame d (.ofVa (PGSIZE * v)) = none := by
        rw [Memory.frame, Entry.frame, hnot, if_neg]
        simp
      have hsome : (Entry.ofVa (PGSIZE * v)).frame (mkPte (PGSIZE * f) perm) = some f := by
        rw [Entry.frame, if_pos ⟨pdx_lt_kernbase hv, isP_mkPte hrange hperm⟩,
          pteAddr_mkPte hrange hperm]
      rw [Memory.frames, Memory.frame_update hm'.entry, Memory.frame_congr hentry, hsome,
        held_update_some hnone, Memory.frames]
    · apply htrade.trans (hm'.trade.cons f)

/-! ### A range of pages -/

/-- The virtual pages from `lo` to `hi` need the page table of a directory index. -/
def NeedsTable (lo hi : Nat) (j : Fin 1024) : Prop :=
  lo < hi ∧ lo / 1024 ≤ j.val ∧ 1024 * j.val < hi

instance (lo hi : Nat) (j : Fin 1024) : Decidable (NeedsTable lo hi j) :=
  inferInstanceAs (Decidable (_ ∧ _))

/-- The number of page tables that the virtual pages from `lo` to `hi` need and that are not
there. -/
def newTables (m : Memory) (d lo hi : Nat) : Nat :=
  (Finset.univ.filter fun j => m.table d j = none ∧ NeedsTable lo hi j).card

/-- The pages `F` are mapped at the virtual pages from `lo` to `hi`. -/
structure AddsPages (d lo hi : Nat) (perm : Nat → Nat) (c : Nat → Page) (F : Multiset Nat)
    (m m' : Memory) : Prop where
  le : lo ≤ hi
  table : ∀ j, (m'.table d j).isSome ↔ (m.table d j).isSome ∨ NeedsTable lo hi j
  outside : ∀ e : Entry, ¬ (lo ≤ e.vpn ∧ e.vpn < hi) → m'.entry d e = m.entry d e
  inside : ∀ e : Entry, lo ≤ e.vpn → e.vpn < hi →
    ∃ f ∈ F, m'.entry d e = mkPte (PGSIZE * f) (perm e.vpn) ∧ m'.page f = c e.vpn
  card : Multiset.card F = hi - lo
  frames : m'.frames d = F + m.frames d
  trade : Trade (m.tree d) m (F + m'.tree d) m'

namespace AddsPages

variable {lo hi : Nat} {perm : Nat → Nat} {c : Nat → Page} {F : Multiset Nat}

theorem refl (d lo : Nat) (perm : Nat → Nat) (c : Nat → Page) (m : Memory) :
  AddsPages d lo lo perm c 0 m m
  := by
  constructor
  · apply le_refl
  · intro j
    simp [NeedsTable]
  · intro _ _
    rfl
  · intro e hge hlt
    omega
  · rw [Nat.sub_self, Multiset.card_zero]
  · rw [zero_add]
  · rw [zero_add]
    apply Trade.refl

section

variable (h : AddsPages d lo hi perm c F m m')

include h

/-- All pages of the directory are traded. -/
theorem trade_owned :
  Trade (m.owned d) m (m'.owned d) m'
  := by
  have := h.trade.frame (m.frames d)
  rw [add_right_comm, ← h.frames, add_comm (m'.frames d)] at this
  apply this

/-- One more page. -/
theorem snoc
    (hp : Pool L m (m.owned d)) (h' : AddsPage d hi f (perm hi) (c hi) m' m'') (hhi : hi < 2 ^ 20) :
  AddsPages d lo (hi + 1) perm c (f ::ₘ F) m m''
  := by
  obtain ⟨t, ht⟩ := h'.table
  have hpdx := Entry.pdx_val hhi
  have hp' := hp.trade h.trade_owned
  constructor
  · have := h.le
    omega
  · intro j
    have hle := h.le
    rw [ht, Function.update_apply]
    split
    · subst_vars
      simp only [Option.isSome_some, true_iff, NeedsTable]
      right
      omega
    · rename_i hne
      have hne : j.val ≠ hi / 1024 := by
        intro heq
        apply hne
        apply Fin.ext
        omega
      rw [h.table]
      apply or_congr_right
      simp only [NeedsTable]
      omega
  · intro e he
    rw [h'.entry, Function.update_of_ne, h.outside e (by omega)]
    have := h.le
    rw [ne_eq, Entry.ofVa_eq_iff hhi]
    omega
  · intro e hge hlt
    by_cases heq : e.vpn = hi
    · use f, Multiset.mem_cons_self f F
      rw [h'.entry, (Entry.ofVa_eq_iff hhi e).mpr heq, Function.update_self,
        Entry.vpn_ofVa hhi, h'.page]
      exact ⟨rfl, rfl⟩
    · obtain ⟨g, hg, hentry, hpage⟩ := h.inside e hge (by omega)
      use g, Multiset.mem_cons_of_mem hg
      rw [h'.entry, Function.update_of_ne (by rwa [ne_eq, Entry.ofVa_eq_iff hhi])]
      refine ⟨hentry, ?_⟩
      rw [← hpage]
      apply hp'.same_of_mem h'.trade
      rw [h.frames, Multiset.mem_add]
      exact .inl hg
  · have := h.le
    rw [Multiset.card_cons, h.card]
    omega
  · rw [h'.frames, h.frames, Multiset.cons_add]
  · have := h'.trade.frame_left F
    rw [Multiset.add_cons, ← Multiset.cons_add] at this
    apply h.trade.trans this

/-- The number of pages that were taken from the free list. -/
theorem length_freelist :
  m.freelist.length = m'.freelist.length + (hi - lo) + newTables m d lo hi
  := by
  have hcard := h.trade.card
  rw [Multiset.card_add, h.card, card_tree, card_tree] at hcard
  simp only [h.table, card_filter_or, Option.not_isSome_iff_eq_none] at hcard
  rw [newTables]
  omega

end

end AddsPages

theorem newTables_mono (m : Memory) (d lo : Nat) {i hi : Nat} (h : i ≤ hi) :
  newTables m d lo i ≤ newTables m d lo hi
  := by
  apply card_filter_le
  intro j hj
  refine ⟨hj.1, ?_⟩
  have := hj.2
  simp only [NeedsTable] at this ⊢
  omega

/-- A page table that is still missing counts. -/
theorem newTables_lt
    {lo i hi : Nat} {perm : Nat → Nat} {c : Nat → Page} {F : Multiset Nat}
    (h : AddsPages d lo i perm c F m m') (hi' : i < hi) (hlt : i < 2 ^ 20)
    (hmissing : m'.table d (pdx (PGSIZE * i)) = none) :
  newTables m d lo i < newTables m d lo hi
  := by
  have hpdx := Entry.pdx_val hlt
  have hle := h.le
  have hnot : ¬ ((m.table d (pdx (PGSIZE * i))).isSome ∨
      NeedsTable lo i (pdx (PGSIZE * i))) := by
    rw [← h.table, hmissing]
    simp
  obtain ⟨hnone, hneeds⟩ := not_or.mp hnot
  apply card_filter_lt (r := pdx (PGSIZE * i))
  · intro j hj
    refine ⟨hj.1, ?_⟩
    have := hj.2
    simp only [NeedsTable] at this ⊢
    omega
  · intro hj
    apply hneeds hj.2
  · constructor
    · simpa using hnone
    · simp only [NeedsTable]
      omega

end Xv6.Vm
