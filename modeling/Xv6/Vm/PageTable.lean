import Xv6.Vm.Memory

/-!
# Page tables

The functions of `vm.c` that read and extend a page directory.  A page directory is the page `d`
that holds its entries; the memory seen through it is the map `m.entry d` of the page table
entries and the map `m.table d` of the page-table pages.
-/

namespace Xv6.Vm

open Function

/-! ### Addresses and entries -/

/-- `PTE_P`, present -/
abbrev PTE_P : Nat := 0x001

/-- `PTE_W`, writeable -/
abbrev PTE_W : Nat := 0x002

/-- `PTE_U`, user -/
abbrev PTE_U : Nat := 0x004

/-- `pte & PTE_P` -/
def isP (pte : UInt32) : Bool :=
  pte.toNat.testBit 0

/-- `pte & PTE_U` -/
def isU (pte : UInt32) : Bool :=
  pte.toNat.testBit 2

/-- The number of the page at `PTE_ADDR(pte)`. -/
def pteAddr (pte : UInt32) : Nat :=
  pte.toNat / PGSIZE

/-- `PTE_FLAGS(pte)` -/
def pteFlags (pte : UInt32) : Nat :=
  pte.toNat % PGSIZE

/-- `pa | perm | PTE_P` -/
def mkPte (pa perm : Nat) : UInt32 :=
  .ofNat (pa ||| perm ||| PTE_P)

/-- `PGROUNDUP` -/
def pgroundup (sz : Nat) : Nat :=
  (sz + PGSIZE - 1) / PGSIZE * PGSIZE

/-- The number of pages of a memory of `sz` bytes. -/
def npages (sz : Nat) : Nat :=
  (sz + PGSIZE - 1) / PGSIZE

theorem pgroundup_eq (sz : Nat) :
  pgroundup sz = PGSIZE * npages sz
  := Nat.mul_comm _ _

theorem lt_npages_iff {sz v : Nat} :
  v < npages sz ↔ PGSIZE * v < sz
  := by
  simp only [npages, PGSIZE]
  omega

/-- `PGROUNDDOWN` -/
def pgrounddown (a : Nat) : Nat :=
  a / PGSIZE * PGSIZE

/-- `PDX`, the directory index of an address. -/
def pdx (va : Nat) : Fin 1024 :=
  .ofNat 1024 (va / 2 ^ 22)

/-- `PTX`, the table index of an address. -/
def ptx (va : Nat) : Fin 1024 :=
  .ofNat 1024 (va / 2 ^ 12)

/-- The place of a page table entry: its directory index and its table index. -/
abbrev Entry : Type := Fin 1024 × Fin 1024

namespace Entry

/-- The place of the entry for an address. -/
def ofVa (va : Nat) : Entry :=
  (pdx va, ptx va)

/-- The user page that an entry maps: the entries from `KERNBASE` on are the kernel's. -/
def frame (e : Entry) (pte : UInt32) : Option Nat :=
  if e.1 < pdx KERNBASE ∧ isP pte then some (pteAddr pte) else none

/-- The number of the virtual page that an entry maps. -/
def vpn (e : Entry) : Nat :=
  1024 * e.1 + e.2

theorem vpn_lt (e : Entry) :
  e.vpn < 2 ^ 20
  := by
  have := e.1.isLt
  have := e.2.isLt
  simp only [vpn]
  omega

theorem vpn_div (e : Entry) :
  e.vpn / 1024 = e.1
  := by
  have := e.2.isLt
  simp only [vpn]
  omega

theorem vpn_inj {e e' : Entry} (h : e.vpn = e'.vpn) :
  e = e'
  := by
  have := e.2.isLt
  have := e'.2.isLt
  simp only [vpn] at h
  apply Prod.ext
  · apply Fin.ext
    omega
  · apply Fin.ext
    omega

variable {v : Nat}

theorem vpn_ofVa (hv : v < 2 ^ 20) :
  (ofVa (PGSIZE * v)).vpn = v
  := by
  simp only [ofVa, vpn, pdx, ptx, Fin.val_ofNat, PGSIZE]
  omega

theorem ofVa_eq_iff (hv : v < 2 ^ 20) (e : Entry) :
  e = ofVa (PGSIZE * v) ↔ e.vpn = v
  := by
  constructor
  · rintro rfl
    apply vpn_ofVa hv
  · intro h
    apply vpn_inj
    rw [h, vpn_ofVa hv]

theorem pdx_val (hv : v < 2 ^ 20) :
  (pdx (PGSIZE * v)).val = v / 1024
  := by
  simp only [pdx, Fin.val_ofNat, PGSIZE]
  omega

end Entry

section

variable {f perm : Nat}

section

variable (hf : f < 2 ^ 20)

include hf

section

variable (hperm : perm < PGSIZE)

include hperm

theorem toNat_mkPte :
  (mkPte (PGSIZE * f) perm).toNat = PGSIZE * f ||| perm ||| PTE_P
  := by
  have hlt : PGSIZE * f ||| perm ||| PTE_P < 2 ^ 32 := by
    simp only [PGSIZE] at hperm ⊢
    apply Nat.or_lt_two_pow (Nat.or_lt_two_pow _ _)
    · decide
    · omega
    · omega
  exact UInt32.toNat_ofNat_of_lt' hlt

theorem pteAddr_mkPte :
  pteAddr (mkPte (PGSIZE * f) perm) = f
  := by
  simp only [PGSIZE] at hperm
  have hf' : (4096 * f) >>> 12 = f := by
    rw [Nat.shiftRight_eq_div_pow]
    omega
  have hperm' : perm >>> 12 = 0 := by
    rw [Nat.shiftRight_eq_div_pow]
    omega
  rw [pteAddr, toNat_mkPte hf hperm]
  change (4096 * f ||| perm ||| 1) / 2 ^ 12 = f
  rw [← Nat.shiftRight_eq_div_pow, Nat.shiftRight_or_distrib, Nat.shiftRight_or_distrib, hf',
    hperm']
  simp

theorem pteFlags_mkPte :
  pteFlags (mkPte (PGSIZE * f) perm) = perm ||| PTE_P
  := by
  simp only [PGSIZE] at hperm
  rw [pteFlags, toNat_mkPte hf hperm]
  change (4096 * f ||| perm ||| 1) % 2 ^ 12 = _
  rw [Nat.or_mod_two_pow, Nat.or_mod_two_pow, Nat.mul_mod_right, Nat.mod_eq_of_lt hperm]
  simp

theorem isP_mkPte :
  isP (mkPte (PGSIZE * f) perm) = true
  := by
  rw [isP, toNat_mkPte hf hperm, Nat.testBit_or]
  simp

/-- The flags of an entry besides `PTE_P`. -/
theorem testBit_mkPte {i : Nat} (hi : 0 < i ∧ i < 12) :
  (mkPte (PGSIZE * f) perm).toNat.testBit i = perm.testBit i
  := by
  have hpa : (PGSIZE * f).testBit i = false := by
    rw [show PGSIZE = 2 ^ 12 from rfl, Nat.testBit_two_pow_mul, decide_eq_false (by omega),
      Bool.false_and]
  have hp : PTE_P.testBit i = false := by
    rw [show PTE_P = 2 ^ 0 from rfl, Nat.testBit_two_pow_of_ne (by omega)]
  rw [toNat_mkPte hf hperm, Nat.testBit_or, Nat.testBit_or, hpa, hp, Bool.false_or, Bool.or_false]

end

end

end

/-! ### The memory seen through a page directory -/

namespace Memory

variable (m : Memory) (d : Nat)

/-- The page-table page of a directory index. -/
def table (j : Fin 1024) : Option Nat :=
  if isP (m.page d j) then some (pteAddr (m.page d j)) else none

/-- A page table entry, `0` where there is no page table. -/
def entry (e : Entry) : UInt32 :=
  match m.table d e.1 with
  | none => 0
  | some t => m.page t e.2

/-- The user page that the directory maps at an entry. -/
def frame (e : Entry) : Option Nat :=
  e.frame (m.entry d e)

/-- The pages of the page tables: the directory and the page-table pages. -/
def tree : Multiset Nat :=
  d ::ₘ held (m.table d)

/-- The user pages that are mapped. -/
def frames : Multiset Nat :=
  held (m.frame d)

/-- All pages of a page directory. -/
def owned : Multiset Nat :=
  m.tree d + m.frames d

variable {m d} {m' : Memory} {j : Fin 1024} {t : Nat}

theorem mem_tree_self :
  d ∈ m.tree d
  := by
  rw [tree]
  apply Multiset.mem_cons_self

theorem mem_tree_of_table (h : m.table d j = some t) :
  t ∈ m.tree d
  := by
  rw [tree, Multiset.mem_cons, mem_held]
  exact .inr ⟨j, h⟩

theorem table_congr (h : m'.page d = m.page d) :
  m'.table d = m.table d
  := by
  funext j
  simp only [table, h]

theorem entry_eq (h : m.table d j = some t) (k : Fin 1024) :
  m.entry d (j, k) = m.page t k
  := by
  simp only [entry, h]

theorem entry_of_none {e : Entry} (h : m.table d e.1 = none) :
  m.entry d e = 0
  := by
  simp only [entry, h]

/-- An entry that is present is in a page table. -/
theorem exists_table {va : Nat} (hP : isP (m.entry d (.ofVa va))) :
  ∃ t, m.table d (pdx va) = some t ∧ m.page t (ptx va) = m.entry d (.ofVa va)
  := by
  cases ht : m.table d (pdx va) with
  | none =>
    rw [entry_of_none (e := .ofVa va) ht] at hP
    cases hP
  | some t => exact ⟨t, rfl, (entry_eq ht _).symm⟩

/-- The entries depend on the pages of the page tables only. -/
theorem entry_congr (h : ∀ f ∈ m.tree d, m'.page f = m.page f) :
  m'.entry d = m.entry d
  := by
  have htable := table_congr (h d mem_tree_self)
  funext e
  simp only [entry, htable]
  split
  · rfl
  · rename_i t ht
    rw [h t (mem_tree_of_table ht)]

theorem frame_congr (h : m'.entry d = m.entry d) :
  m'.frame d = m.frame d
  := by
  funext e
  simp only [frame, h]

/-- Changing an entry changes the page that it maps. -/
theorem frame_update
    {e : Entry} {w : UInt32} (h : m'.entry d = update (m.entry d) e w) :
  m'.frame d = update (m.frame d) e (e.frame w)
  := by
  funext i
  rcases eq_or_ne i e with rfl | hne
  · simp [frame, h]
  · simp [frame, h, hne]

theorem tree_congr (h : m'.table d = m.table d) :
  m'.tree d = m.tree d
  := by
  rw [tree, tree, h]

theorem frames_congr (h : m'.entry d = m.entry d) :
  m'.frames d = m.frames d
  := by
  rw [frames, frames, frame_congr h]

/-- What a page directory holds depends on the pages of its page tables only. -/
theorem owned_congr (h : ∀ f ∈ m.tree d, m'.page f = m.page f) :
  m'.owned d = m.owned d
  := by
  rw [owned, owned, tree_congr (table_congr (h d mem_tree_self)), frames_congr (entry_congr h)]

end Memory

/-! ### `walkpgdir` and `mappages` -/

/-- `walkpgdir`: the page and the index of the entry for `va`. -/
def walkpgdir (pgdir va : Nat) (alloc : Bool) : Mem (Option (Nat × Fin 1024)) := do
  let pde := (← get).page pgdir (pdx va)
  if isP pde then
    return some (pteAddr pde, ptx va)
  else if !alloc then
    return none
  else
    match ← kalloc with
    | none => return none
    | some pgtab =>
      -- Make sure all those PTE_P bits are zero.
      modify (·.setPage pgtab (.fill 0))
      modify (·.setWord pgdir (pdx va) (mkPte (PGSIZE * pgtab) (PTE_W ||| PTE_U)))
      return some (pgtab, ptx va)

/-- One turn of the loop of `mappages`; `false` is the failure of `walkpgdir`. -/
def mapPage (pgdir a pa perm : Nat) : Mem Bool := do
  match ← walkpgdir pgdir a true with
  | none => return false
  | some (t, k) =>
    if isP ((← get).page t k) then
      throw (.panic "remap")
    modify (·.setWord t k (mkPte pa perm))
    return true

/-- The loop of `mappages`, with `n` pages between `a` and `last`. -/
def mapLoop (pgdir perm : Nat) : (n a pa : Nat) → Mem Bool
  | 0, a, pa => mapPage pgdir a pa perm
  | n + 1, a, pa => do
    if ← mapPage pgdir a pa perm then
      mapLoop pgdir perm n (a + PGSIZE) (pa + PGSIZE)
    else
      return false

/-- `mappages`; `false` is the result `-1`. -/
def mappages (pgdir va size pa perm : Nat) : Mem Bool :=
  let a := pgrounddown va
  let last := pgrounddown (va + size - 1)
  mapLoop pgdir perm ((last - a) / PGSIZE) a pa

variable {L : Layout} {m m' m'' : Memory} {d t : Nat} {j : Fin 1024}

/-- The page tables of `d` have a page `t` for the index `j`, and the entries are as before. -/
structure AddsTable (d : Nat) (j : Fin 1024) (t : Nat) (m m' : Memory) : Prop where
  table : m'.table d = Function.update (m.table d) j (some t)
  entry : m'.entry d = m.entry d
  trade : Trade (m.tree d) m (m'.tree d) m'

theorem AddsTable.of_some (h : m.table d j = some t) :
  AddsTable d j t m m
  := by
  refine ⟨?_, rfl, .refl _ _⟩
  rw [← h, update_eq_self]

/-- The memory after `walkpgdir` added a page table. -/
def Memory.addTable (m : Memory) (d : Nat) (j : Fin 1024) (t : Nat) (l : List Nat) : Memory :=
  (({ m with freelist := l } : Memory).setPage t (.fill 0)).setWord d j
    (mkPte (PGSIZE * t) (PTE_W ||| PTE_U))

theorem AddsTable.of_none
    (hp : Pool L m (m.tree d)) (hj : m.table d j = none) {l : List Nat}
    (ht : m.freelist = t :: l) :
  AddsTable d j t m (m.addTable d j t l)
  := by
  have hmem : t ∈ m.freelist := by
    rw [ht]
    apply List.mem_cons_self
  have hrange : t < 2 ^ 20 := (hp.range t (Multiset.mem_add.mpr (.inl hmem))).lt
  have hperm : PTE_W ||| PTE_U < PGSIZE := by
    decide
  have htree : ∀ f ∈ m.tree d, f ≠ t := by
    rintro f hf rfl
    apply hp.notMem_freelist hf hmem
  have hdir : (m.addTable d j t l).page d =
      update (m.page d) j (mkPte (PGSIZE * t) (PTE_W ||| PTE_U)) := by
    simp [Memory.addTable, Memory.setWord, Memory.setPage, htree d Memory.mem_tree_self]
  have hother : ∀ f, f ≠ d → f ≠ t → (m.addTable d j t l).page f = m.page f := by
    intro f hd hne
    simp [Memory.addTable, Memory.setWord, Memory.setPage, hd, hne]
  have htable : (m.addTable d j t l).table d = update (m.table d) j (some t) := by
    funext i
    rcases eq_or_ne i j with rfl | hne
    · simp [Memory.table, hdir, isP_mkPte hrange hperm, pteAddr_mkPte hrange hperm]
    · simp [Memory.table, hdir, hne]
  refine ⟨htable, ?_, ?_⟩
  · funext e
    simp only [Memory.entry, htable]
    rcases eq_or_ne e.1 j with he | hne
    · rw [he, hj, update_self]
      simp [Memory.addTable, Memory.setWord, Memory.setPage,
        (htree d Memory.mem_tree_self).symm, Page.fill]
    · rw [update_of_ne hne]
      split
      · rfl
      · rename_i t' ht'
        have hmem' := Memory.mem_tree_of_table ht'
        rw [hother t' _ (htree t' hmem')]
        rintro rfl
        apply (Multiset.nodup_cons.mp hp.nodup_right).1
        exact mem_held.mpr ⟨_, ht'⟩
  · constructor
    · rw [Memory.tree, htable, held_update_some hj, ht]
      simp only [Memory.addTable, Memory.setWord, Memory.setPage]
      rw [Multiset.cons_swap, Memory.tree, ← Multiset.cons_coe, Multiset.add_cons,
        Multiset.cons_add]
    · intro f hf hnot
      apply hother
      · rintro rfl
        apply hnot Memory.mem_tree_self
      · rintro rfl
        apply hf hmem
    · rfl

/-- No fault is possible. -/
abbrev NoFault : Fault → Prop :=
  fun _ => False

variable {E : Fault → Prop} {va : Nat}

/-- `walkpgdir` that may not add a page table. -/
theorem wp_walkpgdir {Q : Option (Nat × Fin 1024) → Memory → Prop} :
  Wp E (walkpgdir d va false) Q m ↔ Q ((m.table d (pdx va)).map (·, ptx va)) m
  := by
  simp only [walkpgdir, wp_bind, wp_get, Memory.table]
  split
  · simp
  · simp

/-- `walkpgdir` that may add a page table fails when it has to and no page is free. -/
theorem walkpgdir_spec (hp : Pool L m (m.tree d)) (va : Nat) :
  Wp NoFault (walkpgdir d va true)
    (fun r m' => match r with
      | none => m' = m ∧ m.freelist = [] ∧ m.table d (pdx va) = none
      | some (t, k) => k = ptx va ∧ AddsTable d (pdx va) t m m') m
  := by
  simp only [walkpgdir, wp_bind, wp_get]
  split
  · rename_i hpde
    rw [wp_pure]
    refine ⟨rfl, AddsTable.of_some ?_⟩
    simp only [Memory.table, hpde, if_true]
  · rename_i hpde
    have hj : m.table d (pdx va) = none := by
      simp [Memory.table, hpde]
    rw [if_neg (by simp), wp_bind, wp_kalloc]
    constructor
    · intro hfree
      exact ⟨rfl, hfree, hj⟩
    · intro t l ht
      simp only [wp_bind, wp_modify, wp_pure]
      refine ⟨trivial, ?_⟩
      apply AddsTable.of_none hp hj ht

/-- One entry of the page tables of `d` changes. -/
structure SetsEntry (d : Nat) (e : Entry) (w : UInt32) (m m' : Memory) : Prop where
  table : m'.table d = m.table d
  entry : m'.entry d = Function.update (m.entry d) e w
  trade : Trade (m.tree d) m (m'.tree d) m'

theorem SetsEntry.setWord
    (hp : Pool L m (m.tree d)) (ht : m.table d j = some t) (k : Fin 1024) (w : UInt32) :
  SetsEntry d (j, k) w m (m.setWord t k w)
  := by
  obtain ⟨hd, hnodup⟩ := Multiset.nodup_cons.mp hp.nodup_right
  have hne : d ≠ t := by
    rintro rfl
    apply hd
    exact mem_held.mpr ⟨j, ht⟩
  have htable : (m.setWord t k w).table d = m.table d := by
    apply Memory.table_congr
    apply update_of_ne hne
  refine ⟨htable, ?_, ?_⟩
  · funext ⟨i, k'⟩
    cases hi : m.table d i with
    | none =>
      have hne' : (i, k') ≠ (j, k) := by
        intro h
        rw [(Prod.mk.inj h).1, ht] at hi
        cases hi
      have hentry : m.entry d (i, k') = 0 := Memory.entry_of_none hi
      rw [update_of_ne hne', hentry]
      apply Memory.entry_of_none
      rw [htable]
      apply hi
    | some t' =>
      rw [Memory.entry_eq (htable ▸ hi)]
      rcases eq_or_ne i j with rfl | hij
      · obtain rfl : t = t' := by
          rw [ht] at hi
          cases hi
          rfl
        rcases eq_or_ne k' k with rfl | hk
        · simp [Memory.setWord, Memory.setPage]
        · rw [update_of_ne fun h => hk (Prod.mk.inj h).2, Memory.entry_eq hi]
          simp [Memory.setWord, Memory.setPage, hk]
      · have ht' : t' ≠ t := by
          rintro rfl
          apply hij (eq_of_nodup_held hnodup hi ht)
        rw [update_of_ne fun h => hij (Prod.mk.inj h).1, Memory.entry_eq hi]
        simp [Memory.setWord, Memory.setPage, ht']
  · rw [Memory.tree_congr htable]
    apply Trade.setPage
    apply Memory.mem_tree_of_table ht

/-- One page is mapped in the page tables of `d`. -/
structure MapsPage (d va : Nat) (w : UInt32) (m m' : Memory) : Prop where
  table : ∃ t, m'.table d = Function.update (m.table d) (pdx va) (some t)
  entry : m'.entry d = Function.update (m.entry d) (.ofVa va) w
  trade : Trade (m.tree d) m (m'.tree d) m'

theorem mapPage_spec
    (hp : Pool L m (m.tree d)) (hnot : isP (m.entry d (.ofVa va)) = false) (pa perm : Nat) :
  Wp NoFault (mapPage d va pa perm)
    (fun ok m' => match ok with
      | false => m' = m ∧ m.freelist = [] ∧ m.table d (pdx va) = none
      | true => MapsPage d va (mkPte pa perm) m m') m
  := by
  rw [mapPage]
  apply (walkpgdir_spec hp va).bind
  rintro (_ | ⟨t, k⟩) m' hm'
  · apply hm'
  · obtain ⟨rfl, hadd⟩ := hm'
    have ht : m'.table d (pdx va) = some t := by
      rw [hadd.table, update_self]
    have hentry : m'.page t (ptx va) = m.entry d (.ofVa va) := by
      rw [← hadd.entry]
      exact (Memory.entry_eq ht _).symm
    have hset := SetsEntry.setWord (hp.trade hadd.trade) ht (ptx va) (mkPte pa perm)
    simp only [wp_bind, wp_get, hentry, hnot, Bool.false_eq_true, if_false, wp_pure, wp_modify]
    constructor
    · use t
      rw [hset.table, hadd.table]
    · rw [hset.entry, hadd.entry]
      rfl
    · apply hadd.trade.trans hset.trade

/-- Some of the pages from `v` to `v + n` are mapped in the page tables of `d`. -/
structure MapsSome (d v n : Nat) (m m' : Memory) : Prop where
  mono : ∀ j, (m.table d j).isSome → (m'.table d j).isSome
  sub : ∀ j, (m'.table d j).isSome →
    (m.table d j).isSome ∨ v / 1024 ≤ j.val ∧ j.val ≤ (v + n) / 1024
  outside : ∀ e : Entry, ¬ (v ≤ e.vpn ∧ e.vpn ≤ v + n) → m'.entry d e = m.entry d e
  trade : Trade (m.tree d) m (m'.tree d) m'

/-- The pages from `v` to `v + n` are mapped to those from `q` on. -/
structure MapsAll (d perm v n q : Nat) (m m' : Memory) : Prop extends MapsSome d v n m m' where
  tables : ∀ j : Fin 1024, v / 1024 ≤ j.val → j.val ≤ (v + n) / 1024 → (m'.table d j).isSome
  inside : ∀ e : Entry, v ≤ e.vpn → e.vpn ≤ v + n →
    m'.entry d e = mkPte (PGSIZE * (q + (e.vpn - v))) perm

/-- The mapping stopped because a page table was missing and no page was free. -/
structure MapsPart (d v n : Nat) (m m' : Memory) : Prop extends MapsSome d v n m m' where
  freelist : m'.freelist = []
  missing : ∃ j : Fin 1024, v / 1024 ≤ j.val ∧ j.val ≤ (v + n) / 1024 ∧ m'.table d j = none

section

variable {v n q perm : Nat}

theorem MapsPage.mapsAll
    (hv : v < 2 ^ 20) (h : MapsPage d (PGSIZE * v) (mkPte (PGSIZE * q) perm) m m') :
  MapsAll d perm v 0 q m m'
  := by
  obtain ⟨t, ht⟩ := h.table
  have hpdx := Entry.pdx_val hv
  constructor
  · constructor
    · intro j hj
      rw [ht, update_apply]
      split
      · rfl
      · apply hj
    · intro j hj
      rw [ht, update_apply] at hj
      split at hj
      · subst_vars
        right
        omega
      · exact .inl hj
    · intro e he
      rw [h.entry, update_of_ne]
      rw [ne_eq, Entry.ofVa_eq_iff hv]
      omega
    · apply h.trade
  · intro j hle hge
    obtain rfl : j = pdx (PGSIZE * v) := by
      apply Fin.ext
      omega
    rw [ht, update_self]
    rfl
  · intro e hle hge
    obtain rfl : e = .ofVa (PGSIZE * v) := by
      rw [Entry.ofVa_eq_iff hv]
      omega
    rw [h.entry, update_self, Entry.vpn_ofVa hv, Nat.sub_self, Nat.add_zero]

theorem MapsPart.of_empty
    (hv : v < 2 ^ 20) (hfree : m.freelist = []) (hnone : m.table d (pdx (PGSIZE * v)) = none) :
  MapsPart d v n m m
  := by
  have hpdx := Entry.pdx_val hv
  constructor
  · exact ⟨fun _ h => h, fun _ h => .inl h, fun _ _ => rfl, .refl _ _⟩
  · apply hfree
  · use pdx (PGSIZE * v)
    refine ⟨?_, ?_, hnone⟩
    · omega
    · rw [hpdx]
      apply Nat.div_le_div_right
      omega

theorem MapsSome.cons
    (h : MapsSome d v 0 m m') (h' : MapsSome d (v + 1) n m' m'') :
  MapsSome d v (n + 1) m m''
  := by
  constructor
  · intro j hj
    apply h'.mono j (h.mono j hj)
  · intro j hj
    rcases h'.sub j hj with hj | hj
    · rcases h.sub j hj with hj | hj
      · exact .inl hj
      · right
        omega
    · right
      omega
  · intro e he
    rw [h'.outside e (by omega), h.outside e (by omega)]
  · apply h.trade.trans h'.trade

theorem MapsAll.cons
    (h : MapsAll d perm v 0 q m m') (h' : MapsAll d perm (v + 1) n (q + 1) m' m'') :
  MapsAll d perm v (n + 1) q m m''
  := by
  constructor
  · apply h.toMapsSome.cons h'.toMapsSome
  · intro j hle hge
    rcases Nat.lt_or_ge j.val ((v + 1) / 1024) with hlt | hle'
    · apply h'.mono
      apply h.tables j hle
      omega
    · apply h'.tables j hle'
      omega
  · intro e hle hge
    rcases Nat.eq_or_lt_of_le hle with heq | hlt
    · rw [h'.outside e (by omega), h.inside e hle (by omega)]
    · rw [h'.inside e hlt (by omega)]
      congr 2
      omega

theorem MapsPart.cons
    (h : MapsAll d perm v 0 q m m') (h' : MapsPart d (v + 1) n m' m'') :
  MapsPart d v (n + 1) m m''
  := by
  constructor
  · apply h.toMapsSome.cons h'.toMapsSome
  · apply h'.freelist
  · obtain ⟨j, hle, hge, hj⟩ := h'.missing
    use j
    refine ⟨?_, ?_, hj⟩
    · omega
    · omega

theorem isP_first
    (hv : v + n < 2 ^ 20)
    (hnot : ∀ e : Entry, v ≤ e.vpn → e.vpn ≤ v + n → isP (m.entry d e) = false) :
  isP (m.entry d (.ofVa (PGSIZE * v))) = false
  := by
  have := Entry.vpn_ofVa (show v < 2 ^ 20 by omega)
  apply hnot
  · omega
  · omega

/-- The loop of `mappages` maps all pages, or it runs out of free pages. -/
theorem mapLoop_spec
    (hp : Pool L m (m.tree d)) (hv : v + n < 2 ^ 20)
    (hnot : ∀ e : Entry, v ≤ e.vpn → e.vpn ≤ v + n → isP (m.entry d e) = false) :
  Wp NoFault (mapLoop d perm n (PGSIZE * v) (PGSIZE * q))
    (fun ok m' => match ok with
      | false => MapsPart d v n m m'
      | true => MapsAll d perm v n q m m') m
  := by
  induction n generalizing v q m with
  | zero =>
    have hhead := isP_first hv hnot
    apply (mapPage_spec hp hhead _ perm).mono
    rintro (_ | _) m' hm'
    · obtain ⟨rfl, hfree, hnone⟩ := hm'
      apply MapsPart.of_empty hv hfree hnone
    · apply hm'.mapsAll hv
  | succ n ih =>
    have hhead := isP_first hv hnot
    rw [mapLoop]
    apply (mapPage_spec hp hhead _ perm).bind
    rintro (_ | _) m' hm'
    · obtain ⟨rfl, hfree, hnone⟩ := hm'
      apply MapsPart.of_empty (by omega) hfree hnone
    · have hall := hm'.mapsAll (show v < 2 ^ 20 by omega)
      have hnot' : ∀ e : Entry, v + 1 ≤ e.vpn → e.vpn ≤ v + 1 + n →
          isP (m'.entry d e) = false := by
        intro e hle hge
        rw [hall.outside e (by omega)]
        apply hnot e (by omega) (by omega)
      rw [if_pos rfl, ← Nat.mul_succ, ← Nat.mul_succ]
      apply (ih (hp.trade hall.trade) (by omega) hnot').mono
      rintro (_ | _) m'' hm''
      · apply MapsPart.cons hall hm''
      · apply hall.cons hm''

end

end Xv6.Vm
