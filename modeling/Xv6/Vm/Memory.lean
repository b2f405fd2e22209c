import Xv6.Lib.Hoare
import Xv6.Lib.Holdings

/-!
# Physical memory

The allocator of physical pages of `kalloc.c`.  A page is known by its number: the page `f` is at
the physical address `PGSIZE * f`.  The kernel reaches it at `P2V(PGSIZE * f)`, so the conversions
between the two kinds of addresses do not show here.

A computation on the memory trades pages with the free list.  `Trade A m A' m'` says that a
computation that held the pages `A` in `m` holds the pages `A'` in `m'`, that none was lost or
made up, and that it changed no page but those.
-/

namespace Xv6.Vm

/-- `PGSIZE`, the size of a page in bytes. -/
abbrev PGSIZE : Nat := 4096

/-- `EXTMEM`, the start of the extended memory. -/
abbrev EXTMEM : Nat := 0x100000

/-- `PHYSTOP`, the top of the physical memory. -/
abbrev PHYSTOP : Nat := 0xE000000

/-- `DEVSPACE`, where the other devices are. -/
abbrev DEVSPACE : Nat := 0xFE000000

/-- `KERNBASE`, the first kernel address. -/
abbrev KERNBASE : Nat := 0x80000000

/-- The physical addresses that the linker decides: of `data` and of `end`, here `kend`.  The first
page table of the kernel maps 4 Mbyte only, so the kernel ends below that. -/
structure Layout where
  data : Nat
  kend : Nat
  data_dvd : PGSIZE ∣ data
  lt_data : EXTMEM < data
  data_le : data ≤ kend
  kend_le : kend ≤ 4 * 1024 * 1024

/-- How the kernel stops: it panics, or it follows a null pointer. -/
inductive Fault where
  | panic (msg : String)
  | nullDeref
  deriving DecidableEq, Repr

instance instNeZeroWords : NeZero 1024 := ⟨by decide⟩

/-- The contents of a page: its words. -/
abbrev Page : Type := Fin 1024 → UInt32

/-- `memset` of a page. -/
def Page.fill (c : UInt8) : Page :=
  fun _ => 0x01010101 * c.toUInt32

/-- The physical memory, and `kmem.freelist` as the list of its pages.  The code keeps no record
of the pages that were given to `kfree` while they were free; here `refreed` does. -/
structure Memory where
  page : Nat → Page
  freelist : List Nat
  refreed : List Nat

/-- A computation on the memory. -/
abbrev Mem (α : Type) : Type := StateT Memory (Except Fault) α

namespace Memory

/-- Overwrite a page. -/
def setPage (m : Memory) (f : Nat) (c : Page) : Memory :=
  { m with page := Function.update m.page f c }

/-- Store a word in a page. -/
def setWord (m : Memory) (f : Nat) (k : Fin 1024) (w : UInt32) : Memory :=
  m.setPage f (Function.update (m.page f) k w)

/-- A page is put on the free list: it is filled with junk, and its first word links to the page
that was first so far. -/
def free (m : Memory) (f : Nat) : Memory where
  page := Function.update m.page f (Function.update (Page.fill 1) 0
    (m.freelist.head?.elim 0 fun g => .ofNat (KERNBASE + PGSIZE * g)))
  freelist := f :: m.freelist
  refreed := if f ∈ m.freelist then f :: m.refreed else m.refreed

end Memory

/-- The pages that the kernel may give out. -/
def Layout.InRange (L : Layout) (f : Nat) : Prop :=
  L.kend ≤ PGSIZE * f ∧ PGSIZE * f < PHYSTOP

instance (L : Layout) (f : Nat) : Decidable (L.InRange f) :=
  inferInstanceAs (Decidable (_ ∧ _))

/-- `kalloc`; `none` is the null pointer. -/
def kalloc : Mem (Option Nat) := do
  match (← get).freelist with
  | [] => return none
  | f :: l =>
    modify fun m => { m with freelist := l }
    return some f

/-- `kfree` -/
def kfree (L : Layout) (f : Nat) : Mem Unit := do
  if ¬ L.InRange f then
    throw (.panic "kfree")
  modify (·.free f)

/-- `freerange` of the pages of `[vstart, vend)`. -/
def freerange (L : Layout) (vstart vend : Nat) : Mem Unit :=
  (List.range' ((vstart + PGSIZE - 1) / PGSIZE)
    (vend / PGSIZE - (vstart + PGSIZE - 1) / PGSIZE)).forM (kfree L)

variable {L : Layout} {m m' m'' : Memory} {A A' A'' B : Multiset Nat} {f : Nat}

/-! ### Trading pages -/

/-- A computation that held the pages `A` in `m` holds the pages `A'` in `m'`. -/
structure Trade (A : Multiset Nat) (m : Memory) (A' : Multiset Nat) (m' : Memory) : Prop where
  balance : ↑m'.freelist + A' = ↑m.freelist + A
  same : ∀ f, f ∉ m.freelist → f ∉ A → m'.page f = m.page f
  refreed : m'.refreed = m.refreed

/-- The pages on the free list and the pages `A` are distinct and may be given out. -/
structure Pool (L : Layout) (m : Memory) (A : Multiset Nat) : Prop where
  nodup : (↑m.freelist + A).Nodup
  range : ∀ f ∈ ↑m.freelist + A, L.InRange f

namespace Trade

theorem refl (A : Multiset Nat) (m : Memory) :
  Trade A m A m
  := ⟨rfl, fun _ _ _ => rfl, rfl⟩

section

variable (h : Trade A m A' m')

include h

theorem mem_iff :
  f ∈ m'.freelist ∨ f ∈ A' ↔ f ∈ m.freelist ∨ f ∈ A
  := by
  have := congrArg (f ∈ ·) h.balance
  simpa only [Multiset.mem_add, Multiset.mem_coe, eq_iff_iff] using this

theorem trans (h' : Trade A' m' A'' m'') :
  Trade A m A'' m''
  := by
  constructor
  · rw [h'.balance, h.balance]
  · intro f hf hA
    have hnot : ¬ (f ∈ m'.freelist ∨ f ∈ A') := by
      rw [h.mem_iff]
      exact not_or.mpr ⟨hf, hA⟩
    obtain ⟨hf', hA'⟩ := not_or.mp hnot
    rw [h'.same f hf' hA', h.same f hf hA]
  · rw [h'.refreed, h.refreed]

/-- Pages that the computation does not use may be held along with its own. -/
theorem frame (B : Multiset Nat) :
  Trade (A + B) m (A' + B) m'
  := by
  constructor
  · rw [← add_assoc, h.balance, add_assoc]
  · intro f hf hA
    apply h.same f hf
    intro hmem
    apply hA
    apply Multiset.mem_add.mpr
    exact .inl hmem
  · apply h.refreed

theorem frame_left (B : Multiset Nat) :
  Trade (B + A) m (B + A') m'
  := by
  rw [add_comm B, add_comm B]
  apply h.frame

theorem cons (f : Nat) :
  Trade (f ::ₘ A) m (f ::ₘ A') m'
  := by
  rw [← Multiset.singleton_add, ← Multiset.singleton_add]
  apply h.frame_left

end

end Trade

namespace Pool

theorem trade (hp : Pool L m A) (h : Trade A m A' m') :
  Pool L m' A'
  := by
  constructor
  · rw [h.balance]
    apply hp.nodup
  · rw [h.balance]
    apply hp.range

theorem of_le (hp : Pool L m A) (hle : B ≤ A) :
  Pool L m B
  := by
  constructor
  · apply Multiset.nodup_of_le _ hp.nodup
    apply Multiset.add_le_add_left hle
  · intro f hf
    apply hp.range
    rw [Multiset.mem_add] at hf ⊢
    exact hf.imp_right fun h => Multiset.mem_of_le hle h

theorem left (hp : Pool L m (A + B)) :
  Pool L m A
  := hp.of_le (Multiset.le_add_right A B)

theorem right (hp : Pool L m (A + B)) :
  Pool L m B
  := hp.of_le (Multiset.le_add_left B A)

theorem nodup_right (hp : Pool L m A) :
  A.Nodup
  := Multiset.nodup_of_le (Multiset.le_add_left _ _) hp.nodup

theorem notMem_freelist (hp : Pool L m A) (hf : f ∈ A) :
  f ∉ m.freelist
  := by
  intro hmem
  apply Multiset.disjoint_left.mp (Multiset.nodup_add.mp hp.nodup).2.2 _ hf
  exact hmem

/-- Pages held apart from those that a computation uses keep their contents. -/
theorem same_of_mem (hp : Pool L m (A + B)) (h : Trade A m A' m') (hf : f ∈ B) :
  m'.page f = m.page f
  := by
  apply h.same
  · apply hp.right.notMem_freelist hf
  · intro hA
    apply Multiset.disjoint_left.mp (Multiset.nodup_add.mp hp.nodup_right).2.2 hA hf

theorem inRange (hp : Pool L m A) (hf : f ∈ A) :
  L.InRange f
  := hp.range f (Multiset.mem_add.mpr (.inr hf))

end Pool

theorem Layout.InRange.lt (h : L.InRange f) :
  f < 2 ^ 20
  := by
  have := h.2
  simp only [PGSIZE, PHYSTOP] at this
  omega

theorem Layout.InRange.ne_zero (h : L.InRange f) :
  f ≠ 0
  := by
  rintro rfl
  have := h.1
  have := L.lt_data
  have := L.data_le
  omega

/-! ### `kalloc` and `kfree` -/

variable {E : Fault → Prop}

theorem wp_kalloc {Q : Option Nat → Memory → Prop} :
  Wp E kalloc Q m ↔
    (m.freelist = [] → Q none m) ∧
      ∀ f l, m.freelist = f :: l → Q (some f) { m with freelist := l }
  := by
  simp only [kalloc, wp_bind, wp_get]
  split
  · rename_i h
    simp [h]
  · rename_i f l h
    rw [wp_bind, wp_modify, wp_pure]
    simp [h]

theorem Trade.kalloc {l : List Nat} (h : m.freelist = f :: l) :
  Trade 0 m {f} { m with freelist := l }
  := by
  constructor
  · rw [h, add_zero, ← Multiset.cons_coe, ← Multiset.singleton_add, add_comm]
  · intro _ _ _
    rfl
  · rfl

theorem wp_kfree {Q : Unit → Memory → Prop} (hf : L.InRange f) :
  Wp E (kfree L f) Q m ↔ Q () (m.free f)
  := by
  simp only [kfree, not_not.mpr hf, if_false, wp_modify]

theorem Trade.kfree (hf : f ∉ m.freelist) :
  Trade {f} m 0 (m.free f)
  := by
  constructor
  · simp only [Memory.free]
    rw [add_zero, ← Multiset.cons_coe, ← Multiset.singleton_add, add_comm]
  · intro g _ hg
    apply Function.update_of_ne
    rintro rfl
    apply hg (Multiset.mem_singleton_self _)
  · exact if_neg hf

/-- Overwriting a page that is held. -/
theorem Trade.setPage {c : Page} (hf : f ∈ A) :
  Trade A m A (m.setPage f c)
  := by
  constructor
  · rfl
  · intro g _ hg
    apply Function.update_of_ne
    rintro rfl
    apply hg hf
  · rfl

/-- Freeing pages that are held. -/
theorem wp_kfree_of_mem
    {Q : Unit → Memory → Prop} (hp : Pool L m (f ::ₘ A))
    (hQ : Trade (f ::ₘ A) m A (m.free f) → Q () (m.free f)) :
  Wp E (kfree L f) Q m
  := by
  have hf := Multiset.mem_cons_self f A
  apply (wp_kfree (hp.inRange hf)).mpr
  apply hQ
  have h := (Trade.kfree (hp.notMem_freelist hf)).frame A
  rw [zero_add, Multiset.singleton_add] at h
  apply h

end Xv6.Vm
