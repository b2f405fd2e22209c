import Mathlib.Data.List.TakeWhile
import Mathlib.Tactic.Abel
import Xv6.Lib.LinkedQueue
import Xv6.Umalloc.Blocks

/-!
# The free list

The free list is a circle through `base` and the free blocks in the order of their addresses.  The
loop of `free` finds the place of a block in it, and `free` inserts the block there.
-/

namespace Xv6.Umalloc

open Function

/-! ### Headers -/

namespace Heap

variable (h : Heap) (p x : Nat)

/-- The links of the list. -/
def next (a : Nat) : Option Nat :=
  some (h.ptr a)

theorem next_setPtr : (h.setPtr p x).next = update h.next p (some x)
  := by
  funext a
  by_cases ha : a = p
  · subst ha
    simp [next, ptr, setPtr]
  · simp [next, ptr, setPtr, ha]

@[simp]
theorem next_setSize : (h.setSize p x).next = h.next
  := by
  funext a
  by_cases ha : a = p
  · subst ha
    simp [next, ptr, setSize]
  · simp [next, ptr, setSize, ha]

@[simp]
theorem next_setFreep : (h.setFreep p).next = h.next
  := rfl

@[simp]
theorem size_setPtr : (h.setPtr p x).size = h.size
  := by
  funext a
  by_cases ha : a = p
  · subst ha
    simp [size, setPtr]
  · simp [size, setPtr, ha]

theorem size_setSize : (h.setSize p x).size = update h.size p x
  := by
  funext a
  by_cases ha : a = p
  · subst ha
    simp [size, setSize]
  · simp [size, setSize, ha]

@[simp]
theorem size_setFreep : (h.setFreep p).size = h.size
  := rfl

@[simp]
theorem freep_setFreep : (h.setFreep p).freep = p
  := rfl

variable {h}

theorem ptr_eq_of_next {k : Nat} (hk : h.next p = some k) : h.ptr p = k
  := Option.some.inj hk

end Heap

/-! ### Searching the place of a block -/

section

variable {h : Heap} {bp p x : Nat}

/-- The search passes over blocks below `bp` up to `p`. -/
theorem findPlace_below
    {xs : List Nat} {k : Option Nat} {n : Nat} (hseg : Seg h.next (some x) (xs ++ [p]) k)
    (hsorted : (xs ++ [p]).Pairwise (· < ·)) (hlt : ∀ q ∈ xs ++ [p], q < bp)
    (hstop : bp < h.ptr p ∨ h.ptr p ≤ p) (hn : xs.length < n) :
  h.findPlace bp n x = some p
  := by
  induction xs generalizing x n with
  | nil =>
    obtain ⟨n, rfl⟩ := Nat.exists_eq_succ_of_ne_zero (Nat.ne_zero_of_lt hn)
    obtain ⟨hx, -⟩ := hseg
    cases hx
    have hp := hlt p List.mem_cons_self
    rw [Heap.findPlace]
    obtain hp' | hp' := hstop
    · rw [if_pos ⟨hp, hp'⟩]
    · rw [if_neg (by omega), if_pos ⟨hp', .inl hp⟩]
  | cons q xs ih =>
    obtain ⟨n, rfl⟩ := Nat.exists_eq_succ_of_ne_zero (Nat.ne_zero_of_lt hn)
    obtain ⟨hx, hseg⟩ := hseg
    cases hx
    obtain ⟨hq, hsorted⟩ := List.pairwise_cons.mp hsorted
    have hnext : h.ptr q ∈ xs ++ [p] := by
      cases hxs : xs ++ [p] with
      | nil => simp at hxs
      | cons y ys =>
        have hy : h.next q = some y := (hxs ▸ hseg : Seg h.next (h.next q) (y :: ys) k).1
        rw [h.ptr_eq_of_next q hy]
        exact List.mem_cons_self
    have hgt := hq _ hnext
    have hle := hlt _ (List.mem_cons_of_mem _ hnext)
    rw [Heap.findPlace, if_neg (by omega), if_neg (by omega)]
    apply ih hseg hsorted
    · exact fun q hq => hlt q (List.mem_cons_of_mem _ hq)
    · exact Nat.lt_of_succ_lt_succ hn

/-- The search passes over blocks above `bp` to `base`. -/
theorem findPlace_above
    {base : Nat} {ys : List Nat} {n : Nat} (hseg : Seg h.next (some x) ys (some base))
    (hsorted : ys.Pairwise (· < ·)) (hgt : ∀ q ∈ ys, bp < q) (hbase : base < bp) :
  h.findPlace bp (n + ys.length) x = h.findPlace bp n base
  := by
  induction ys generalizing x with
  | nil =>
    cases hseg
    rfl
  | cons q ys ih =>
    obtain ⟨hx, hseg⟩ := hseg
    cases hx
    obtain ⟨hq, hsorted⟩ := List.pairwise_cons.mp hsorted
    have hbq := hgt q List.mem_cons_self
    have hnext : h.ptr q = base ∨ q < h.ptr q := by
      cases ys with
      | nil => exact .inl (h.ptr_eq_of_next q hseg)
      | cons y ys =>
        obtain ⟨hy, -⟩ := hseg
        rw [h.ptr_eq_of_next q hy]
        exact .inr (hq y List.mem_cons_self)
    rw [List.length_cons, ← Nat.add_assoc, Heap.findPlace, if_neg (by omega), if_neg (by omega)]
    exact ih hseg hsorted fun q hq => hgt q (List.mem_cons_of_mem _ hq)

end

/-! ### The list -/

/-- The addresses of blocks. -/
abbrev starts (bs : List Block) : List Nat :=
  bs.map Block.start

/-- The circle through `base` has the free blocks `bs`. -/
structure FreeList (base : Nat) (h : Heap) (bs : List Block) : Prop where
  ring : Seg h.next (some base) (base :: starts bs) (some base)
  sizes : ∀ b ∈ bs, h.size b.start = b.size
  base_size : h.size base = 0
  gapped : Gapped bs
  above : ∀ b ∈ bs, base + HSIZE ≤ b.start
  pos : ∀ b ∈ bs, 0 < b.size
  freep : h.freep ∈ base :: starts bs

variable {base : Nat} {h h' : Heap} {bs : List Block}

theorem Gapped.sorted (h : Gapped bs) : (starts bs).Pairwise (· < ·)
  := by
  apply List.pairwise_map.mpr
  apply h.imp
  intro b c hbc
  simp only [Block.stop] at hbc
  omega

theorem FreeList.sorted (hl : FreeList base h bs) : (base :: starts bs).Pairwise (· < ·)
  := by
  apply List.pairwise_cons.mpr
  use ?_, hl.gapped.sorted
  intro a ha
  obtain ⟨b, hb, rfl⟩ := List.mem_map.mp ha
  have := hl.above b hb
  simp only [HSIZE] at this
  omega

/-- The blocks below an address, and those above. -/
theorem Gapped.split (h : Gapped bs) (a : Nat) (ha : a ∉ starts bs) :
  ∃ lower upper, bs = lower ++ upper ∧ (∀ b ∈ lower, b.start < a) ∧ ∀ b ∈ upper, a < b.start
  := by
  use bs.takeWhile (fun b => decide (b.start < a)), bs.dropWhile (fun b => decide (b.start < a))
  use (List.takeWhile_append_dropWhile ..).symm
  constructor
  · intro b hb
    have := List.mem_takeWhile_imp hb
    exact of_decide_eq_true this
  · intro b hb
    have hsub := List.dropWhile_suffix (l := bs) fun b => decide (b.start < a)
    have hgap : Gapped (bs.dropWhile fun b => decide (b.start < a)) :=
      List.Pairwise.sublist hsub.sublist h
    have hhead := List.head?_dropWhile_not (fun b : Block => decide (b.start < a)) bs
    have hne : b.start ≠ a := by
      rintro rfl
      exact ha (List.mem_map_of_mem (hsub.subset hb))
    generalize bs.dropWhile (fun b => decide (b.start < a)) = upper at *
    cases upper with
    | nil => cases hb
    | cons c upper =>
      have hc : a ≤ c.start := Nat.not_lt.mp (of_decide_eq_false hhead)
      obtain rfl | hb := List.mem_cons.mp hb
      · omega
      · have := List.pairwise_cons.mp hgap
        have := this.1 b hb
        simp only [Block.stop] at this
        omega

/-! ### Inserting a block -/

/-- What `free` has done with the blocks `upper` above the block `b`. -/
structure Upper (base : Nat) (h h' : Heap) (b : Block) (upper : List Block) (b' : Block)
    (upper' : List Block) : Prop where
  start : b'.start = b.start
  ring : Seg h'.next (some b.start) (b.start :: starts upper') (some base)
  next : ∀ a, a ≠ b.start → h'.next a = h.next a
  size : h'.size = Function.update h.size b.start b'.size
  gapped : Gapped (b' :: upper')
  total : total (b' :: upper') = total (b :: upper)
  subset : upper' ⊆ upper
  le : b.size ≤ b'.size
  brk : h'.brk = h.brk

/-- The block links to the blocks above it. -/
theorem upper_link
    {b : Block} {upper : List Block} {q : Nat}
    (hseg : Seg h.next (some q) (starts upper) (some base))
    (hb : b.start ∉ starts upper) (hsize : h.size b.start = b.size) (hgap : Gapped (b :: upper)) :
  Upper base h (h.setPtr b.start q) b upper b upper
  := by
  constructor
  · rfl
  · use rfl
    rw [h.next_setPtr, update_self]
    exact hseg.update_of_notMem hb _
  · intro a ha
    rw [h.next_setPtr, update_of_ne ha]
  · rw [Heap.size_setPtr, ← hsize, update_eq_self]
  · exact hgap
  · rfl
  · exact fun _ => id
  · exact le_rfl
  · rfl

theorem joinUpper_spec
    {b : Block} {upper : List Block} {p : Nat} (hseg : Seg h.next (some (h.ptr p)) (starts upper)
      (some base)) (hbase : base < b.start) (hb : b.start ∉ starts upper)
    (hsize : h.size b.start = b.size) (hsizes : ∀ c ∈ upper, h.size c.start = c.size)
    (hgap : Gapped upper) (hstop : ∀ c ∈ upper, b.stop ≤ c.start) :
  ∃ b' upper', Upper base h (h.joinUpper b.start p) b upper b' upper'
  := by
  rw [Heap.joinUpper, hsize]
  cases upper with
  | nil =>
    obtain hp : h.ptr p = base := Option.some.inj hseg
    rw [if_neg (by omega)]
    exact ⟨b, [], upper_link hseg hb hsize (List.pairwise_singleton _ _)⟩
  | cons c upper =>
    have hp := Option.some.inj hseg.1
    have hgap' := List.pairwise_cons.mp hgap
    by_cases hadj : b.start + HSIZE * b.size = c.start
    · rw [hp, if_pos hadj, hsizes c List.mem_cons_self]
      use ⟨b.start, b.size + c.size⟩, upper
      constructor
      · rfl
      · use rfl
        rw [Heap.next_setPtr, update_self, Heap.next_setSize]
        exact hseg.2.update_of_notMem (fun hmem => hb (List.mem_cons_of_mem _ hmem)) _
      · intro a ha
        rw [Heap.next_setPtr, update_of_ne ha, Heap.next_setSize]
      · rw [Heap.size_setPtr, Heap.size_setSize]
      · apply List.pairwise_cons.mpr
        use ?_, hgap'.2
        intro d hd
        have := hgap'.1 d hd
        simp only [Block.stop] at this ⊢
        rw [Nat.mul_add]
        omega
      · rw [total_cons, total_cons, total_cons, Block.bytes_join, hadj, add_assoc]
      · exact List.subset_cons_self ..
      · exact Nat.le_add_right ..
      · rfl
    · rw [hp, if_neg hadj, ← hp]
      use b, c :: upper
      apply upper_link hseg hb hsize
      apply List.pairwise_cons.mpr
      use ?_, hgap
      intro d hd
      have hlt : b.stop < c.start := lt_of_le_of_ne (hstop c List.mem_cons_self) hadj
      obtain rfl | hd := List.mem_cons.mp hd
      · exact hlt
      · have := hgap'.1 d hd
        simp only [Block.stop] at this hlt ⊢
        omega

/-- What `free` has done with the list when it returns. -/
structure Inserted (base : Nat) (h h' : Heap) (bs : List Block) (b : Block) (bs' : List Block) :
    Prop where
  list : FreeList base h' bs'
  total : total bs' = total bs + b.bytes
  size : ∀ a, a ≠ b.start → a ∉ starts bs → h'.size a = h.size a
  big : ∃ c ∈ bs', b.size ≤ c.size
  brk : h'.brk = h.brk

section

variable {b b' : Block} {upper upper' : List Block}

/-- The place of the block is behind `base`. -/
theorem joinLower_base
    (hl : FreeList base h upper) (hu : Upper base h h' b upper b' upper')
    (hb : base + HSIZE ≤ b.start) (hpos : 0 < b.size) :
  Inserted base h ((h'.joinLower b.start base).setFreep base) upper b (b' :: upper')
  := by
  have hne : base ≠ b.start := by
    simp only [HSIZE] at hb
    omega
  have hnot : base ∉ b.start :: starts upper' := by
    intro hmem
    obtain hmem | hmem := List.mem_cons.mp hmem
    · exact hne hmem
    · obtain ⟨c, hc, hcb⟩ := List.mem_map.mp hmem
      have := hl.above c (hu.subset hc)
      simp only [HSIZE] at this
      omega
  have hsize : h'.size base = 0 := by
    rw [hu.size, update_of_ne hne, hl.base_size]
  have hjoin : h'.joinLower b.start base = h'.setPtr base b.start := by
    rw [Heap.joinLower, hsize, if_neg (by simpa using hne)]
  rw [hjoin]
  constructor
  · constructor
    · rw [Heap.next_setFreep, Heap.next_setPtr, starts, List.map_cons, hu.start]
      use rfl
      rw [update_self]
      exact hu.ring.update_of_notMem hnot _
    · intro c hc
      rw [Heap.size_setFreep, Heap.size_setPtr, hu.size]
      obtain rfl | hc := List.mem_cons.mp hc
      · rw [hu.start, update_self]
      · rw [update_of_ne, hl.sizes c (hu.subset hc)]
        have := List.pairwise_cons.mp hu.gapped
        have := this.1 c hc
        rw [Block.stop, hu.start] at this
        omega
    · rw [Heap.size_setFreep, Heap.size_setPtr, hsize]
    · exact hu.gapped
    · intro c hc
      obtain rfl | hc := List.mem_cons.mp hc
      · rw [hu.start]
        exact hb
      · exact hl.above c (hu.subset hc)
    · intro c hc
      obtain rfl | hc := List.mem_cons.mp hc
      · exact hpos.trans_le hu.le
      · exact hl.pos c (hu.subset hc)
    · exact List.mem_cons_self
  · rw [hu.total, total_cons, add_comm]
  · intro a ha _
    rw [Heap.size_setFreep, Heap.size_setPtr, hu.size, update_of_ne ha]
  · exact ⟨b', List.mem_cons_self, hu.le⟩
  · exact hu.brk

variable {a : Block} {lower : List Block}

theorem Gapped.lt_of_append (h : Gapped (lower ++ a :: upper)) :
  (∀ c ∈ lower, c.stop < a.start) ∧ ∀ c ∈ upper, a.stop < c.start
  := by
  obtain ⟨-, h', hlt⟩ := List.pairwise_append.mp h
  exact ⟨fun c hc => hlt c hc a List.mem_cons_self, (List.pairwise_cons.mp h').1⟩

/-- Blocks in order stay so when the ones from a place on are replaced. -/
theorem Gapped.replace
    {mid : List Block} (h : Gapped (lower ++ a :: upper)) (hmid : Gapped mid)
    (hle : ∀ c ∈ mid, a.start ≤ c.start) :
  Gapped (lower ++ mid)
  := by
  apply List.pairwise_append.mpr
  use (List.pairwise_append.mp h).1, hmid
  intro c hc d hd
  exact (h.lt_of_append.1 c hc).trans_le (hle d hd)

namespace Upper

variable (hu : Upper base h h' b upper b' upper')

include hu

theorem size_of_ne {x : Nat} (hx : x ≠ b.start) : h'.size x = h.size x
  := by rw [hu.size, update_of_ne hx]

theorem size_self : h'.size b.start = b'.size
  := by rw [hu.size, update_self]

/-- The blocks above that `free` leaves as they are. -/
theorem of_mem
    (hl : FreeList base h (lower ++ a :: upper))
    (hb : b.start ∉ base :: starts (lower ++ a :: upper)) {c : Block} (hc : c ∈ upper') :
  a.stop < c.start ∧ h'.size c.start = c.size ∧ 0 < c.size
  := by
  have hmem : c ∈ lower ++ a :: upper :=
    List.mem_append_right _ (List.mem_cons_of_mem _ (hu.subset hc))
  refine ⟨hl.gapped.lt_of_append.2 c (hu.subset hc), ?_, hl.pos c hmem⟩
  rw [hu.size_of_ne, hl.sizes c hmem]
  intro he
  apply hb
  rw [← he]
  exact List.mem_cons_of_mem _ (List.mem_map_of_mem hmem)

end Upper

section

variable (hl : FreeList base h (lower ++ a :: upper))

include hl

/-- The blocks from `a` on are replaced, and the memory below `a` stays as it is. -/
theorem FreeList.replace
    {mid : List Block} (hring : Seg h'.next (some base) (base :: starts (lower ++ mid)) (some base))
    (hsize : ∀ x, x < a.start → h'.size x = h.size x) (hgap : Gapped mid)
    (hmid : ∀ c ∈ mid, a.start ≤ c.start ∧ h'.size c.start = c.size ∧ 0 < c.size)
    (hfreep : h'.freep ∈ base :: starts (lower ++ mid)) :
  FreeList base h' (lower ++ mid)
  := by
  have habove := hl.above a (by simp)
  have hlower : ∀ c ∈ lower, c ∈ lower ++ a :: upper ∧ c.start < a.start := by
    intro c hc
    have := hl.gapped.lt_of_append.1 c hc
    rw [Block.stop] at this
    exact ⟨List.mem_append_left _ hc, by omega⟩
  constructor
  · exact hring
  · intro c hc
    obtain hc | hc := List.mem_append.mp hc
    · rw [hsize _ (hlower c hc).2, hl.sizes c (hlower c hc).1]
    · exact (hmid c hc).2.1
  · rw [hsize base (by simp only [HSIZE] at habove; omega), hl.base_size]
  · exact hl.gapped.replace hgap fun c hc => (hmid c hc).1
  · intro c hc
    obtain hc | hc := List.mem_append.mp hc
    · exact hl.above c (hlower c hc).1
    · exact habove.trans (hmid c hc).1
  · intro c hc
    obtain hc | hc := List.mem_append.mp hc
    · exact hl.pos c (hlower c hc).1
    · exact (hmid c hc).2.2
  · exact hfreep

variable (hu : Upper base h h' b upper b' upper')
  (hb : b.start ∉ base :: starts (lower ++ a :: upper))

include hu hb

/-- The links up to the block `a`, when the one of `a` is changed. -/
theorem seg_redirect (k : Option Nat) :
  Seg (update h'.next a.start k) (some base) (base :: starts lower ++ [a.start]) k
  := by
  have hring := hl.ring
  rw [starts, List.map_append, List.map_cons, ← List.cons_append, List.append_cons] at hring
  obtain ⟨m, hm, -⟩ := seg_append.mp hring
  have hsame : Seg h'.next (some base) (base :: starts lower ++ [a.start]) m := by
    apply hm.congr
    intro x hx
    apply hu.next
    rintro rfl
    apply hb
    rw [starts, List.map_append, List.map_cons, ← List.cons_append]
    simp only [List.mem_append, List.mem_cons] at hx ⊢
    tauto
  apply hsame.redirect
  have hsorted := hl.sorted
  rw [starts, List.map_append, List.map_cons, ← List.cons_append, List.pairwise_append] at hsorted
  intro hmem
  exact lt_irrefl _ (hsorted.2.2 _ hmem _ List.mem_cons_self)

/-- The block joins the block before it. -/
theorem joinLower_join (hadj : a.stop = b.start) :
  Inserted base h ((h'.joinLower b.start a.start).setFreep a.start) (lower ++ a :: upper) b
    (lower ++ ⟨a.start, a.size + b'.size⟩ :: upper')
  := by
  have hstart : a.start + HSIZE * a.size = b.start := hadj
  have hapos := hl.pos a (by simp)
  have hab : a.start < b.start := by
    simp only [HSIZE] at hstart
    omega
  have hsize : h'.size a.start = a.size := by
    rw [hu.size_of_ne hab.ne]
    exact hl.sizes a (by simp)
  have hjoin : h'.joinLower b.start a.start
      = (h'.setSize a.start (a.size + b'.size)).setPtr a.start (h'.ptr b.start) := by
    rw [Heap.joinLower, hsize, if_pos hstart, hu.size_self]
  have hsizes : ((h'.joinLower b.start a.start).setFreep a.start).size
      = update h'.size a.start (a.size + b'.size) := by
    rw [hjoin, Heap.size_setFreep, Heap.size_setPtr, Heap.size_setSize]
  have hupper : ∀ c ∈ upper', a.start < c.start := by
    intro c hc
    have := (hu.of_mem hl hb hc).1
    rw [Block.stop] at this
    omega
  constructor
  · apply hl.replace
    · rw [Heap.next_setFreep, hjoin, Heap.next_setPtr, Heap.next_setSize, starts, List.map_append,
        List.map_cons, ← List.cons_append, List.append_cons]
      apply seg_append.mpr
      use h'.next b.start, seg_redirect hl hu hb _
      apply hu.ring.2.update_of_notMem
      intro hx
      obtain ⟨c, hc, hca⟩ := List.mem_map.mp hx
      exact (hupper c hc).ne' hca
    · intro x hx
      rw [hsizes, update_of_ne hx.ne, hu.size_of_ne (hx.trans hab).ne]
    · apply List.pairwise_cons.mpr
      have hgap := List.pairwise_cons.mp hu.gapped
      use ?_, hgap.2
      intro c hc
      have := hgap.1 c hc
      rw [Block.stop, hu.start] at this
      rw [Block.stop, Nat.mul_add]
      dsimp only
      omega
    · intro c hc
      rw [hsizes]
      obtain rfl | hc := List.mem_cons.mp hc
      · exact ⟨le_rfl, update_self .., Nat.add_pos_left hapos _⟩
      · rw [update_of_ne (hupper c hc).ne']
        exact ⟨(hupper c hc).le, (hu.of_mem hl hb hc).2⟩
    · rw [Heap.freep_setFreep]
      simp
  · have htotal := hu.total
    rw [total_cons, total_cons, Block.bytes, hu.start] at htotal
    rw [total_append, total_cons, Block.bytes_join, total_append, total_cons, hstart]
    change total lower + (a.bytes + bytes b.start (HSIZE * b'.size) + total upper') = _
    rw [add_assoc, htotal]
    abel
  · intro x hx hx'
    rw [hsizes, update_of_ne, hu.size_of_ne hx]
    rintro rfl
    apply hx'
    simp
  · refine ⟨_, List.mem_append_right _ List.mem_cons_self, ?_⟩
    exact hu.le.trans (Nat.le_add_left ..)
  · rw [hjoin]
    exact hu.brk

/-- The block before links to the block. -/
theorem joinLower_link (hpos : 0 < b.size) (hadj : a.stop < b.start) :
  Inserted base h ((h'.joinLower b.start a.start).setFreep a.start) (lower ++ a :: upper) b
    (lower ++ a :: b' :: upper')
  := by
  have hle : a.start ≤ a.stop := Nat.le_add_right ..
  have hab : a.start < b.start := hle.trans_lt hadj
  have hsize : h'.size a.start = a.size := by
    rw [hu.size_of_ne hab.ne]
    exact hl.sizes a (by simp)
  have hjoin : h'.joinLower b.start a.start = h'.setPtr a.start b.start := by
    rw [Heap.joinLower, hsize, if_neg (show ¬ a.start + HSIZE * a.size = b.start from hadj.ne)]
  rw [hjoin]
  constructor
  · apply hl.replace
    · rw [Heap.next_setFreep, Heap.next_setPtr, starts, List.map_append, List.map_cons,
        ← List.cons_append, List.append_cons, List.map_cons, hu.start]
      apply seg_append.mpr
      use some b.start, seg_redirect hl hu hb _
      apply hu.ring.update_of_notMem
      intro hx
      obtain hx | hx := List.mem_cons.mp hx
      · exact hab.ne hx
      · obtain ⟨c, hc, hca⟩ := List.mem_map.mp hx
        exact (hle.trans_lt (hu.of_mem hl hb hc).1).ne' hca
    · intro x hx
      rw [Heap.size_setFreep, Heap.size_setPtr, hu.size_of_ne (hx.trans hab).ne]
    · apply List.pairwise_cons.mpr
      use ?_, hu.gapped
      intro c hc
      obtain rfl | hc := List.mem_cons.mp hc
      · rw [hu.start]
        exact hadj
      · exact (hu.of_mem hl hb hc).1
    · intro c hc
      rw [Heap.size_setFreep, Heap.size_setPtr]
      obtain rfl | hc := List.mem_cons.mp hc
      · exact ⟨le_rfl, hsize, hl.pos c (by simp)⟩
      obtain rfl | hc := List.mem_cons.mp hc
      · rw [hu.start, hu.size_self]
        exact ⟨hab.le, rfl, hpos.trans_le hu.le⟩
      · obtain ⟨hgt, hrest⟩ := hu.of_mem hl hb hc
        exact ⟨hle.trans hgt.le, hrest⟩
    · rw [Heap.freep_setFreep]
      simp
  · rw [total_append, total_cons, hu.total, total_append, total_cons, total_cons]
    abel
  · intro x hx _
    rw [Heap.size_setFreep, Heap.size_setPtr, hu.size_of_ne hx]
  · exact ⟨b', by simp, hu.le⟩
  · exact hu.brk

end

end

/-! ### `free` -/

/-- Blocks that are apart and not empty do not start at the same address. -/
theorem Apart.start_ne {b c : Block} (h : Apart b c) (hb : 0 < b.size) (hc : 0 < c.size) :
  b.start ≠ c.start
  := by
  intro he
  apply h b.start
  · simp only [Block.Has, Block.stop, HSIZE]
    omega
  · simp only [Block.Has, Block.stop, HSIZE]
    omega

theorem Apart.stop_le {b c : Block} (h : Apart b c) (hc : 0 < c.size) (hlt : b.start < c.start) :
  b.stop ≤ c.start
  := by
  by_contra hle
  apply h c.start
  · exact ⟨hlt.le, not_le.mp hle⟩
  · simp only [Block.Has, Block.stop, HSIZE]
    omega

/-- The loop of `free` finds the last of the blocks below, or `base`. -/
theorem FreeList.findPlace
    {bp p n : Nat} {init : List Nat} {lower upper : List Block}
    (hl : FreeList base h (lower ++ upper)) (hinit : base :: starts lower = init ++ [p])
    (hbase : base < bp) (hlower : ∀ b ∈ lower, b.start < bp) (hupper : ∀ b ∈ upper, bp < b.start)
    (hn : 2 * (lower ++ upper).length + 2 ≤ n) :
  h.findPlace bp n h.freep = some p ∧ Seg h.next (some (h.ptr p)) (starts upper) (some base)
  := by
  have hring := hl.ring
  have hsorted := hl.sorted
  have hfreep := hl.freep
  rw [starts, List.map_append, ← List.cons_append, hinit] at hring hsorted hfreep
  obtain ⟨m, hseg, hseg'⟩ := seg_append.mp hring
  have hm : m = some (h.ptr p) := by
    obtain ⟨j, -, hj, hm⟩ := seg_append.mp hseg
    exact hm.symm
  subst hm
  obtain ⟨hsorted₁, hsorted₂, -⟩ := List.pairwise_append.mp hsorted
  have hlt : ∀ q ∈ init ++ [p], q < bp := by
    rw [← hinit]
    intro q hq
    obtain rfl | hq := List.mem_cons.mp hq
    · exact hbase
    · obtain ⟨b, hb, rfl⟩ := List.mem_map.mp hq
      exact hlower b hb
  have hgt : ∀ q ∈ upper.map Block.start, bp < q := by
    intro q hq
    obtain ⟨b, hb, rfl⟩ := List.mem_map.mp hq
    exact hupper b hb
  have hstop : bp < h.ptr p ∨ h.ptr p ≤ p := by
    cases upper with
    | nil =>
      right
      rw [Option.some.inj hseg']
      have hp : p ∈ base :: starts lower := by
        rw [hinit]
        simp
      have hsort := hl.sorted
      rw [List.append_nil] at hsort
      obtain rfl | hp := List.mem_cons.mp hp
      · exact le_rfl
      · exact ((List.pairwise_cons.mp hsort).1 p hp).le
    | cons c upper =>
      left
      rw [Option.some.inj hseg'.1]
      exact hgt _ List.mem_cons_self
  have hlen : init.length = lower.length := by
    have := congrArg List.length hinit
    simp at this
    omega
  rw [List.length_append] at hn
  use ?_, hseg'
  obtain hfreep | hfreep := List.mem_append.mp hfreep
  · -- From a block below the place.
    obtain ⟨xs, ys, hsplit⟩ := List.append_of_mem hfreep
    have hlast : (h.freep :: ys).getLast? = some p := by
      have := congrArg List.getLast? hsplit
      simpa using this.symm
    obtain ⟨zs, hzs⟩ := List.getLast?_eq_some_iff.mp hlast
    rw [hsplit] at hseg hsorted₁ hlt
    obtain ⟨j, -, hj⟩ := seg_append.mp hseg
    obtain rfl := hj.1
    have hsuffix := List.suffix_append xs (h.freep :: ys)
    rw [hzs] at hj hsuffix
    have hshort := congrArg List.length hsplit
    have hshort' := congrArg List.length hzs
    simp only [List.length_append, List.length_cons, List.length_nil] at hshort hshort'
    apply findPlace_below hj
    · exact List.Pairwise.sublist hsuffix.sublist (hzs ▸ hsorted₁)
    · exact fun q hq => hlt q (hzs.symm ▸ hsuffix.subset hq)
    · exact hstop
    · omega
  · -- From a block above it, through `base`.
    obtain ⟨xs, ys, hsplit⟩ := List.append_of_mem hfreep
    rw [hsplit] at hseg' hsorted₂ hgt
    obtain ⟨j, -, hj⟩ := seg_append.mp hseg'
    obtain rfl := hj.1
    have hsuffix := List.suffix_append xs (h.freep :: ys)
    have hshort := congrArg List.length hsplit
    simp only [List.length_append, List.length_cons, List.length_map] at hshort
    obtain ⟨m, rfl⟩ : ∃ m, n = m + (h.freep :: ys).length := by
      use n - (h.freep :: ys).length
      simp only [List.length_cons]
      omega
    rw [findPlace_above hj (List.Pairwise.sublist hsuffix.sublist hsorted₂)
      (fun q hq => hgt q (hsuffix.subset hq)) hbase]
    apply findPlace_below hseg hsorted₁ hlt hstop
    simp only [List.length_cons] at hn
    omega

theorem FreeList.free
    {b : Block} {n : Nat} (hl : FreeList base h bs) (hb : base + HSIZE ≤ b.start)
    (hsize : h.size b.start = b.size) (hpos : 0 < b.size) (hapart : ∀ c ∈ bs, Apart b c)
    (hn : 2 * bs.length + 2 ≤ n) :
  ∃ h' bs', h.free n (b.start + HSIZE) = some h' ∧ Inserted base h h' bs b bs'
  := by
  have hbase : base < b.start := by
    simp only [HSIZE] at hb
    omega
  have hnot : b.start ∉ starts bs := by
    intro hmem
    obtain ⟨c, hc, hcb⟩ := List.mem_map.mp hmem
    exact (hapart c hc).start_ne hpos (hl.pos c hc) hcb.symm
  have hnot' : b.start ∉ base :: starts bs := by
    intro hmem
    obtain hmem | hmem := List.mem_cons.mp hmem
    · omega
    · exact hnot hmem
  obtain ⟨lower, upper, rfl, hlower, hupper⟩ := hl.gapped.split b.start hnot
  obtain ⟨init, p, hinit⟩ : ∃ init p, base :: starts lower = init ++ [p] := by
    obtain hnil | hcat := List.eq_nil_or_concat' (base :: starts lower)
    · cases hnil
    · exact hcat
  obtain ⟨hfind, hseg⟩ := hl.findPlace hinit hbase hlower hupper hn
  have hstop : ∀ c ∈ upper, b.stop ≤ c.start := by
    intro c hc
    apply (hapart c (List.mem_append_right _ hc)).stop_le
    · exact hl.pos c (List.mem_append_right _ hc)
    · exact hupper c hc
  have hnotu : b.start ∉ starts upper := by
    intro hmem
    apply hnot
    rw [starts, List.map_append]
    exact List.mem_append_right _ hmem
  obtain ⟨b', upper', hu⟩ := joinUpper_spec hseg hbase hnotu hsize
    (fun c hc => hl.sizes c (List.mem_append_right _ hc)) (List.pairwise_append.mp hl.gapped).2.1
    hstop
  have hfree : h.free n (b.start + HSIZE)
      = some (((h.joinUpper b.start p).joinLower b.start p).setFreep p) := by
    rw [Heap.free, Nat.add_sub_cancel, hfind]
    rfl
  rw [hfree]
  obtain rfl | ⟨lower, a, rfl⟩ := List.eq_nil_or_concat' lower
  · -- The place is behind `base`.
    obtain ⟨rfl, rfl⟩ : init = [] ∧ p = base := by
      cases init with
      | nil => exact ⟨rfl, (List.cons.inj hinit).1.symm⟩
      | cons x init => simp at hinit
    exact ⟨_, _, rfl, joinLower_base hl hu hb hpos⟩
  · obtain rfl : p = a.start := by
      have := congrArg List.getLast? hinit
      rw [starts, List.map_append, ← List.cons_append, List.getLast?_append, List.getLast?_append]
        at this
      simpa using this.symm
    rw [List.append_assoc, List.singleton_append] at hl hnot' ⊢
    have hstop' : a.stop ≤ b.start := by
      apply (hapart a (by simp)).symm.stop_le hpos
      exact hlower a (by simp)
    obtain hadj | hadj := hstop'.eq_or_lt
    · exact ⟨_, _, rfl, joinLower_join hl hu hnot' hadj⟩
    · exact ⟨_, _, rfl, joinLower_link hl hu hnot' hpos hadj⟩

end Xv6.Umalloc
