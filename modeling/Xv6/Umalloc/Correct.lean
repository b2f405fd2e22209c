import Xv6.Umalloc.FreeList

/-!
# The allocator is correct

Every call of a program keeps the free list and the tiling of the memory, and every call returns.
-/

namespace Xv6.Umalloc

open Function

variable {base : Nat} {h h' : Heap} {live arena : List (Nat × Nat)} {bs : List Block}

/-! ### The invariant -/

/-- The blocks that are in use, with the sizes in their headers. -/
def used (h : Heap) (live : List (Nat × Nat)) : List Block :=
  live.map fun b => ⟨b.1 - HSIZE, h.size (b.1 - HSIZE)⟩

/-- The memory of a program that has called `malloc`. -/
structure Sound (base : Nat) (h : Heap) (live arena : List (Nat × Nat)) (bs : List Block) :
    Prop where
  pos : 0 < base
  list : FreeList base h bs
  tiled : Tiled bs (used h live) (rangeBytes arena)
  room : ∀ b ∈ live, HSIZE ≤ b.1 ∧ b.2 + HSIZE ≤ HSIZE * h.size (b.1 - HSIZE)
  range : ∀ x ∈ rangeBytes arena, base + HSIZE ≤ x ∧ x < h.brk
  brk : base + HSIZE ≤ h.brk
  limit : h.brk < 2 ^ 32

theorem used_congr (hsize : ∀ b ∈ used h live, h'.size b.start = h.size b.start) :
  used h' live = used h live
  := by
  apply List.map_congr_left
  intro b hb
  rw [hsize ⟨b.1 - HSIZE, h.size (b.1 - HSIZE)⟩ (List.mem_map_of_mem hb)]

theorem room_congr
    (hsize : ∀ b ∈ used h live, h'.size b.start = h.size b.start)
    (hroom : ∀ b ∈ live, HSIZE ≤ b.1 ∧ b.2 + HSIZE ≤ HSIZE * h.size (b.1 - HSIZE)) :
  ∀ b ∈ live, HSIZE ≤ b.1 ∧ b.2 + HSIZE ≤ HSIZE * h'.size (b.1 - HSIZE)
  := by
  intro b hb
  rw [hsize ⟨b.1 - HSIZE, h.size (b.1 - HSIZE)⟩ (List.mem_map_of_mem hb)]
  exact hroom b hb

namespace Sound

variable (hs : Sound base h live arena bs)

include hs

theorem used_pos {b : Block} (hb : b ∈ used h live) : 0 < b.size
  := by
  obtain ⟨c, hc, rfl⟩ := List.mem_map.mp hb
  have := (hs.room c hc).2
  simp only [HSIZE] at this ⊢
  omega

theorem used_above {b : Block} (hb : b ∈ used h live) : base + HSIZE ≤ b.start ∧ b.start < h.brk
  := hs.range _ (hs.tiled.mem_of_used hb (Block.has_start (hs.used_pos hb)))

theorem free_below {b : Block} (hb : b ∈ bs) : b.start < h.brk
  := (hs.range _ (hs.tiled.mem_of_free hb (Block.has_start (hs.list.pos b hb)))).2

/-- The header of a block in use is not in the free list. -/
theorem used_notMem {b : Block} (hb : b ∈ used h live) : b.start ∉ base :: starts bs
  := by
  intro hmem
  obtain hmem | hmem := List.mem_cons.mp hmem
  · have := (hs.used_above hb).1
    simp only [HSIZE] at this
    omega
  · obtain ⟨c, hc, hcb⟩ := List.mem_map.mp hmem
    exact (hs.tiled.apart hc hb).start_ne (hs.list.pos c hc) (hs.used_pos hb) hcb

/-- The free list is shorter than the memory. -/
theorem length_lt : bs.length < 2 ^ 32
  := by
  have hnodup : (starts bs).Nodup := hs.list.gapped.sorted.imp ne_of_lt
  have hsub : (starts bs).toFinset ⊆ Finset.range h.brk := by
    intro x hx
    obtain ⟨b, hb, rfl⟩ := List.mem_map.mp (List.mem_toFinset.mp hx)
    exact Finset.mem_range.mpr (hs.free_below hb)
  have hcard := Finset.card_le_card hsub
  rw [List.toFinset_card_of_nodup hnodup, Finset.card_range, List.length_map] at hcard
  exact hcard.trans_lt hs.limit

end Sound

/-! ### `free` -/

theorem Sound.free
    {b : Nat × Nat} {n : Nat} (hs : Sound base h live arena bs) (hb : b ∈ live)
    (hn : 2 ^ 33 ≤ n) :
  ∃ h' bs', h.free n b.1 = some h' ∧ Sound base h' (live.erase b) arena bs' ∧ h'.brk = h.brk
  := by
  have hmem : (⟨b.1 - HSIZE, h.size (b.1 - HSIZE)⟩ : Block) ∈ used h live := List.mem_map_of_mem hb
  have hlen := hs.length_lt
  obtain ⟨h', bs', hfree, hins⟩ := hs.list.free (hs.used_above hmem).1 rfl (hs.used_pos hmem)
    (fun c hc => (hs.tiled.apart hc hmem).symm) (by omega : 2 * bs.length + 2 ≤ n)
  rw [Nat.sub_add_cancel (hs.room b hb).1] at hfree
  have hperm := List.perm_cons_erase hb
  have hperm' : (used h live).Perm (⟨b.1 - HSIZE, h.size (b.1 - HSIZE)⟩ :: used h (live.erase b)) :=
    hperm.map _
  have hapart : (used h live).Pairwise Apart := (List.pairwise_append.mp hs.tiled.pairwise).2.1
  have hsize : ∀ c ∈ used h (live.erase b), h'.size c.start = h.size c.start := by
    intro c hc
    have hc' : c ∈ used h live := hperm'.mem_iff.mpr (List.mem_cons_of_mem _ hc)
    apply hins.size
    · have hcons := (hperm'.pairwise_iff fun h => h.symm).mp hapart
      exact ((List.pairwise_cons.mp hcons).1 c hc).symm.start_ne (hs.used_pos hc')
        (hs.used_pos hmem)
    · exact fun hx => hs.used_notMem hc' (List.mem_cons_of_mem _ hx)
  use h', bs', hfree
  use ?_, hins.brk
  constructor
  · exact hs.pos
  · exact hins.list
  · constructor
    · have htotal : total (used h live) = Block.bytes ⟨b.1 - HSIZE, h.size (b.1 - HSIZE)⟩
          + total (used h (live.erase b)) := by
        rw [← total_cons]
        exact (hperm'.map Block.bytes).sum_eq
      rw [used_congr hsize, hins.total, ← hs.tiled.total, htotal, add_assoc]
    · exact hs.tiled.nodup
  · exact room_congr hsize fun c hc => hs.room c (List.mem_of_mem_erase hc)
  · rw [hins.brk]
    exact hs.range
  · rw [hins.brk]
    exact hs.brk
  · rw [hins.brk]
    exact hs.limit

/-! ### `morecore` -/

theorem FreeList.freep_pos (hl : FreeList base h bs) (hpos : 0 < base) : 0 < h.freep
  := by
  obtain hmem | hmem := List.mem_cons.mp hl.freep
  · rw [hmem]
    exact hpos
  · obtain ⟨b, hb, hb'⟩ := List.mem_map.mp hmem
    have := hl.above b hb
    simp only [HSIZE] at this
    omega

theorem FreeList.congr
    (hl : FreeList base h bs) (hnext : h'.next = h.next)
    (hsize : ∀ a ∈ base :: starts bs, h'.size a = h.size a) (hfreep : h'.freep = h.freep) :
  FreeList base h' bs
  := by
  constructor
  · rw [hnext]
    exact hl.ring
  · intro b hb
    rw [hsize _ (List.mem_cons_of_mem _ (List.mem_map_of_mem hb)), hl.sizes b hb]
  · rw [hsize _ List.mem_cons_self, hl.base_size]
  · exact hl.gapped
  · exact hl.above
  · exact hl.pos
  · rw [hfreep]
    exact hl.freep

/-- `morecore` fails and changes nothing, or it adds memory and there is a block that is big
enough. -/
theorem Sound.morecore
    {n nu : Nat} {ok : Bool} (hs : Sound base h live arena bs) (hnu : nu * HSIZE < 2 ^ 32)
    (hn : 2 ^ 33 ≤ n) :
  h.morecore Heap.growing n nu ok = some (0, h) ∨
  ∃ h' bs', h.morecore Heap.growing n nu ok = some (h'.freep, h') ∧ h.brk < h'.brk ∧
    Sound base h' live ((h.brk, h'.brk - h.brk) :: arena) bs' ∧ ∃ c ∈ bs', nu ≤ c.size
  := by
  have hunits : nu ≤ Heap.coreUnits nu ∧ 0 < Heap.coreUnits nu ∧
      Heap.coreUnits nu * HSIZE < 2 ^ 32 := by
    simp only [Heap.coreUnits, HSIZE] at hnu ⊢
    split <;> omega
  rw [Heap.morecore, Heap.coreBytes]
  obtain ⟨hle, hpos, hsmall⟩ := hunits
  generalize Heap.coreUnits nu = k at *
  rw [Nat.mod_eq_of_lt hsmall, Heap.growing, Option.bind_eq_bind, Option.bind_some, Heap.sbrk]
  split
  · exact .inl rfl
  · rename_i hp h₀ hsbrk
    right
    split at hsbrk
    · rename_i hok
      cases hsbrk
      have hlen := hs.length_lt
      have hnot : h.brk ∉ base :: starts bs := by
        intro hmem
        obtain hmem | hmem := List.mem_cons.mp hmem
        · have := hs.brk
          simp only [HSIZE] at this
          omega
        · obtain ⟨b, hb, hb'⟩ := List.mem_map.mp hmem
          have := hs.free_below hb
          omega
      have hsize : ∀ a, a ≠ h.brk →
          (({ h with brk := h.brk + k * HSIZE } : Heap).setSize h.brk k).size a = h.size a := by
        intro a ha
        rw [Heap.size_setSize, update_of_ne ha]
        rfl
      have hl :
          FreeList base (({ h with brk := h.brk + k * HSIZE } : Heap).setSize h.brk k) bs := by
        have hnext : (({ h with brk := h.brk + k * HSIZE } : Heap).setSize h.brk k).next = h.next :=
          Heap.next_setSize _ _ _
        apply hs.list.congr hnext _ rfl
        intro a ha
        apply hsize
        rintro rfl
        exact hnot ha
      have hself :
          (({ h with brk := h.brk + k * HSIZE } : Heap).setSize h.brk k).size h.brk = k := by
        rw [Heap.size_setSize, update_self]
      have hnew : ∀ x ∈ rangeBytes arena, ¬ (⟨h.brk, k⟩ : Block).Has x := by
        intro x hx hx'
        have := (hs.range x hx).2
        have := hx'.1
        dsimp only at this
        omega
      have hapart : ∀ c ∈ bs, Apart ⟨h.brk, k⟩ c :=
        fun c hc x hx hx' => hnew x (hs.tiled.mem_of_free hc hx') hx
      obtain ⟨h', bs', hfree, hins⟩ := hl.free (b := ⟨h.brk, k⟩) hs.brk hself hpos hapart
        (by omega : 2 * bs.length + 2 ≤ n)
      have hbrk : h'.brk = h.brk + k * HSIZE := hins.brk
      have hsize' : ∀ b ∈ used h live, h'.size b.start = h.size b.start := by
        intro b hb
        have hne : b.start ≠ h.brk := (hs.used_above hb).2.ne
        rw [hins.size _ hne fun hx => hs.used_notMem hb (List.mem_cons_of_mem _ hx), hsize _ hne]
      use h', bs'
      rw [hfree]
      refine ⟨rfl, ?_, ?_, ?_⟩
      · rw [hbrk]
        simp only [HSIZE]
        omega
      · have hchunk : bytes h.brk (h'.brk - h.brk) = Block.bytes ⟨h.brk, k⟩ := by
          rw [hbrk, Nat.add_sub_cancel_left, Block.bytes, Nat.mul_comm]
        constructor
        · exact hs.pos
        · exact hins.list
        · constructor
          · rw [used_congr hsize', hins.total, rangeBytes_cons, ← hs.tiled.total, hchunk]
            abel
          · rw [rangeBytes_cons, Multiset.nodup_add]
            use nodup_bytes .., hs.tiled.nodup
            rw [hchunk, Multiset.disjoint_right]
            exact fun hx hx' => hnew _ hx (Block.mem_bytes.mp hx')
        · exact room_congr hsize' hs.room
        · intro x hx
          rw [rangeBytes_cons, Multiset.mem_add, mem_bytes] at hx
          have := hs.brk
          obtain hx | hx := hx
          · omega
          · have := hs.range x hx
            omega
        · have := hs.brk
          omega
        · rw [hbrk]
          exact hok.2
      · obtain ⟨c, hc, hle'⟩ := hins.big
        exact ⟨c, hc, hle.trans hle'⟩
    · cases hsbrk

/-- The program moves the break by itself. -/
theorem Sound.grow
    {n : Nat} (hs : Sound base h live arena bs) (hlimit : h.brk + n < 2 ^ 32) :
  Sound base { h with brk := h.brk + n } live arena bs
  where
  pos := hs.pos
  list := hs.list.congr rfl (fun _ _ => rfl) rfl
  tiled := hs.tiled
  room := hs.room
  range x hx := ⟨(hs.range x hx).1, (hs.range x hx).2.trans_le (Nat.le_add_right _ _)⟩
  brk := hs.brk.trans (Nat.le_add_right _ _)
  limit := hlimit

/-! ### Taking a block -/

/-- The element behind `z` on a segment. -/
theorem Seg.next_of_mem
    {α : Type} {next : α → Option α} {zs : List α} {x k : Option α} {z : α}
    (hseg : Seg next x zs k) (hz : z ∈ zs) :
  ∃ xs ys, zs = xs ++ z :: ys ∧ next z = (ys.head?).or k
  := by
  obtain ⟨xs, ys, rfl⟩ := List.append_of_mem hz
  use xs, ys, rfl
  obtain ⟨m, -, -, hys⟩ := seg_append.mp hseg
  cases ys with
  | nil => exact hys
  | cons y ys => exact hys.1

/-- The place in the list where a block is found. -/
theorem FreeList.split
    {prevp p : Nat} (hl : FreeList base h bs) (hprevp : prevp ∈ base :: starts bs)
    (hp : h.ptr prevp = p) (hbase : p ≠ base) :
  ∃ lower a upper init, bs = lower ++ a :: upper ∧ a.start = p ∧
    base :: starts lower = init ++ [prevp]
  := by
  obtain ⟨xs, ys, hsplit, hnext⟩ := Seg.next_of_mem hl.ring hprevp
  have hys : ∃ ys', ys = p :: ys' := by
    cases ys with
    | nil => exact absurd (hp.symm.trans (Option.some.inj hnext)) hbase
    | cons y ys =>
      use ys
      rw [← hp, Option.some.inj hnext]
  obtain ⟨ys, rfl⟩ := hys
  have hmem : p ∈ starts bs := by
    have : p ∈ base :: starts bs := by
      rw [hsplit]
      simp
    exact (List.mem_cons.mp this).resolve_left hbase
  obtain ⟨a, ha, rfl⟩ := List.mem_map.mp hmem
  obtain ⟨lower, upper, rfl⟩ := List.append_of_mem ha
  use lower, a, upper, xs, rfl, rfl
  have hsorted := hl.sorted
  rw [starts, List.map_append, List.map_cons, ← List.cons_append] at hsplit hsorted
  rw [List.append_cons xs prevp] at hsplit
  obtain ⟨hlower, hupper, hlt⟩ := List.pairwise_append.mp hsorted
  apply ((List.append_cons_inj_of_notMem _ _).mp hsplit).1
  · exact fun hx => lt_irrefl _ (hlt _ hx _ List.mem_cons_self)
  · exact fun hx => lt_irrefl _ ((List.pairwise_cons.mp hupper).1 _ hx)

section

variable {a : Block} {lower upper : List Block}

/-- `malloc` takes a whole block out of the list. -/
theorem FreeList.remove
    {prevp : Nat} {init : List Nat} (hl : FreeList base h (lower ++ a :: upper))
    (hinit : base :: starts lower = init ++ [prevp]) :
  FreeList base ((h.setPtr prevp (h.ptr a.start)).setFreep prevp) (lower ++ upper)
  := by
  have hsorted := hl.sorted
  have hring := hl.ring
  rw [starts, List.map_append, List.map_cons, ← List.cons_append, hinit] at hsorted hring
  obtain ⟨m, hseg, hm, hseg'⟩ := seg_append.mp hring
  obtain ⟨hlower, hupper, hlt⟩ := List.pairwise_append.mp hsorted
  apply hl.replace
  · rw [Heap.next_setFreep, Heap.next_setPtr, starts, List.map_append, ← List.cons_append, hinit]
    apply seg_append.mpr
    use some (h.ptr a.start)
    constructor
    · apply hseg.redirect
      intro hx
      exact lt_irrefl _ ((List.pairwise_append.mp hlower).2.2 _ hx _ List.mem_cons_self)
    · apply hseg'.update_of_notMem
      intro hx
      exact lt_irrefl _ (hlt _ (by simp) _ (List.mem_cons_of_mem _ hx))
  · intro x _
    rw [Heap.size_setFreep, Heap.size_setPtr]
  · exact (List.pairwise_cons.mp (List.pairwise_append.mp hl.gapped).2.1).2
  · intro c hc
    have hmem : c ∈ lower ++ a :: upper := List.mem_append_right _ (List.mem_cons_of_mem _ hc)
    rw [Heap.size_setFreep, Heap.size_setPtr]
    exact ⟨(List.rel_of_pairwise_cons hupper (List.mem_map_of_mem hc)).le, hl.sizes c hmem,
      hl.pos c hmem⟩
  · rw [Heap.freep_setFreep, starts, List.map_append, ← List.cons_append, hinit]
    simp

/-- `malloc` takes the end of a block. -/
theorem FreeList.shrink
    {prevp k n : Nat} (hl : FreeList base h (lower ++ a :: upper))
    (hprevp : prevp ∈ base :: starts (lower ++ a :: upper)) (hk : 0 < k) (hsize : a.size = k + n)
    (hn : 0 < n) :
  FreeList base (((h.setSize a.start k).setSize (a.start + HSIZE * k) n).setFreep prevp)
    (lower ++ ⟨a.start, k⟩ :: upper)
  := by
  have hstop : a.start < a.start + HSIZE * k ∧ a.start + HSIZE * k < a.stop := by
    simp only [Block.stop, hsize, HSIZE]
    omega
  have hupper := hl.gapped.lt_of_append.2
  have hstarts :
      starts (lower ++ (⟨a.start, k⟩ : Block) :: upper) = starts (lower ++ a :: upper) := by
    simp [starts]
  apply hl.replace
  · rw [hstarts, Heap.next_setFreep, Heap.next_setSize, Heap.next_setSize]
    exact hl.ring
  · intro x hx
    rw [Heap.size_setFreep, Heap.size_setSize, Heap.size_setSize,
      update_of_ne (hx.trans hstop.1).ne, update_of_ne hx.ne]
  · apply List.pairwise_cons.mpr
    use ?_, (List.pairwise_cons.mp (List.pairwise_append.mp hl.gapped).2.1).2
    exact fun b hb => hstop.2.trans (hupper b hb)
  · intro c hc
    rw [Heap.size_setFreep, Heap.size_setSize, Heap.size_setSize]
    obtain rfl | hc := List.mem_cons.mp hc
    · rw [update_of_ne hstop.1.ne, update_self]
      exact ⟨le_rfl, rfl, hk⟩
    · have hlt := hstop.2.trans (hupper c hc)
      have hlt' := hstop.1.trans hlt
      have hmem : c ∈ lower ++ a :: upper := List.mem_append_right _ (List.mem_cons_of_mem _ hc)
      rw [update_of_ne hlt.ne', update_of_ne hlt'.ne']
      exact ⟨hlt'.le, hl.sizes c hmem, hl.pos c hmem⟩
  · rw [Heap.freep_setFreep, hstarts]
    exact hprevp

end

/-- A block taken from the free list is in use. -/
theorem Sound.allocate
    {b : Block} {bs' : List Block} {nbytes : Nat} (hs : Sound base h live arena bs)
    (hlist : FreeList base h' bs') (htotal : total bs' + b.bytes = total bs)
    (hb : h'.size b.start = b.size) (hroom : nbytes + HSIZE ≤ HSIZE * b.size)
    (hsize : ∀ c ∈ used h live, h'.size c.start = h.size c.start) (hbrk : h'.brk = h.brk) :
  Sound base h' ((b.start + HSIZE, nbytes) :: live) arena bs'
  := by
  have hused : used h' ((b.start + HSIZE, nbytes) :: live) = b :: used h live := by
    rw [← used_congr hsize, used, List.map_cons, Nat.add_sub_cancel, hb]
    rfl
  constructor
  · exact hs.pos
  · exact hlist
  · constructor
    · rw [hused, total_cons, ← hs.tiled.total, ← htotal]
      abel
    · exact hs.tiled.nodup
  · intro c hc
    obtain rfl | hc := List.mem_cons.mp hc
    · dsimp only
      rw [Nat.add_sub_cancel, hb]
      exact ⟨Nat.le_add_left _ _, hroom⟩
    · exact room_congr hsize hs.room c hc
  · rw [hbrk]
    exact hs.range
  · rw [hbrk]
    exact hs.brk
  · rw [hbrk]
    exact hs.limit

theorem Sound.take
    {prevp nunits nbytes : Nat} (hs : Sound base h live arena bs)
    (hprevp : prevp ∈ base :: starts bs) (hle : nunits ≤ h.size (h.ptr prevp))
    (hpos : 0 < nunits) (hroom : nbytes + HSIZE ≤ HSIZE * nunits) :
  ∃ ap h' bs', h.take nunits prevp (h.ptr prevp) = (ap, h') ∧ ap ≠ 0 ∧
    Sound base h' ((ap, nbytes) :: live) arena bs' ∧ h'.brk = h.brk
  := by
  have hbase : h.ptr prevp ≠ base := by
    intro hp
    rw [hp, hs.list.base_size] at hle
    omega
  obtain ⟨lower, a, upper, init, rfl, ha, hinit⟩ := hs.list.split hprevp rfl hbase
  rw [← ha] at hle ⊢
  have hmem : a ∈ lower ++ a :: upper := by
    simp
  have hasize := hs.list.sizes a hmem
  rw [hasize] at hle
  rw [Heap.take, hasize]
  by_cases heq : a.size = nunits
  · rw [if_pos heq]
    refine ⟨_, _, lower ++ upper, rfl, Nat.succ_ne_zero _, ?_, rfl⟩
    apply hs.allocate (b := a)
    · exact hs.list.remove hinit
    · rw [total_append, total_append, total_cons]
      abel
    · rw [Heap.size_setFreep, Heap.size_setPtr, hasize]
    · rw [heq]
      exact hroom
    · intro c hc
      rw [Heap.size_setFreep, Heap.size_setPtr]
    · rfl
  · rw [if_neg heq]
    dsimp only
    rw [Heap.size_setSize, update_self]
    obtain ⟨k, hk⟩ := Nat.exists_eq_add_of_le' hle
    have hkpos : 0 < k := by
      omega
    rw [hk, Nat.add_sub_cancel]
    have hhas : a.Has (a.start + HSIZE * k) := by
      simp only [Block.Has, Block.stop, hk, HSIZE]
      omega
    refine ⟨_, _, lower ++ ⟨a.start, k⟩ :: upper, rfl, Nat.succ_ne_zero _, ?_, rfl⟩
    apply hs.allocate (b := ⟨a.start + HSIZE * k, nunits⟩)
    · exact hs.list.shrink hprevp hkpos hk hpos
    · have hjoin :
          a.bytes = Block.bytes ⟨a.start, k⟩ + Block.bytes ⟨a.start + HSIZE * k, nunits⟩ := by
        rw [← Block.bytes_join, ← hk]
      rw [total_append, total_append, total_cons, total_cons, hjoin]
      abel
    · rw [Heap.size_setFreep, Heap.size_setSize, update_self]
    · exact hroom
    · intro c hc
      have hcpos := hs.used_pos hc
      have hne : c.start ≠ a.start + HSIZE * k := by
        intro hx
        apply hs.tiled.apart hmem hc _ hhas
        rw [← hx]
        exact Block.has_start hcpos
      have hne' : c.start ≠ a.start := by
        intro hx
        apply hs.used_notMem hc
        rw [hx]
        exact List.mem_cons_of_mem _ (List.mem_map_of_mem hmem)
      rw [Heap.size_setFreep, Heap.size_setSize, Heap.size_setSize, update_of_ne hne,
        update_of_ne hne']
    · rfl

/-! ### `malloc` -/

/-- The way once around the list, from `freep` back to `freep`. -/
theorem FreeList.around (hl : FreeList base h bs) :
  ∃ xs, Seg h.next (h.next h.freep) (xs ++ [h.freep]) (h.next h.freep) ∧
    (base :: starts bs).Perm (xs ++ [h.freep]) ∧ h.freep ∉ xs
  := by
  obtain ⟨r, r', hr⟩ := List.append_of_mem hl.freep
  have hring := hl.ring
  have hnodup : (base :: starts bs).Nodup := hl.sorted.imp ne_of_lt
  rw [hr] at hring hnodup ⊢
  obtain ⟨m, hseg, hm, hseg'⟩ := seg_append.mp hring
  have hperm : (r ++ h.freep :: r').Perm (r' ++ r ++ [h.freep]) := by
    rw [List.append_assoc]
    apply List.perm_append_comm.trans
    rw [List.cons_append]
    apply (List.perm_middle (a := h.freep)).symm.trans
    apply List.Perm.append_left
    exact (List.perm_append_singleton _ _).symm
  use r' ++ r
  refine ⟨?_, hperm, ?_⟩
  · rw [List.append_assoc]
    apply seg_append.mpr
    use some base, hseg'
    apply seg_append.mpr
    exact ⟨m, hseg, hm, rfl⟩
  · have := hperm.nodup_iff.mp hnodup
    exact fun hx => (List.nodup_append.mp this).2.2 _ hx _ List.mem_cons_self rfl

/-- The loop of `malloc` takes the first block that is big enough, or it comes back to `freep` and
asks for more memory. -/
theorem search_around
    {nunits n prevp : Nat} {answers : List Bool} {xs ring : List Nat} {k : Option Nat}
    (hseg : Seg h.next (h.next prevp) (xs ++ [h.freep]) k) (hprevp : prevp ∈ ring)
    (hsub : ∀ q ∈ xs, q ∈ ring) (hne : h.freep ∉ xs) :
  (∃ prev ∈ ring, nunits ≤ h.size (h.ptr prev) ∧
    Heap.search Heap.growing nunits (n + 1 + xs.length) prevp (h.ptr prevp) h answers
      = some (h.take nunits prev (h.ptr prev))) ∨
  ((∀ q ∈ xs ++ [h.freep], h.size q < nunits) ∧
    Heap.search Heap.growing nunits (n + 1 + xs.length) prevp (h.ptr prevp) h answers = do
      let (p, h) ← h.morecore Heap.growing n nunits (answers.headD false)
      if p = 0 then some (0, h) else Heap.search Heap.growing nunits n p (h.ptr p) h answers.tail)
  := by
  induction xs generalizing prevp with
  | nil =>
    have hp : h.ptr prevp = h.freep := h.ptr_eq_of_next prevp hseg.1
    by_cases hsize : nunits ≤ h.size (h.ptr prevp)
    · left
      use prevp, hprevp, hsize
      exact if_pos hsize
    · right
      rw [hp] at hsize
      use fun q hq => by
        rw [List.mem_singleton.mp hq]
        omega
      rw [hp]
      exact (if_neg hsize).trans (if_pos rfl)
  | cons x xs ih =>
    obtain ⟨hx, hseg⟩ := hseg
    have hp : h.ptr prevp = x := h.ptr_eq_of_next prevp hx
    obtain ⟨hne₁, hne₂⟩ := not_or.mp (mt List.mem_cons.mpr hne)
    by_cases hsize : nunits ≤ h.size (h.ptr prevp)
    · left
      use prevp, hprevp, hsize
      exact if_pos hsize
    · rw [hp] at hsize ⊢
      have hstep : Heap.search Heap.growing nunits (n + 1 + (x :: xs).length) prevp x h answers
          = Heap.search Heap.growing nunits (n + 1 + xs.length) x (h.ptr x) h answers :=
        (if_neg hsize).trans (if_neg (Ne.symm hne₁))
      rw [hstep]
      obtain hih | ⟨hsmall, hih⟩ := ih hseg (hsub x List.mem_cons_self)
        (fun q hq => hsub q (List.mem_cons_of_mem _ hq)) hne₂
      · exact .inl hih
      · right
        use ?_, hih
        intro q hq
        obtain rfl | hq := List.mem_cons.mp hq
        · omega
        · exact hsmall q hq

/-- The loop of `malloc`, started at `freep`: a block is found, or none is big enough. -/
theorem Sound.around
    {n : Nat} (hs : Sound base h live arena bs) (nunits : Nat) (answers : List Bool)
    (hn : 2 ^ 32 ≤ n) :
  (∃ prev ∈ base :: starts bs, nunits ≤ h.size (h.ptr prev) ∧
    Heap.search Heap.growing nunits n h.freep (h.ptr h.freep) h answers
      = some (h.take nunits prev (h.ptr prev))) ∨
  ((∀ c ∈ bs, c.size < nunits) ∧ ∃ m, n ≤ m + 2 ^ 32 ∧
    Heap.search Heap.growing nunits n h.freep (h.ptr h.freep) h answers = do
      let (p, h) ← h.morecore Heap.growing m nunits (answers.headD false)
      if p = 0 then some (0, h) else Heap.search Heap.growing nunits m p (h.ptr p) h answers.tail)
  := by
  obtain ⟨xs, hseg, hperm, hne⟩ := hs.list.around
  have hlen := hperm.length_eq
  have hlt := hs.length_lt
  simp only [starts, List.length_cons, List.length_map, List.length_append, List.length_nil] at hlen
  obtain ⟨m, rfl⟩ : ∃ m, n = m + 1 + xs.length := ⟨n - 1 - xs.length, by omega⟩
  have hsub : ∀ q ∈ xs, q ∈ base :: starts bs :=
    fun q hq => hperm.mem_iff.mpr (List.mem_append_left _ hq)
  obtain hfound | ⟨hsmall, hsearch⟩ :=
    search_around hseg hs.list.freep hsub hne
  · exact .inl hfound
  · right
    constructor
    · intro c hc
      rw [← hs.list.sizes c hc]
      exact hsmall _ (hperm.mem_iff.mp (List.mem_cons_of_mem _ (List.mem_map_of_mem hc)))
    · exact ⟨m, by omega, hsearch⟩

/-- What is in use after `malloc` returned `ap`. -/
def Allocated (base : Nat) (h : Heap) (live arena : List (Nat × Nat)) (nbytes : Nat)
    (r : Nat × Heap) : Prop :=
  ∃ bs, Sound base r.2 (if r.1 = 0 then live else (r.1, nbytes) :: live)
    (if r.2.brk = h.brk then arena else (h.brk, r.2.brk - h.brk) :: arena) bs

/-- Taking a block gives the memory asked for. -/
theorem Sound.take_allocated
    {prevp nunits nbytes : Nat} {h₀ : Heap} (hs : Sound base h live arena bs)
    (hprevp : prevp ∈ base :: starts bs) (hle : nunits ≤ h.size (h.ptr prevp))
    (hpos : 0 < nunits) (hroom : nbytes + HSIZE ≤ HSIZE * nunits) {arena₀ : List (Nat × Nat)}
    (harena : arena = if h.brk = h₀.brk then arena₀ else (h₀.brk, h.brk - h₀.brk) :: arena₀) :
  Allocated base h₀ live arena₀ nbytes (h.take nunits prevp (h.ptr prevp))
  := by
  obtain ⟨ap, h', bs', htake, hap, hs', hbrk⟩ := hs.take hprevp hle hpos hroom
  rw [htake]
  use bs'
  rw [if_neg hap, hbrk, ← harena]
  exact hs'

/-- The loop of `malloc` returns. -/
theorem Sound.search
    {nunits nbytes : Nat} (hs : Sound base h live arena bs) (answers : List Bool)
    (hpos : 0 < nunits) (hunits : nunits * HSIZE < 2 ^ 32)
    (hroom : nbytes + HSIZE ≤ HSIZE * nunits) :
  ∃ r, Heap.search Heap.growing nunits steps h.freep (h.ptr h.freep) h answers = some r ∧
    Allocated base h live arena nbytes r
  := by
  have hsteps : 2 ^ 32 ≤ steps := by
    decide
  obtain ⟨prev, hprev, hle, hfound⟩ | ⟨-, m, hm, hmore⟩ := hs.around nunits answers hsteps
  · use h.take nunits prev (h.ptr prev), hfound
    exact hs.take_allocated hprev hle hpos hroom (if_pos rfl).symm
  · have hm' : 2 ^ 33 ≤ m := by
      simp only [steps] at hm
      omega
    obtain hfail | ⟨h', bs', hcore, hbrk, hs', c, hc, hbig⟩ := hs.morecore hunits hm'
    · rw [hfail] at hmore
      use (0, h), hmore
      use bs
      rw [if_pos rfl, if_pos rfl]
      exact hs
    · have hfreep : h'.freep ≠ 0 := by
        have := hs'.list.freep_pos hs.pos
        omega
      rw [hcore] at hmore
      have hmore' := hmore.trans (if_neg hfreep)
      obtain ⟨prev, hprev, hle, hfound⟩ | ⟨hsmall, -⟩ :=
        hs'.around nunits answers.tail (by omega : 2 ^ 32 ≤ m)
      · use h'.take nunits prev (h'.ptr prev), hmore'.trans hfound
        exact hs'.take_allocated hprev hle hpos hroom (if_neg hbrk.ne').symm
      · exact absurd hbig (Nat.not_le.mpr (hsmall c hc))

/-- The first call of `malloc` makes an empty list. -/
theorem Sound.start
    (hpos : 0 < base) (hbrk : base + HSIZE ≤ h.brk) (hlimit : h.brk < 2 ^ 32)
    (hfreep : h.freep = 0) :
  Sound base (h.start base) [] [] []
  := by
  rw [Heap.start, if_pos hfreep]
  constructor
  · exact hpos
  · constructor
    · rw [Heap.next_setSize, Heap.next_setFreep, Heap.next_setPtr]
      exact ⟨rfl, update_self ..⟩
    · exact fun b hb => absurd hb List.not_mem_nil
    · rw [Heap.size_setSize, update_self]
    · exact .nil
    · exact fun b hb => absurd hb List.not_mem_nil
    · exact fun b hb => absurd hb List.not_mem_nil
    · exact List.mem_cons_self
  · exact ⟨rfl, Multiset.nodup_zero⟩
  · exact fun b hb => absurd hb List.not_mem_nil
  · exact fun x hx => absurd hx (Multiset.notMem_zero x)
  · exact hbrk
  · exact hlimit

theorem units_spec {nbytes : Nat} (h : nbytes + 16 < 2 ^ 31) :
  0 < Heap.units nbytes ∧ Heap.units nbytes * HSIZE < 2 ^ 32 ∧
    nbytes + HSIZE ≤ HSIZE * Heap.units nbytes
  := by
  simp only [Heap.units, HSIZE]
  omega

/-! ### Runs -/

/-- `malloc` has not been called, or the memory is tiled by a free list and the blocks in use. -/
def Inv (base : Nat) (s : St) : Prop :=
  Initial base s ∨ ∃ bs, Sound base s.heap s.live s.arena bs

/-- The list that `malloc` searches. -/
theorem Inv.start {s : St} (hs : Inv base s) :
  (s.heap.start base).brk = s.heap.brk ∧ ∃ bs, Sound base (s.heap.start base) s.live s.arena bs
  := by
  obtain hs | ⟨bs, hs⟩ := hs
  · constructor
    · rw [Heap.start, if_pos hs.freep]
      rfl
    · use []
      rw [hs.live, hs.arena]
      exact Sound.start hs.pos hs.brk hs.limit hs.freep
  · have hfreep := hs.list.freep_pos hs.pos
    rw [Heap.start, if_neg hfreep.ne']
    exact ⟨rfl, bs, hs⟩

theorem Inv.step {s : St} (hs : Inv base s) (l : Label) :
  System.Outcome (fun f => f = Fault.diverges) (Inv base) (s.next base l)
  := by
  cases l with
  | malloc nbytes answers =>
    obtain ⟨hbrk, bs, hs'⟩ := hs.start
    rw [St.next.eq_def]
    dsimp only
    split
    · rename_i hn
      obtain ⟨hpos, hunits, hroom⟩ := units_spec hn
      obtain ⟨⟨ap, h'⟩, hsearch, bs', hs''⟩ := hs'.search answers hpos hunits hroom
      have hmalloc : s.heap.malloc Heap.growing steps base nbytes answers = some (ap, h') := hsearch
      rw [hmalloc]
      right
      use bs'
      rw [hbrk] at hs''
      exact hs''
    · trivial
  | free ap =>
    rw [St.next.eq_def]
    dsimp only
    split
    · trivial
    · rename_i b hfind
      have hb : b ∈ s.live := List.mem_of_find?_eq_some hfind
      have hfound := List.find?_some hfind
      have hap : b.1 = ap := of_decide_eq_true hfound
      obtain hs | ⟨bs, hs⟩ := hs
      · rw [hs.live] at hb
        cases hb
      · obtain ⟨h', bs', hfree, hs', -⟩ := hs.free hb (by decide : 2 ^ 33 ≤ steps)
        rw [hap] at hfree
        rw [hfree]
        exact .inr ⟨bs', hs'⟩
  | sbrk n ok =>
    rw [St.next.eq_def]
    dsimp only
    split
    · rw [Heap.sbrk]
      split
      · exact hs
      · rename_i hsbrk
        split at hsbrk
        · rename_i hok
          cases hsbrk
          obtain hs | ⟨bs, hs⟩ := hs
          · left
            exact ⟨hs.pos, hs.brk.trans (Nat.le_add_right _ _), hok.2, hs.freep, hs.live, hs.arena⟩
          · right
            use bs
            exact hs.grow hok.2
        · cases hsbrk
    · trivial

/-- The memory of a program, with the blocks that are free. -/
structure WellFormed (base : Nat) (s : St) (free : List Block) : Prop where
  /-- The links lead from `base` through the free blocks, in this order, back to `base`. -/
  circular : Seg s.heap.next (some base) (base :: starts free) (some base)
  freep : s.heap.freep ∈ base :: starts free
  sizes : ∀ b ∈ free, s.heap.size b.start = b.size
  /-- The free blocks are ordered by address and not adjacent. -/
  gapped : Gapped free
  above : ∀ b ∈ free, base + HSIZE ≤ b.start
  /-- The free and the allocated blocks are disjoint. -/
  apart : (free ++ used s.heap s.live).Pairwise Apart
  /-- An allocated block has the bytes that were asked for. -/
  room : ∀ b ∈ s.live, ∃ c ∈ used s.heap s.live, c.start + HSIZE = b.1 ∧ b.1 + b.2 ≤ c.stop
  /-- The bytes that were asked for are not bytes of a header. -/
  headers : ∀ b ∈ s.live, ∀ x, b.1 ≤ x → x < b.1 + b.2 →
    ∀ q ∈ base :: starts (free ++ used s.heap s.live), ¬ (q ≤ x ∧ x < q + HSIZE)
  /-- The free and the allocated blocks make up the memory that `morecore` obtained. -/
  tile : ∀ x, (∃ b ∈ free ++ used s.heap s.live, b.Has x) ↔
    ∃ r ∈ s.arena, r.1 ≤ x ∧ x < r.1 + r.2

/-- The block of a pointer. -/
theorem Sound.room_used (hs : Sound base h live arena bs) {b : Nat × Nat} (hb : b ∈ live) :
  ∃ c ∈ used h live, c.start + HSIZE = b.1 ∧ b.1 + b.2 ≤ c.stop
  := by
  obtain ⟨hle, hroom⟩ := hs.room b hb
  use ⟨b.1 - HSIZE, h.size (b.1 - HSIZE)⟩, List.mem_map_of_mem hb
  rw [Block.stop]
  dsimp only
  omega

/-- A byte that was asked for is not in a header. -/
theorem Sound.headers
    (hs : Sound base h live arena bs) {b : Nat × Nat} (hb : b ∈ live) {x q : Nat}
    (hx : b.1 ≤ x) (hx' : x < b.1 + b.2) (hq : q ∈ base :: starts (bs ++ used h live)) :
  ¬ (q ≤ x ∧ x < q + HSIZE)
  := by
  intro hqx
  obtain ⟨c, hc, hstart, hstop⟩ := hs.room_used hb
  have hcx : c.Has x := ⟨by omega, by omega⟩
  obtain rfl | hq := List.mem_cons.mp hq
  · have := hs.range x (hs.tiled.mem_of_used hc hcx)
    omega
  · obtain ⟨d, hd, rfl⟩ := List.mem_map.mp hq
    have hpos : 0 < d.size := by
      obtain hd | hd := List.mem_append.mp hd
      · exact hs.list.pos d hd
      · exact hs.used_pos hd
    have hdx : d.Has x := by
      use hqx.1
      rw [Block.stop]
      simp only [HSIZE] at hqx ⊢
      omega
    -- the byte lies in one block only, and behind the header of that block
    have hne : c ≠ d := by
      rintro rfl
      omega
    have hpair : ∀ e ∈ bs ++ used h live, ∀ e' ∈ bs ++ used h live, e ≠ e' → Apart e e' :=
      fun e he e' he' => hs.tiled.pairwise.forall he he'
    exact hpair c (List.mem_append_right _ hc) d hd hne x hcx hdx

theorem Sound.wellFormed {s : St} (hs : Sound base s.heap s.live s.arena bs) :
  WellFormed base s bs
  where
  circular := hs.list.ring
  freep := hs.list.freep
  sizes := hs.list.sizes
  gapped := hs.list.gapped
  above := hs.list.above
  apart := hs.tiled.pairwise
  room _ hb := hs.room_used hb
  headers _ hb _ hx hx' _ hq := hs.headers hb hx hx' hq
  tile x := by
    rw [← mem_total, ← mem_rangeBytes, total_append, hs.tiled.total]

/-- In every run of a program that calls `malloc`, `free` and `sbrk`, every call returns, and the
free and the allocated blocks are well formed once `malloc` has been called. -/
theorem heap_wellFormed {s : St} (hs : (program base).Reachable s) :
  (∀ l f, (program base).step s l ≠ some (.error f)) ∧
  (Initial base s ∨ ∃ free, WellFormed base s free)
  := by
  obtain ⟨hinv, hstep⟩ :=
    System.Reach.outcome (fun _ hs => .inl hs) (fun s l hs _ => Inv.step hs l) hs
  constructor
  · intro l f hf
    exact hstep l trivial f hf (by cases f; rfl)
  · obtain hinv | ⟨bs, hinv⟩ := hinv
    · exact .inl hinv
    · exact .inr ⟨bs, hinv.wellFormed⟩

/-- A program before its first call. -/
def fresh : St where
  heap := { mem := fun _ => ⟨0, 0⟩, freep := 0, brk := 4096 }
  live := []
  arena := []

theorem fresh_initial : Initial 100 fresh
  := by
  constructor <;> decide

/-- The first of two blocks is freed, and the program moves the break between them. -/
theorem heap_wellFormed_two_blocks :
  ∃ s, (program 100).Reachable s ∧ s.live = [(36816, 10)] ∧ s.arena = [(4096, 32768)] ∧
    (∀ l f, (program 100).step s l ≠ some (.error f)) ∧
    (Initial 100 s ∨ ∃ free, WellFormed 100 s free)
  := by
  obtain ⟨s, -, hs, hlive, harena⟩ := System.exists_of_run (program 100) fresh_initial
    [.malloc 20 [true], .sbrk 50 true, .malloc 10 [], .free 36840]
    (fun s => s.live = [(36816, 10)] ∧ s.arena = [(4096, 32768)]) (by decide +kernel)
  exact ⟨s, hs, hlive, harena, heap_wellFormed hs⟩

end Xv6.Umalloc
