import Xv6.Umalloc.Heap

/-!
# Blocks of memory

A block is a range of the memory that starts with a header.  The free and the allocated blocks
together have the bytes of the memory that they were made of, each of them once, so they are
disjoint.  Free blocks are kept in the order of their addresses, with gaps between them.
-/

namespace Xv6.Umalloc

/-- A block, with its size in units of a header. -/
structure Block where
  start : Nat
  size : Nat
  deriving DecidableEq, Repr

namespace Block

/-- The address behind a block. -/
def stop (b : Block) : Nat :=
  b.start + HSIZE * b.size

/-- The address lies in the block. -/
def Has (b : Block) (x : Nat) : Prop :=
  b.start ≤ x ∧ x < b.stop

end Block

/-- The addresses of `n` bytes. -/
def bytes (a n : Nat) : Multiset Nat :=
  (Multiset.range n).map (a + ·)

theorem mem_bytes {a n x : Nat} : x ∈ bytes a n ↔ a ≤ x ∧ x < a + n
  := by
  simp only [bytes, Multiset.mem_map, Multiset.mem_range]
  constructor
  · rintro ⟨i, hi, rfl⟩
    omega
  · intro hx
    exact ⟨x - a, by omega, by omega⟩

/-- A range consists of a first and a second part. -/
theorem bytes_add (a m n : Nat) : bytes a (m + n) = bytes a m + bytes (a + m) n
  := by
  rw [bytes, Multiset.range_add, Multiset.map_add, Multiset.map_map, bytes, bytes]
  simp only [Function.comp_def, Nat.add_assoc]

theorem nodup_bytes (a n : Nat) : (bytes a n).Nodup
  := by
  apply (Multiset.nodup_range n).map
  intro i j hij
  exact Nat.add_left_cancel hij

namespace Block

/-- The addresses of the bytes of a block. -/
def bytes (b : Block) : Multiset Nat :=
  Umalloc.bytes b.start (HSIZE * b.size)

theorem mem_bytes {b : Block} {x : Nat} : x ∈ b.bytes ↔ b.Has x
  := Umalloc.mem_bytes

theorem has_start {b : Block} (h : 0 < b.size) : b.Has b.start
  := by
  simp only [Has, stop, HSIZE]
  omega

/-- Two blocks next to each other make one. -/
theorem bytes_join (a m n : Nat) :
  bytes ⟨a, m + n⟩ = bytes ⟨a, m⟩ + bytes ⟨a + HSIZE * m, n⟩
  := by
  rw [bytes, Nat.mul_add, bytes_add]
  rfl

end Block

/-- The bytes of several blocks. -/
def total (bs : List Block) : Multiset Nat :=
  (bs.map Block.bytes).sum

@[simp]
theorem total_nil : total [] = 0
  := rfl

@[simp]
theorem total_cons (b : Block) (bs : List Block) : total (b :: bs) = b.bytes + total bs
  := by
  rw [total, List.map_cons, List.sum_cons]
  rfl

@[simp]
theorem total_append (bs bs' : List Block) : total (bs ++ bs') = total bs + total bs'
  := by
  rw [total, List.map_append, List.sum_append]
  rfl

theorem mem_total {bs : List Block} {x : Nat} : x ∈ total bs ↔ ∃ b ∈ bs, b.Has x
  := by
  induction bs with
  | nil => simp
  | cons b bs ih => simp [ih, Block.mem_bytes]

/-- Blocks without a common byte. -/
def Apart (b c : Block) : Prop :=
  ∀ x, b.Has x → ¬ c.Has x

theorem Apart.symm {b c : Block} (h : Apart b c) : Apart c b
  := fun x hc hb => h x hb hc

instance : Std.Symm Apart where
  symm _ _ h := h.symm

/-- Blocks that have no byte twice are apart from each other. -/
theorem pairwise_apart {bs : List Block} (h : (total bs).Nodup) : bs.Pairwise Apart
  := by
  induction bs with
  | nil => exact .nil
  | cons b bs ih =>
    rw [total_cons, Multiset.nodup_add] at h
    obtain ⟨-, hbs, hdisj⟩ := h
    constructor
    · intro c hc x hb hx
      exact Multiset.disjoint_left.mp hdisj (Block.mem_bytes.mpr hb)
        (mem_total.mpr ⟨c, hc, hx⟩)
    · exact ih hbs

/-- The blocks are in the order of their addresses, and no two of them are adjacent. -/
def Gapped (bs : List Block) : Prop :=
  bs.Pairwise fun b c => b.stop < c.start

/-- The free blocks and the allocated blocks tile the memory. -/
structure Tiled (free used : List Block) (arena : Multiset Nat) : Prop where
  total : total free + total used = arena
  nodup : arena.Nodup

/-- The bytes of ranges given by start and size. -/
def rangeBytes (rs : List (Nat × Nat)) : Multiset Nat :=
  (rs.map fun r => bytes r.1 r.2).sum

@[simp]
theorem rangeBytes_nil : rangeBytes [] = 0
  := rfl

@[simp]
theorem rangeBytes_cons (r : Nat × Nat) (rs : List (Nat × Nat)) :
  rangeBytes (r :: rs) = bytes r.1 r.2 + rangeBytes rs
  := by
  rw [rangeBytes, List.map_cons, List.sum_cons]
  rfl

theorem mem_rangeBytes {rs : List (Nat × Nat)} {x : Nat} :
  x ∈ rangeBytes rs ↔ ∃ r ∈ rs, r.1 ≤ x ∧ x < r.1 + r.2
  := by
  induction rs with
  | nil => simp
  | cons r rs ih => simp [ih, mem_bytes]

namespace Tiled

variable {free used : List Block} {arena : Multiset Nat}

section

variable (h : Tiled free used arena)

include h

theorem pairwise : (free ++ used).Pairwise Apart
  := by
  apply pairwise_apart
  rw [total_append, h.total]
  exact h.nodup

/-- A free and an allocated block are apart. -/
theorem apart {b c : Block} (hb : b ∈ free) (hc : c ∈ used) :
  Apart b c
  := (List.pairwise_append.mp h.pairwise).2.2 b hb c hc

theorem mem_of_free {b : Block} (hb : b ∈ free) {x : Nat} (hx : b.Has x) :
  x ∈ arena
  := by
  rw [← h.total, Multiset.mem_add]
  exact .inl (mem_total.mpr ⟨b, hb, hx⟩)

theorem mem_of_used {b : Block} (hb : b ∈ used) {x : Nat} (hx : b.Has x) :
  x ∈ arena
  := by
  rw [← h.total, Multiset.mem_add]
  exact .inr (mem_total.mpr ⟨b, hb, hx⟩)

end

end Tiled

end Xv6.Umalloc
