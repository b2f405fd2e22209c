import Xv6.Umalloc.Correct

/-!
# Requests of any size

`malloc` rounds a request up to units and multiplies back in 32 bits, and the parameter of `sbrk` is
an `int`.  Here `sbrk` takes every argument.
-/

namespace Xv6.Umalloc

namespace Heap

/-- `sbrk` for every argument, negative from `2 ^ 31` on: `growproc` adds memory, or gives it back
with `deallocuvm`. -/
def sbrkInt : Sbrk := fun h n ok =>
  if n = 0 then some (some (h.brk, h))
  else if n < 2 ^ 31 then some (h.sbrk n ok)
  else
    let sz := min h.brk ((h.brk + n) % 2 ^ 32)
    some (if sz = 0 then none else some (h.brk, { h with brk := sz }))

/-- The program stops at a call of `sbrk` with a negative argument. -/
def checked : Sbrk := fun h n ok =>
  if n < 2 ^ 31 then sbrkInt h n ok else none

end Heap

variable {base : Nat} {h : Heap} {live arena : List (Nat × Nat)} {bs : List Block}

/-- The call returns 0 or a block with the bytes asked for, in the memory of the program, and it
returns the same when a negative argument of `sbrk` stops the program, so no argument is
negative. -/
def Honest (base : Nat) (h : Heap) (nbytes : Nat) (answers : List Bool) : Prop :=
  ∃ ap h', h.malloc Heap.sbrkInt steps base nbytes answers = some (ap, h') ∧
    (ap = 0 ∨ nbytes + HSIZE ≤ HSIZE * h'.size (ap - HSIZE) ∧ ap + nbytes ≤ h'.brk) ∧
    h.malloc Heap.checked steps base nbytes answers = some (ap, h')

/-! ### Small requests -/

/-- The loop of `malloc` depends on `sbrk` for one argument only. -/
theorem search_congr
    {sbrk sbrk' : Heap.Sbrk} {nunits n prevp p : Nat} {answers : List Bool}
    (hsbrk : ∀ h ok, sbrk h (Heap.coreBytes nunits) ok = sbrk' h (Heap.coreBytes nunits) ok) :
  Heap.search sbrk nunits n prevp p h answers = Heap.search sbrk' nunits n prevp p h answers
  := by
  induction n generalizing prevp p h answers with
  | zero => rfl
  | succ n ih => simp only [Heap.search, Heap.morecore, hsbrk, ih]

/-- A block in use ends in the memory of the program. -/
theorem Sound.stop_le (hs : Sound base h live arena bs) {b : Block} (hb : b ∈ used h live) :
  b.stop ≤ h.brk
  := by
  have hpos := hs.used_pos hb
  have hlast : b.Has (b.stop - 1) := by
    simp only [Block.Has, Block.stop, HSIZE]
    omega
  have := (hs.range _ (hs.tiled.mem_of_used hb hlast)).2
  omega

/-- Requests below `2 ^ 31` bytes, with room for the header and the rounding. -/
theorem honest_of_le
    {s : St} {nbytes : Nat} (hs : Inv base s) (answers : List Bool) (hle : nbytes + 16 ≤ 2 ^ 31) :
  Honest base s.heap nbytes answers
  := by
  have hunits : 0 < Heap.units nbytes ∧ Heap.units nbytes * HSIZE < 2 ^ 31 ∧
      nbytes + HSIZE ≤ HSIZE * Heap.units nbytes := by
    simp only [Heap.units, HSIZE]
    omega
  obtain ⟨hpos, hlt, hroom⟩ := hunits
  have hcore : 0 < Heap.coreBytes (Heap.units nbytes) ∧
      Heap.coreBytes (Heap.units nbytes) < 2 ^ 31 := by
    simp only [Heap.coreBytes, Heap.coreUnits, HSIZE] at hlt ⊢
    split <;> omega
  obtain ⟨hbrk, bs, hs'⟩ := hs.start
  obtain ⟨⟨ap, h'⟩, hsearch, bs', hs''⟩ := hs'.search answers hpos (by omega) hroom
  have hint : ∀ h ok, Heap.sbrkInt h (Heap.coreBytes (Heap.units nbytes)) ok =
      Heap.growing h (Heap.coreBytes (Heap.units nbytes)) ok := by
    intro h ok
    rw [Heap.sbrkInt, if_neg hcore.1.ne', if_pos hcore.2, Heap.growing]
  refine ⟨ap, h', (search_congr hint).trans hsearch, ?_, (search_congr ?_).trans hsearch⟩
  swap
  · intro h ok
    rw [Heap.checked, if_pos hcore.2, hint]
  dsimp only at hs''
  by_cases hap : ap = 0
  · exact .inl hap
  · right
    rw [if_neg hap] at hs''
    use (hs''.room _ List.mem_cons_self).2
    obtain ⟨c, hc, -, hstop⟩ := hs''.room_used List.mem_cons_self
    exact hstop.trans (hs''.stop_le hc)

/-! ### Large requests -/

/-- When no block is big enough, `malloc` calls `sbrk`, and a negative argument stops it. -/
theorem search_checked
    {nunits n prevp : Nat} {answers : List Bool} (hsize : h.size h.freep < nunits)
    (hge : 2 ^ 31 ≤ Heap.coreBytes nunits) :
  Heap.search Heap.checked nunits n prevp h.freep h answers = none
  := by
  cases n with
  | zero => rfl
  | succ n =>
    rw [Heap.search, if_neg (Nat.not_le.mpr hsize), if_pos rfl, Heap.morecore, Heap.checked,
      if_neg (Nat.not_lt.mpr hge)]
    rfl

/-- `malloc` is honest on every heap exactly for the requests that, with the header and the
rounding, stay below `2 ^ 31` bytes.  From there on `morecore` calls `sbrk` with a negative
argument, and for the last requests the number of units is too small. -/
theorem malloc_honest_iff (nbytes : UInt32) :
  (∀ base s answers, Inv base s → Honest base s.heap nbytes.toNat answers) ↔
    nbytes.toNat + 16 ≤ 2 ^ 31
  := by
  have hlt := nbytes.toNat_lt
  generalize nbytes.toNat = nbytes at *
  constructor
  · intro hall
    obtain ⟨ap, h', hmalloc, hblock, hchecked⟩ := hall 100 fresh [true] (.inl fresh_initial)
    rw [Heap.malloc] at hmalloc hchecked
    by_contra hle
    have hunits : 2 ^ 28 ≤ Heap.units nbytes ∧ Heap.units nbytes < 2 ^ 29 ∨
        Heap.units nbytes = 2 ^ 29 ∨ Heap.units nbytes = 1 ∧ 2 ^ 32 - 8 < nbytes := by
      simp only [Heap.units, HSIZE]
      omega
    obtain ⟨hge, hlt⟩ | heq | ⟨heq, hbig⟩ := hunits
    · -- The argument of `sbrk` is the number of bytes, and it is negative.
      have hempty :
          (fresh.heap.start 100).size (fresh.heap.start 100).freep < Heap.units nbytes := by
        change 0 < _
        omega
      have hneg : 2 ^ 31 ≤ Heap.coreBytes (Heap.units nbytes) := by
        rw [Heap.coreBytes, Heap.coreUnits, if_neg (by omega)]
        simp only [HSIZE]
        omega
      have hstop := hchecked.symm.trans (search_checked hempty hneg)
      cases hstop
    · -- The bytes are a multiple of `2 ^ 32`, and `sbrk(0)` adds no memory.
      have hrun : (Heap.search Heap.sbrkInt (2 ^ 29) steps 100 100 (fresh.heap.start 100)
          [true]).map (fun r => (r.1, r.2.brk)) = some (4104, 4096) := by
        decide +kernel
      rw [heq] at hmalloc
      rw [show Heap.search Heap.sbrkInt (2 ^ 29) steps 100 100 (fresh.heap.start 100) [true] = _
        from hmalloc] at hrun
      obtain ⟨rfl, hbrk⟩ := Prod.mk.inj (Option.some.inj hrun)
      dsimp only at hblock hbrk
      omega
    · -- The sum with the header is a multiple of `2 ^ 32`, and the block has a header only.
      have hrun : (Heap.search Heap.sbrkInt 1 steps 100 100 (fresh.heap.start 100) [true]).map
          (fun r => (r.1, r.2.size (r.1 - HSIZE))) = some (36864, 1) := by
        decide +kernel
      rw [heq] at hmalloc
      rw [show Heap.search Heap.sbrkInt 1 steps 100 100 (fresh.heap.start 100) [true] = _
        from hmalloc] at hrun
      obtain ⟨rfl, hsize⟩ := Prod.mk.inj (Option.some.inj hrun)
      dsimp only at hblock hsize
      rw [hsize] at hblock
      omega
  · intro hle base s answers hs
    exact honest_of_le hs answers hle

/-- The first call of a program: a request of `2 ^ 32 - 1` bytes returns a block with a header only,
and a request of `2 ^ 31` bytes calls `sbrk` with a negative argument. -/
theorem malloc_huge :
  Inv 100 fresh ∧
  (fresh.heap.malloc Heap.sbrkInt steps 100 (2 ^ 32 - 1) [true]).map
    (fun r => (r.1, HSIZE * r.2.size (r.1 - HSIZE) - HSIZE)) = some (36864, 0) ∧
  Heap.coreBytes (Heap.units (2 ^ 31)) = 2 ^ 31 + 8 ∧
  (fresh.heap.malloc Heap.sbrkInt steps 100 (2 ^ 31) [true]).isSome ∧
  (fresh.heap.malloc Heap.checked steps 100 (2 ^ 31) [true]).isNone
  := by
  refine ⟨.inl fresh_initial, ?_, ?_, ?_, ?_⟩
  all_goals decide +kernel

end Xv6.Umalloc
