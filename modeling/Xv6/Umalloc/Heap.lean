import Mathlib.Algebra.Order.BigOperators.Group.Finset
import Xv6.Lib.Transition

/-!
# The memory allocator of user programs

`free`, `morecore` and `malloc` of `umalloc.c`.  Pointers are addresses, and `mem` holds the headers
by their addresses.  `answers` says which calls of `sbrk` find memory.  Every iteration of a loop
uses up one unit of fuel.
-/

namespace Xv6.Umalloc

/-- `sizeof(Header)`. -/
abbrev HSIZE : Nat := 8

/-- `Header`. -/
structure Header where
  ptr : Nat
  size : Nat
  deriving DecidableEq, Repr

/-- The memory of the program, as far as the allocator uses it. -/
structure Heap where
  /-- The headers, by address. -/
  mem : Nat → Header
  freep : Nat
  /-- The end of the memory of the program. -/
  brk : Nat

namespace Heap

/-- `p->s.ptr` -/
def ptr (h : Heap) (p : Nat) : Nat :=
  (h.mem p).ptr

/-- `p->s.size` -/
def size (h : Heap) (p : Nat) : Nat :=
  (h.mem p).size

/-- `p->s.ptr = x` -/
def setPtr (h : Heap) (p x : Nat) : Heap :=
  { h with mem := Function.update h.mem p { h.mem p with ptr := x } }

/-- `p->s.size = x` -/
def setSize (h : Heap) (p x : Nat) : Heap :=
  { h with mem := Function.update h.mem p { h.mem p with size := x } }

/-- `freep = p` -/
def setFreep (h : Heap) (p : Nat) : Heap :=
  { h with freep := p }

/-- The loop of `free`: the block after which `bp` belongs. -/
def findPlace (h : Heap) (bp : Nat) : Nat → Nat → Option Nat
  | 0, _ => none
  | n + 1, p =>
      if bp > p ∧ bp < h.ptr p then some p
      else if p ≥ h.ptr p ∧ (bp > p ∨ bp < h.ptr p) then some p
      else findPlace h bp n (h.ptr p)

/-- `free` joins the block with the one behind it, or links to it. -/
def joinUpper (h : Heap) (bp p : Nat) : Heap :=
  if bp + HSIZE * h.size bp = h.ptr p then
    (h.setSize bp (h.size bp + h.size (h.ptr p))).setPtr bp (h.ptr (h.ptr p))
  else h.setPtr bp (h.ptr p)

/-- `free` joins the block with the one before it, or links to it. -/
def joinLower (h : Heap) (bp p : Nat) : Heap :=
  if p + HSIZE * h.size p = bp then
    (h.setSize p (h.size p + h.size bp)).setPtr p (h.ptr bp)
  else h.setPtr p bp

/-- `free` -/
def free (n : Nat) (h : Heap) (ap : Nat) : Option Heap := do
  let bp := ap - HSIZE
  let p ← h.findPlace bp n h.freep
  some (((h.joinUpper bp p).joinLower bp p).setFreep p)

/-- `sbrk` for a positive `n`: the old break, if there is memory. -/
def sbrk (h : Heap) (n : Nat) (ok : Bool) : Option (Nat × Heap) :=
  if ok ∧ h.brk + n < 2 ^ 32 then some (h.brk, { h with brk := h.brk + n }) else none

/-- What a call of `sbrk` does: `none` when the program stops there, and `some none` when the call
fails. -/
abbrev Sbrk : Type := Heap → Nat → Bool → Option (Option (Nat × Heap))

/-- `sbrk` where all arguments are positive. -/
def growing : Sbrk := fun h n ok => some (h.sbrk n ok)

/-- The units that `morecore` asks for. -/
def coreUnits (nu : Nat) : Nat :=
  if nu < 4096 then 4096 else nu

/-- The argument of `sbrk` in `morecore`. -/
def coreBytes (nu : Nat) : Nat :=
  coreUnits nu * HSIZE % 2 ^ 32

/-- `morecore`: its result and the memory after it. -/
def morecore (sbrk : Sbrk) (n : Nat) (h : Heap) (nu : Nat) (ok : Bool) : Option (Nat × Heap) := do
  match ← sbrk h (coreBytes nu) ok with
  | none => some (0, h)
  | some (hp, h) =>
      let h ← (h.setSize hp (coreUnits nu)).free n (hp + HSIZE)
      some (h.freep, h)

/-- `malloc` takes `nunits` units from the block `p`. -/
def take (h : Heap) (nunits prevp p : Nat) : Nat × Heap :=
  if h.size p = nunits then (p + HSIZE, (h.setPtr prevp (h.ptr p)).setFreep prevp)
  else
    let h := h.setSize p (h.size p - nunits)
    let p := p + HSIZE * h.size p
    (p + HSIZE, (h.setSize p nunits).setFreep prevp)

/-- The loop of `malloc`. -/
def search (sbrk : Sbrk) (nunits : Nat) :
    Nat → Nat → Nat → Heap → List Bool → Option (Nat × Heap)
  | 0, _, _, _, _ => none
  | n + 1, prevp, p, h, answers =>
      if h.size p ≥ nunits then some (h.take nunits prevp p)
      else if p = h.freep then do
        let (p, h) ← h.morecore sbrk n nunits (answers.headD false)
        if p = 0 then some (0, h) else search sbrk nunits n p (h.ptr p) h answers.tail
      else search sbrk nunits n p (h.ptr p) h answers

/-- `malloc` starts with an empty list. -/
def start (h : Heap) (base : Nat) : Heap :=
  if h.freep = 0 then ((h.setPtr base base).setFreep base).setSize base 0 else h

/-- The units that `malloc` looks for. -/
def units (nbytes : Nat) : Nat :=
  (nbytes + HSIZE - 1) % 2 ^ 32 / HSIZE + 1

/-- `malloc`, with the header `base` at the given address. -/
def malloc (sbrk : Sbrk) (n base : Nat) (h : Heap) (nbytes : Nat) (answers : List Bool) :
    Option (Nat × Heap) :=
  let h := h.start base
  search sbrk (units nbytes) n h.freep (h.ptr h.freep) h answers

end Heap

/-- A program that uses the allocator. -/
structure St where
  heap : Heap
  /-- The pointers that `malloc` returned and that are not freed yet, with the sizes asked for. -/
  live : List (Nat × Nat)
  /-- The memory that `morecore` obtained, as start and size in bytes. -/
  arena : List (Nat × Nat)

/-- The calls of a program. -/
inductive Label where
  | malloc (nbytes : Nat) (answers : List Bool)
  | free (ap : Nat)
  /-- Another call of `sbrk` with a positive argument. -/
  | sbrk (n : Nat) (ok : Bool)
  deriving DecidableEq, Repr

/-- A call that does not return. -/
inductive Fault where
  | diverges
  deriving DecidableEq, Repr

/-- More iterations than there are headers in the memory, twice. -/
def steps : Nat :=
  2 ^ 34

/-- What is in use after a call of `malloc` that returned `ap`. -/
def St.allocated (s : St) (nbytes ap : Nat) (h : Heap) : St where
  heap := h
  live := if ap = 0 then s.live else (ap, nbytes) :: s.live
  arena := if h.brk = s.heap.brk then s.arena else (s.heap.brk, h.brk - s.heap.brk) :: s.arena

/-- One call. -/
def St.next (base : Nat) (s : St) : Label → Option (Except Fault St)
  | .malloc nbytes answers =>
      if nbytes + 16 < 2 ^ 31 then
        match s.heap.malloc Heap.growing steps base nbytes answers with
        | none => some (.error .diverges)
        | some (ap, h) => some (.ok (s.allocated nbytes ap h))
      else none
  | .free ap =>
      match s.live.find? (·.1 = ap) with
      | none => none
      | some b =>
          match s.heap.free steps ap with
          | none => some (.error .diverges)
          | some h => some (.ok { s with heap := h, live := s.live.erase b })
  | .sbrk n ok =>
      if 0 < n then
        match s.heap.sbrk n ok with
        | none => some (.ok s)
        | some (_, h) => some (.ok { s with heap := h })
      else none

/-- Before the first call. The header `base` lies in the memory of the program. -/
structure Initial (base : Nat) (s : St) : Prop where
  pos : 0 < base
  brk : base + HSIZE ≤ s.heap.brk
  limit : s.heap.brk < 2 ^ 32
  freep : s.heap.freep = 0
  live : s.live = []
  arena : s.arena = []

/-- A program with the header `base` at the given address. -/
def program (base : Nat) : System St Label Fault where
  init := Initial base
  step := St.next base

end Xv6.Umalloc
