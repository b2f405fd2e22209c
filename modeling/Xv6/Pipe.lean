import Mathlib.Data.UInt
import Xv6.Lib.Ring
import Xv6.Lib.Transition

/-!
# Pipes

`pipewrite`, `piperead` and `pipeclose` of `pipe.c`.  The code of a call between two points at
which it sleeps runs under `p->lock`, so that it is one step; a process that sleeps may go on at
any time.
-/

namespace Xv6.Pipes

/-- `PIPESIZE` -/
abbrev PIPESIZE : Nat := 512

/-- `struct pipe` without its lock. -/
structure Pipe where
  data : Fin PIPESIZE → UInt8
  nread : UInt32
  nwrite : UInt32
  readopen : Bool
  writeopen : Bool

namespace Pipe

/-- The test of `pipewrite` for a full pipe. -/
abbrev Full (p : Pipe) : Prop := p.nwrite = p.nread + .ofNat PIPESIZE

/-- The test of `piperead` for an empty pipe. -/
abbrev Empty (p : Pipe) : Prop := p.nread = p.nwrite

/-- `p->data[p->nwrite++ % PIPESIZE] = b` -/
def put (p : Pipe) (b : UInt8) : Pipe :=
  { p with data := Function.update p.data (.ofNat PIPESIZE p.nwrite.toNat) b,
           nwrite := p.nwrite + 1 }

/-- `p->data[p->nread % PIPESIZE]` -/
def first (p : Pipe) : UInt8 := p.data (.ofNat PIPESIZE p.nread.toNat)

/-- `p->nread++` -/
def drop (p : Pipe) : Pipe := { p with nread := p.nread + 1 }

end Pipe

/-- How a part of `pipewrite` ends. -/
inductive WriteEnd where
  /-- All bytes are written. -/
  | done
  /-- It returns `-1`. -/
  | fail
  | asleep
  deriving DecidableEq, Repr

/-- The loop of `pipewrite` over the bytes that are left: the pipe and the bytes still left when
it ends. -/
def pipewrite (killed : Bool) : Pipe → List UInt8 → Pipe × List UInt8 × WriteEnd
  | p, [] => (p, [], .done)
  | p, b :: bs =>
      if p.Full then
        if p.readopen = false ∨ killed then (p, b :: bs, .fail) else (p, b :: bs, .asleep)
      else pipewrite killed (p.put b) bs

/-- The copy loop of `piperead` for at most `n` bytes. -/
def copyLoop : Pipe → Nat → Pipe × List UInt8
  | p, 0 => (p, [])
  | p, n + 1 =>
      if p.Empty then (p, [])
      else
        let r := copyLoop p.drop n
        (r.1, p.first :: r.2)

/-- How a part of `piperead` ends. -/
inductive ReadEnd where
  /-- It returns `-1`. -/
  | fail
  | asleep
  /-- It returns the number of these bytes, which it stored in the reader's buffer. -/
  | copied (bytes : List UInt8)
  deriving DecidableEq, Repr

/-- The value that `piperead` returns, if it does. -/
def ReadEnd.value : ReadEnd → Option Int
  | .fail => some (-1)
  | .asleep => none
  | .copied bytes => some bytes.length

/-- The bytes that `piperead` stores in the reader's buffer. -/
def ReadEnd.bytes : ReadEnd → List UInt8
  | .copied bytes => bytes
  | _ => []

/-- `piperead` from its start or from the return of `sleep`: both go to the test of the first
loop. -/
def piperead (killed : Bool) (p : Pipe) (n : Int) : Pipe × ReadEnd :=
  if p.Empty ∧ p.writeopen then
    if killed then (p, .fail) else (p, .asleep)
  else
    let r := copyLoop p n.toNat
    (r.1, .copied r.2)

/-- `pipeclose`, as long as the pipe is not freed. -/
def pipeclose (p : Pipe) (writable : Bool) : Pipe :=
  if writable then { p with writeopen := false } else { p with readopen := false }

/-! ### Readers and writers -/

/-- What a process does with the pipe. -/
inductive Phase where
  | idle
  /-- Asleep in `pipewrite` with these bytes left. -/
  | writing (left : List UInt8)
  /-- Asleep in `piperead` with this `n`. -/
  | reading (n : Int)
  deriving DecidableEq, Repr

/-- The pipe and the processes that use it, with all bytes that were taken from writers and all
bytes that were stored in readers' buffers so far. -/
structure PipeSys (P : Type) where
  pipe : Pipe
  phase : P → Phase
  killed : P → Bool
  taken : List UInt8
  stored : List UInt8

inductive Label (P : Type) where
  /-- Call `pipewrite` with `n` bytes at `addr`. -/
  | write (p : P) (addr : Nat → UInt8) (n : Int)
  | read (p : P) (n : Int)
  /-- A process that sleeps goes on. -/
  | resume (p : P)
  | close (writable : Bool)
  | kill (p : P)

namespace PipeSys

variable {P : Type} [DecidableEq P]

/-- A part of `pipewrite` of the process `p`. -/
def write (s : PipeSys P) (p : P) (bytes : List UInt8) : PipeSys P :=
  let r := pipewrite (s.killed p) s.pipe bytes
  { s with
    pipe := r.1
    phase := Function.update s.phase p (if r.2.2 = .asleep then .writing r.2.1 else .idle)
    taken := s.taken ++ bytes.take (bytes.length - r.2.1.length) }

/-- A part of `piperead` of the process `p`. -/
def read (s : PipeSys P) (p : P) (n : Int) : PipeSys P :=
  let r := piperead (s.killed p) s.pipe n
  { s with
    pipe := r.1
    phase := Function.update s.phase p (if r.2 = .asleep then .reading n else .idle)
    stored := s.stored ++ r.2.bytes }

/-- One step. -/
def step (s : PipeSys P) : Label P → Option (Except Empty (PipeSys P))
  | .write p addr n =>
      if s.phase p = .idle then some (.ok (s.write p ((List.range n.toNat).map addr))) else none
  | .read p n => if s.phase p = .idle then some (.ok (s.read p n)) else none
  | .resume p =>
      match s.phase p with
      | .idle => none
      | .writing left => some (.ok (s.write p left))
      | .reading n => some (.ok (s.read p n))
  | .close writable => some (.ok { s with pipe := pipeclose s.pipe writable })
  | .kill p => some (.ok { s with killed := Function.update s.killed p true })

end PipeSys

/-- Any number of processes use a pipe that is empty at first. -/
def pipeSystem (P : Type) [DecidableEq P] : System (PipeSys P) (Label P) Empty where
  init s := s.pipe.nread = s.pipe.nwrite ∧ s.taken = [] ∧ s.stored = [] ∧ ∀ p, s.phase p = .idle
  step := PipeSys.step

/-! ### The pipe as a queue -/

/-- The pipe holds a list of bytes. -/
structure Pipe.Holds (p : Pipe) (l : List UInt8) : Prop where
  length_le : l.length ≤ PIPESIZE
  nwrite_eq : p.nwrite = p.nread + .ofNat l.length
  data : Ring.Holds p.data p.nread.toNat l

section

variable {p : Pipe} {l : List UInt8}

/-- The number of bytes in the pipe. -/
theorem Pipe.Holds.length_eq (h : p.Holds l) :
  (p.nwrite - p.nread).toNat = l.length
  := by
  have hle := h.length_le
  have hlt := p.nread.toNat_lt
  rw [h.nwrite_eq, UInt32.toNat_sub, UInt32.toNat_add, UInt32.toNat_ofNat']
  simp only [PIPESIZE] at hle
  omega

theorem Pipe.Holds.full_iff (h : p.Holds l) :
  p.Full ↔ l.length = PIPESIZE
  := by
  have hlen := h.length_eq
  constructor
  · intro hfull
    rw [← hlen, hfull, UInt32.toNat_sub, UInt32.toNat_add]
    have := p.nread.toNat_lt
    simp only [UInt32.toNat_ofNat', PIPESIZE]
    omega
  · intro hfull
    rw [Full, h.nwrite_eq, hfull]

theorem Pipe.Holds.empty_iff (h : p.Holds l) :
  p.Empty ↔ l = []
  := by
  constructor
  · intro hempty
    rw [← List.length_eq_zero_iff, ← h.length_eq, hempty, UInt32.sub_self, UInt32.toNat_zero]
  · rintro rfl
    rw [Empty, h.nwrite_eq, List.length_nil]
    exact (UInt32.add_zero _).symm

theorem Pipe.Holds.put (h : p.Holds l) (hfull : ¬ p.Full) (b : UInt8) :
  (p.put b).Holds (l ++ [b])
  := by
  have hle := h.length_le
  rw [h.full_iff] at hfull
  constructor
  · rw [List.length_append, List.length_singleton]
    omega
  · rw [Pipe.put, h.nwrite_eq, List.length_append, List.length_singleton, UInt32.ofNat_add,
      UInt32.add_assoc]
    rfl
  · have hcell : Fin.ofNat PIPESIZE p.nwrite.toNat =
        Fin.ofNat PIPESIZE (p.nread.toNat + l.length) := by
      rw [Ring.ofNat_eq_iff, h.nwrite_eq, Ring.toNat_add_mod (by decide)]
    rw [Pipe.put, hcell]
    apply h.data.push
    omega

theorem Pipe.Holds.drop {b : UInt8} (h : p.Holds (b :: l)) :
  p.first = b ∧ p.drop.Holds l
  := by
  obtain ⟨hfirst, hrest⟩ := h.data.pop
  use hfirst
  constructor
  · apply Nat.le_of_succ_le h.length_le
  · rw [Pipe.drop, h.nwrite_eq, List.length_cons, Nat.add_comm, UInt32.ofNat_add,
      ← UInt32.add_assoc]
    rfl
  · apply hrest.congr
    apply Ring.toNat_add_mod (by decide) p.nread 1

/-- `pipewrite` takes bytes from the front of its buffer and appends them. -/
theorem pipewrite_spec (killed : Bool) (bytes : List UInt8) (h : p.Holds l) :
  ∃ taken, bytes = taken ++ (pipewrite killed p bytes).2.1 ∧
    (pipewrite killed p bytes).1.Holds (l ++ taken)
  := by
  induction bytes generalizing p l with
  | nil =>
    use [], rfl
    rw [List.append_nil]
    apply h
  | cons b bytes ih =>
    rw [pipewrite]
    split
    · use []
      rw [List.append_nil]
      split
      · exact ⟨rfl, h⟩
      · exact ⟨rfl, h⟩
    · rename_i hfull
      obtain ⟨taken, hbytes, hholds⟩ := ih (h.put hfull b)
      use b :: taken
      rw [List.append_assoc] at hholds
      exact ⟨congrArg (b :: ·) hbytes, hholds⟩

/-- The copy loop gives the first bytes and leaves the others.  It stops early only when there are
no more. -/
theorem copyLoop_spec {n : Nat} (h : p.Holds l) :
  (copyLoop p n).2 = l.take n ∧ (copyLoop p n).1.Holds (l.drop n)
  := by
  induction n generalizing p l with
  | zero => exact ⟨rfl, h⟩
  | succ n ih =>
    rw [copyLoop]
    split
    · rename_i hempty
      obtain rfl := h.empty_iff.mp hempty
      exact ⟨rfl, h⟩
    · rename_i hempty
      match l with
      | [] => exact absurd (h.empty_iff.mpr rfl) hempty
      | b :: l =>
        obtain ⟨hfirst, hdrop⟩ := h.drop
        obtain ⟨hbytes, hholds⟩ := ih hdrop
        exact ⟨congrArg₂ List.cons hfirst hbytes, hholds⟩

/-- `piperead` gives bytes from the front and leaves the others. -/
theorem piperead_spec (killed : Bool) (n : Int) (h : p.Holds l) :
  ∃ left, l = (piperead killed p n).2.bytes ++ left ∧ (piperead killed p n).1.Holds left
  := by
  rw [piperead]
  split
  · use l
    split
    · exact ⟨rfl, h⟩
    · exact ⟨rfl, h⟩
  · obtain ⟨hbytes, hholds⟩ := copyLoop_spec (n := n.toNat) h
    use l.drop n.toNat
    constructor
    · rw [ReadEnd.bytes, hbytes, List.take_append_drop]
    · apply hholds

/-- `piperead` for at least one byte returns `0` only if there is none and the write end is
closed. -/
theorem piperead_eq_zero {killed : Bool} {n : Int} (h : p.Holds l) (hn : 0 < n)
    (hzero : (piperead killed p n).2.value = some 0) :
  p.writeopen = false ∧ l = []
  := by
  rw [piperead] at hzero
  split at hzero
  · split at hzero
    · cases hzero
    · cases hzero
  · rename_i hopen
    have hlen : ((copyLoop p n.toNat).2.length : Int) = 0 := Option.some.inj hzero
    rw [(copyLoop_spec h).1, List.length_take] at hlen
    have hnil : l = [] := by
      apply List.eq_nil_of_length_eq_zero
      omega
    refine ⟨Bool.eq_false_iff.mpr ?_, hnil⟩
    intro hwrite
    apply hopen
    exact ⟨h.empty_iff.mpr hnil, hwrite⟩

end

/-! ### Runs -/

variable {P : Type} [DecidableEq P]

/-- The bytes taken are the bytes stored and the bytes in the pipe, in this order. -/
def Inv (s : PipeSys P) : Prop :=
  ∃ l, s.pipe.Holds l ∧ s.taken = s.stored ++ l

section

variable {s : PipeSys P}

theorem Inv.write (h : Inv s) (p : P) (bytes : List UInt8) :
  Inv (s.write p bytes)
  := by
  obtain ⟨l, hholds, htaken⟩ := h
  obtain ⟨taken, hbytes, hholds'⟩ := pipewrite_spec (s.killed p) bytes hholds
  use l ++ taken, hholds'
  have htake : ∀ left, bytes = taken ++ left →
      bytes.take (bytes.length - left.length) = taken := by
    rintro left rfl
    simp
  rw [PipeSys.write, htake _ hbytes, htaken, List.append_assoc]

theorem Inv.read (h : Inv s) (p : P) (n : Int) :
  Inv (s.read p n)
  := by
  obtain ⟨l, hholds, htaken⟩ := h
  obtain ⟨left, hl, hholds'⟩ := piperead_spec (s.killed p) n hholds
  use left, hholds'
  rw [PipeSys.read, htaken, List.append_assoc, ← hl]

theorem Inv.step {s' : PipeSys P} {l : Label P} (h : Inv s) (hstep : s.step l = some (.ok s')) :
  Inv s'
  := by
  cases l with
  | write p addr n =>
    simp only [PipeSys.step, Option.ite_none_right_eq_some, Option.some.injEq,
      Except.ok.injEq] at hstep
    rw [← hstep.2]
    apply h.write
  | read p n =>
    simp only [PipeSys.step, Option.ite_none_right_eq_some, Option.some.injEq,
      Except.ok.injEq] at hstep
    rw [← hstep.2]
    apply h.read
  | resume p =>
    simp only [PipeSys.step] at hstep
    split at hstep
    · cases hstep
    · cases hstep
      apply h.write
    · cases hstep
      apply h.read
  | close writable =>
    cases hstep
    obtain ⟨l, hholds, htaken⟩ := h
    refine ⟨l, ?_, htaken⟩
    simp only [pipeclose]
    split
    · exact ⟨hholds.length_le, hholds.nwrite_eq, hholds.data⟩
    · exact ⟨hholds.length_le, hholds.nwrite_eq, hholds.data⟩
  | kill p =>
    cases hstep
    apply h

theorem reach_inv (h : (pipeSystem P).Reachable s) :
  Inv s
  := by
  apply h.invariant
  · rintro s ⟨hnread, htaken, hstored, -⟩
    refine ⟨[], ⟨Nat.zero_le _, ?_, Ring.Holds.nil⟩, ?_⟩
    · rw [← hnread]
      exact (UInt32.add_zero _).symm
    · rw [htaken, hstored]
      rfl
  · intro s l s' hs _ hstep
    apply hs.step hstep

/-- A pipe is a bounded queue that loses nothing: it never holds more than `PIPESIZE` bytes, the
bytes stored by readers are the first of those taken from writers, and the others are in the pipe.
A process that is not killed and reads at least one byte gets `0` only if the write end is closed
and all bytes written have been read. -/
theorem pipe_fifo (h : (pipeSystem P).Reachable s) :
  (s.pipe.nwrite - s.pipe.nread).toNat ≤ PIPESIZE ∧
  s.stored <+: s.taken ∧
  s.taken.length = s.stored.length + (s.pipe.nwrite - s.pipe.nread).toNat ∧
  ∀ p n, s.killed p = false → 0 < n → (piperead (s.killed p) s.pipe n).2.value = some 0 →
    s.pipe.writeopen = false ∧ s.stored = s.taken
  := by
  obtain ⟨l, hholds, htaken⟩ := reach_inv h
  rw [hholds.length_eq]
  use hholds.length_le
  and_intros
  · rw [htaken]
    apply List.prefix_append
  · rw [htaken, List.length_append]
  · intro p n _ hn hzero
    obtain ⟨hclosed, rfl⟩ := piperead_eq_zero hholds hn hzero
    use hclosed
    rw [htaken, List.append_nil]

end

/-- An empty pipe whose counters are about to wrap around. -/
def lastPipe : PipeSys Bool where
  pipe := ⟨fun _ => 0, 2 ^ 32 - 1, 2 ^ 32 - 1, true, true⟩
  phase _ := .idle
  killed _ := false
  taken := []
  stored := []

theorem pipe_fifo_wrapped :
  ∃ s, (pipeSystem Bool).run lastPipe [.write true (fun i => .ofNat (i + 7)) 3, .read false 2] =
      some s ∧ s.pipe.nwrite = 2 ∧ s.stored = [7, 8] ∧ s.stored <+: s.taken
  := by
  obtain ⟨s, hs, hreach, hnwrite, hstored⟩ := System.exists_of_run (pipeSystem Bool)
    (show (pipeSystem Bool).init lastPipe from ⟨rfl, rfl, rfl, fun _ => rfl⟩)
    [.write true (fun i => .ofNat (i + 7)) 3, .read false 2]
    (fun s => s.pipe.nwrite = 2 ∧ s.stored = [7, 8]) (by decide +kernel)
  exact ⟨s, hs, hnwrite, hstored, (pipe_fifo hreach).2.1⟩

/-! ### A closed read end -/

/-- With the read end closed, `pipewrite` stores its bytes and returns `n` if there is room for all
of them. -/
theorem pipewrite_closed
    {p : Pipe} {l : List UInt8} (h : p.Holds l) (hclosed : p.readopen = false) (killed : Bool)
    (bytes : List UInt8) :
  (pipewrite killed p bytes).2.2
    = if l.length + bytes.length ≤ PIPESIZE then .done else .fail
  := by
  induction bytes generalizing p l with
  | nil =>
    rw [List.length_nil, Nat.add_zero, if_pos h.length_le]
    rfl
  | cons b bytes ih =>
    rw [pipewrite]
    split
    · rename_i hfull
      rw [h.full_iff] at hfull
      rw [if_pos (.inl hclosed), List.length_cons, if_neg (by omega)]
    · rename_i hfull
      rw [ih (h.put hfull b) hclosed, List.length_append, List.length_singleton, List.length_cons,
        Nat.add_assoc, Nat.add_comm 1]

/-- When the read end is closed, a call of `pipewrite` returns `-1` if and only if there is no room
in the pipe for its `n` bytes, and a call that was asleep returns `-1` if and only if there is no
room for the bytes that it has left.  Otherwise they return `n`. -/
theorem pipewrite_after_close_iff
    {s : PipeSys P} (h : (pipeSystem P).Reachable s) (hclosed : s.pipe.readopen = false)
    {room : Nat} (hroom : room = PIPESIZE - (s.pipe.nwrite - s.pipe.nread).toNat) (p : P) :
  (∀ addr (n : Int), 0 < n → s.phase p = .idle →
    ((pipewrite (s.killed p) s.pipe ((List.range n.toNat).map addr)).2.2 = .fail ↔ room < n) ∧
    ((pipewrite (s.killed p) s.pipe ((List.range n.toNat).map addr)).2.2 = .done ↔ n ≤ room)) ∧
  ∀ left, s.phase p = .writing left →
    ((pipewrite (s.killed p) s.pipe left).2.2 = .fail ↔ room < left.length) ∧
    ((pipewrite (s.killed p) s.pipe left).2.2 = .done ↔ left.length ≤ room)
  := by
  obtain ⟨l, hholds, -⟩ := reach_inv h
  have hle := hholds.length_le
  rw [hholds.length_eq] at hroom
  have hend : ∀ bytes, ((pipewrite (s.killed p) s.pipe bytes).2.2 = .fail ↔ room < bytes.length) ∧
      ((pipewrite (s.killed p) s.pipe bytes).2.2 = .done ↔ bytes.length ≤ room) := by
    intro bytes
    rw [pipewrite_closed hholds hclosed]
    split
    · simp only [reduceCtorEq, false_iff, true_iff]
      omega
    · simp only [reduceCtorEq, false_iff, true_iff]
      omega
  constructor
  · intro addr n hn _
    have hbytes := hend ((List.range n.toNat).map addr)
    rw [List.length_map, List.length_range] at hbytes
    rw [hbytes.1, hbytes.2]
    omega
  · exact fun left _ => hend left

/-- The read end is closed, and a byte is written. -/
theorem pipewrite_without_reader :
  ∃ s, (pipeSystem Bool).Reachable s ∧ s.pipe.readopen = false ∧ s.phase true = .idle ∧
    (pipewrite (s.killed true) s.pipe ((List.range 1).map fun _ => 7)).2.2 = .done
  := by
  obtain ⟨s, -, hreach, hs⟩ := System.exists_of_run (pipeSystem Bool)
    (show (pipeSystem Bool).init lastPipe from ⟨rfl, rfl, rfl, fun _ => rfl⟩) [.close false]
    (fun s => s.pipe.readopen = false ∧ s.phase true = .idle ∧
      (pipewrite (s.killed true) s.pipe ((List.range 1).map fun _ => 7)).2.2 = .done)
    (by decide +kernel)
  exact ⟨s, hreach, hs⟩

/-- The read end is closed, and more bytes are written than the pipe holds. -/
theorem pipewrite_after_close_full :
  ∃ s, (pipeSystem Bool).Reachable s ∧ s.pipe.readopen = false ∧
    (pipewrite (s.killed true) s.pipe ((List.range (513 : Int).toNat).map fun _ => 7)).2.2 = .fail
  := by
  obtain ⟨s, -, hreach, hclosed, hphase, hnread⟩ := System.exists_of_run (pipeSystem Bool)
    (show (pipeSystem Bool).init lastPipe from ⟨rfl, rfl, rfl, fun _ => rfl⟩) [.close false]
    (fun s => s.pipe.readopen = false ∧ s.phase true = .idle ∧ s.pipe.nwrite = s.pipe.nread)
    (by decide +kernel)
  have hroom : 512 = PIPESIZE - (s.pipe.nwrite - s.pipe.nread).toNat := by
    rw [hnread, UInt32.sub_self]
    rfl
  have hwrite := (pipewrite_after_close_iff hreach hclosed hroom true).1 (fun _ => 7) 513
    (by decide) hphase
  exact ⟨s, hreach, hclosed, hwrite.1.mpr (by decide)⟩

end Xv6.Pipes
