import Mathlib.Data.Fintype.Card
import Xv6.Block
import Xv6.Lib.LinkedQueue
import Xv6.Lib.Transition

/-!
# The disk driver

`iderw` and `ideintr` of `ide.c`.  The code of a call between two points at which it sleeps runs
under `idelock`, so that it is one step; `kill` may wake a process up at any time.  The device
raises one interrupt for each command.  A process calls `iderw` for a buffer it has locked, and
buffers that are locked are changed only by the process that holds the lock.
-/

namespace Xv6.Ide

open Function

/-- `SECTOR_SIZE` -/
abbrev SECTOR_SIZE : Nat := 512

/-- `struct buf`, with the bits of `flags` as fields and the holder of the lock, without the fields
of the cache.  The buffers are `B`, and the processes `P`. -/
structure Buf (P B : Type) where
  /-- `B_VALID` in `flags`. -/
  valid : Bool
  /-- `B_DIRTY` in `flags`. -/
  dirty : Bool
  dev : UInt32
  blockno : UInt32
  lock : Option P
  qnext : Option B
  data : Block

/-- What `idestart` writes to the ports of the device. -/
structure Command where
  count : UInt8
  lba0 : UInt8
  lba1 : UInt8
  lba2 : UInt8
  drive : UInt8
  /-- The data of a write command; a read command has none. -/
  data : Option Block

/-- The calls of `panic`, and a walk along the queue that does not end. -/
inductive Fault where
  /-- `panic("iderw: buf not locked")` -/
  | notLocked
  /-- `panic("iderw: nothing to do")` -/
  | nothingToDo
  /-- `panic("iderw: ide disk 1 not present")` -/
  | noDisk1
  /-- `panic("idestart")` -/
  | idestart
  /-- `panic("incorrect blockno")` -/
  | incorrectBlockno
  | cycle
  deriving DecidableEq, Repr

/-- What a process does with the disk.  The number is that of the request, among all requests. -/
inductive Pc (B : Type) where
  | out
  /-- In `sleep(b, &idelock)`, before and after `wakeup(b)`. -/
  | asleep (b : B) (n : Nat)
  | awake (b : B) (n : Nat)
  /-- `iderw(b)` has returned. -/
  | returned (b : B) (n : Nat)
  deriving DecidableEq, Repr

/-- The buffer and the number of the request of a call. -/
def Pc.request {B : Type} : Pc B → Option (B × Nat)
  | .out => none
  | .asleep b n | .awake b n | .returned b n => some (b, n)

/-- The driver, the device and the processes, with all buffers in the order in which they were
submitted, started and completed. -/
structure Driver (P B : Type) where
  buf : B → Buf P B
  idequeue : Option B
  havedisk1 : Bool
  /-- The commands whose interrupts have not been served. -/
  active : List Command
  pc : P → Pc B
  submitted : List B
  started : List B
  completed : List B

/-- `sector_per_block` -/
abbrev sectorPerBlock : Nat := BSIZE / SECTOR_SIZE

/-- The command for a block of a drive. -/
def ports (dev blockno : UInt32) (data : Option Block) : Command :=
  let sector : UInt32 := blockno * .ofNat sectorPerBlock
  { count := .ofNat sectorPerBlock
    lba0 := (sector &&& 0xff).toUInt8
    lba1 := ((sector >>> 8) &&& 0xff).toUInt8
    lba2 := ((sector >>> 16) &&& 0xff).toUInt8
    drive := ((0xe0 : UInt32) ||| ((dev &&& 1) <<< 4) ||| ((sector >>> 24) &&& 0x0f)).toUInt8
    data := data }

namespace Buf

variable {P B : Type}

/-- `(b->flags & (B_VALID|B_DIRTY)) == B_VALID` -/
def synced (b : Buf P B) : Bool := b.valid && !b.dirty

/-- The command that `idestart` gives for a buffer. -/
def command (b : Buf P B) : Command :=
  ports b.dev b.blockno (if b.dirty then some b.data else none)

/-- `if(!(b->flags & B_DIRTY) && idewait(1) >= 0) insl(0x1f0, b->data, BSIZE/4)`.  The device gives
the data, or `idewait` fails. -/
def received (input : Option Block) (b : Buf P B) : Buf P B :=
  if b.dirty then b
  else
    match input with
    | none => b
    | some data => { b with data := data }

end Buf

namespace Driver

variable {P B : Type} [DecidableEq P] [DecidableEq B]

/-- Change a buffer. -/
def modify (s : Driver P B) (b : B) (f : Buf P B → Buf P B) : Driver P B :=
  { s with buf := Function.update s.buf b (f (s.buf b)) }

/-- `idestart` -/
def idestart (s : Driver P B) : Option B → Except Fault (Driver P B)
  | none => .error .idestart
  | some b =>
      if FSSIZE ≤ (s.buf b).blockno.toNat then .error .incorrectBlockno
      else if 7 < sectorPerBlock then .error .idestart
      else .ok { s with
        active := s.active ++ [(s.buf b).command], started := s.started ++ [b] }

/-- `*pp`, where `pp` is the address of `idequeue` or of the `qnext` of a buffer. -/
def load (s : Driver P B) : Option B → Option B
  | none => s.idequeue
  | some a => (s.buf a).qnext

/-- `*pp = x` -/
def store (s : Driver P B) (pp : Option B) (x : Option B) : Driver P B :=
  match pp with
  | none => { s with idequeue := x }
  | some a => s.modify a ({ · with qnext := x })

/-- `for(; *pp; pp=&(*pp)->qnext)`, for a number of rounds. -/
def findEnd (s : Driver P B) : Nat → Option B → Option (Option B)
  | 0, _ => none
  | fuel + 1, pp =>
      match s.load pp with
      | none => some pp
      | some a => s.findEnd fuel (some a)

/-- Append `b` to `idequeue`.  A queue without a cycle has at most one node for each buffer. -/
def append [Fintype B] (s : Driver P B) (b : B) : Except Fault (Driver P B) :=
  let s := s.modify b ({ · with qnext := none })
  match s.findEnd (Fintype.card B + 1) none with
  | none => .error .cycle
  | some pp => .ok { s.store pp (some b) with submitted := s.submitted ++ [b] }

/-- The test of the loop of `iderw` for the request `n`. -/
def wait (s : Driver P B) (p : P) (b : B) (n : Nat) : Driver P B :=
  { s with
    pc := Function.update s.pc p (if (s.buf b).synced then .returned b n else .asleep b n) }

/-- `iderw`, up to its first `sleep`. -/
def iderw [Fintype B] (s : Driver P B) (p : P) (b : B) : Except Fault (Driver P B) :=
  if (s.buf b).lock = none then .error .notLocked
  else if (s.buf b).synced then .error .nothingToDo
  else if (s.buf b).dev ≠ 0 ∧ s.havedisk1 = false then .error .noDisk1
  else do
    let n := s.submitted.length
    let s ← s.append b
    let s ← if s.idequeue = some b then s.idestart (some b) else .ok s
    .ok (s.wait p b n)

/-- What `wakeup(b)` does to a process. -/
def woken (b : B) : Pc B → Pc B
  | .asleep b' n => if b' = b then .awake b' n else .asleep b' n
  | k => k

/-- `ideintr` for the first buffer of the queue, up to its `wakeup`. -/
def finish (s : Driver P B) (b : B) (input : Option Block) : Driver P B :=
  let s := { s with idequeue := (s.buf b).qnext }
  let s := s.modify b (Buf.received input)
  let s := s.modify b ({ · with valid := true, dirty := false })
  { s with pc := fun p => woken b (s.pc p), completed := s.completed ++ [b] }

/-- `ideintr` -/
def ideintr (s : Driver P B) (input : Option Block) : Except Fault (Driver P B) :=
  match s.idequeue with
  | none => .ok s
  | some b =>
      let s := s.finish b input
      if s.idequeue ≠ none then s.idestart s.idequeue else .ok s

end Driver

/-- The steps of the processes and the device. -/
inductive Label (P B : Type) where
  /-- `acquiresleep(&b->lock)` returns. -/
  | acquiresleep (p : P) (b : B)
  | releasesleep (p : P) (b : B)
  /-- The process that holds the lock changes `flags` and `data`. -/
  | write (p : P) (b : B) (valid dirty : Bool) (data : Block)
  /-- A buffer that nobody has locked is used for another block. -/
  | recycle (b : B) (dev blockno : UInt32)
  /-- Call `iderw`. -/
  | iderw (p : P) (b : B)
  /-- A process in `iderw` is woken up, but not for its buffer. -/
  | kill (p : P)
  /-- A process in `iderw` goes on after `sleep`. -/
  | resume (p : P)
  /-- A process goes on after `iderw`. -/
  | leave (p : P)
  /-- The interrupt of the oldest command is served. -/
  | ideintr (input : Option Block)

namespace Driver

variable {P B : Type} [DecidableEq P] [DecidableEq B]

/-- The process `p` goes to `k`. -/
def goto (s : Driver P B) (p : P) (k : Pc B) : Driver P B :=
  { s with pc := Function.update s.pc p k }

/-- One step. -/
def step [Fintype B] (s : Driver P B) : Label P B → Option (Except Fault (Driver P B))
  | .acquiresleep p b =>
      if s.pc p = .out ∧ (s.buf b).lock = none then
        some (.ok (s.modify b ({ · with lock := some p })))
      else none
  | .releasesleep p b =>
      if s.pc p = .out ∧ (s.buf b).lock = some p then
        some (.ok (s.modify b ({ · with lock := none })))
      else none
  | .write p b valid dirty data =>
      if s.pc p = .out ∧ (s.buf b).lock = some p then
        some (.ok (s.modify b ({ · with valid := valid, dirty := dirty, data := data })))
      else none
  | .recycle b dev blockno =>
      if (s.buf b).lock = none then
        some (.ok (s.modify b ({ · with
          dev := dev, blockno := blockno, valid := false, dirty := false })))
      else none
  | .iderw p b =>
      if s.pc p = .out ∧ (s.buf b).lock = some p then some (s.iderw p b) else none
  | .kill p =>
      match s.pc p with
      | .asleep b n => some (.ok (s.goto p (.awake b n)))
      | _ => none
  | .resume p =>
      match s.pc p with
      | .awake b n => some (.ok (s.wait p b n))
      | _ => none
  | .leave p =>
      match s.pc p with
      | .returned _ _ => some (.ok (s.goto p .out))
      | _ => none
  | .ideintr input =>
      match s.active with
      | [] => none
      | _ :: rest => some ({ s with active := rest }.ideintr input)

end Driver

/-- Any number of processes use the disk, which has no request at first. -/
def ideSystem (P B : Type) [DecidableEq P] [DecidableEq B] [Fintype B] :
    System (Driver P B) (Label P B) Fault where
  init s := s.idequeue = none ∧ s.active = [] ∧ (∀ p, s.pc p = .out) ∧
    s.submitted = [] ∧ s.started = [] ∧ s.completed = []
  step := Driver.step

/-! ### The queue -/

namespace Driver

variable {P B : Type} {s : Driver P B} {b x : B} {l : List B}

/-- The links of the queue. -/
def next (s : Driver P B) (b : B) : Option B := (s.buf b).qnext

/-- The walk arrives at the last link. -/
theorem findEnd_eq
    {fuel : Nat} {pp : Option B} (hs : Seg s.next (s.load pp) l none) (hfuel : l.length < fuel) :
  s.findEnd fuel pp = some (l.getLast?.or pp)
  := by
  induction l generalizing fuel pp with
  | nil =>
    obtain ⟨k, rfl⟩ := Nat.exists_eq_succ_of_ne_zero (Nat.ne_of_gt hfuel)
    have hload : s.load pp = none := hs
    rw [findEnd, hload]
    rfl
  | cons a l ih =>
    obtain ⟨k, rfl⟩ := Nat.exists_eq_succ_of_ne_zero (Nat.ne_of_gt (Nat.zero_lt_of_lt hfuel))
    obtain ⟨hload, hs⟩ := hs
    have hend : s.findEnd k (some a) = some (l.getLast?.or (some a)) :=
      ih hs (Nat.lt_of_succ_lt_succ hfuel)
    rw [findEnd, hload]
    refine hend.trans ?_
    rw [List.getLast?_cons]
    cases l.getLast? <;> rfl

/-- Two states agree, apart from the queue and its links. -/
structure Relinked (s s' : Driver P B) : Prop where
  buf : ∀ x, ∃ y, s'.buf x = { s.buf x with qnext := y }
  rest : s' = { s with buf := s'.buf, idequeue := s'.idequeue }

section

variable {s' : Driver P B}

theorem Relinked.lock (h : Relinked s s') (x : B) : (s'.buf x).lock = (s.buf x).lock := by
  obtain ⟨y, hy⟩ := h.buf x
  rw [hy]

theorem Relinked.synced (h : Relinked s s') (x : B) : (s'.buf x).synced = (s.buf x).synced := by
  obtain ⟨y, hy⟩ := h.buf x
  rw [hy]
  rfl

theorem Relinked.command (h : Relinked s s') (x : B) : (s'.buf x).command = (s.buf x).command := by
  obtain ⟨y, hy⟩ := h.buf x
  rw [hy]
  rfl

end

theorem Relinked.trans {s' s'' : Driver P B} (h : Relinked s s') (h' : Relinked s' s'') :
  Relinked s s''
  := by
  constructor
  · intro x
    obtain ⟨y, hy⟩ := h'.buf x
    obtain ⟨z, hz⟩ := h.buf x
    use y
    rw [hy, hz]
  · rw [h'.rest, h.rest]

variable [DecidableEq B]

theorem modify_buf_self (s : Driver P B) (b : B) (f : Buf P B → Buf P B) :
  (s.modify b f).buf b = f (s.buf b)
  := update_self ..

theorem modify_buf_of_ne (s : Driver P B) (f : Buf P B → Buf P B) (hx : x ≠ b) :
  (s.modify b f).buf x = s.buf x
  := update_of_ne hx ..

theorem next_modify (s : Driver P B) (b : B) (f : Buf P B → Buf P B) :
  (s.modify b f).next = update s.next b (f (s.buf b)).qnext
  := by
  funext x
  rcases eq_or_ne x b with rfl | hx
  · rw [next, modify_buf_self, update_self]
  · rw [next, modify_buf_of_ne s f hx, update_of_ne hx]
    rfl

/-- Storing a node in the last link appends it. -/
theorem store_isQueue (hq : IsQueue s.next s.idequeue l.getLast? l) (hb : b ∉ l)
    (hnext : s.next b = none) :
  IsQueue (s.store l.getLast? (some b)).next (s.store l.getLast? (some b)).idequeue (some b)
    (l ++ [b])
  := by
  cases hlast : l.getLast? with
  | none =>
    obtain rfl := List.getLast?_eq_none_iff.mp hlast
    have hsingle := IsQueue.singleton s.next b
    rw [← hnext, update_eq_self] at hsingle
    exact hsingle
  | some a =>
    rw [hlast] at hq
    have hab : a ≠ b := by
      rintro rfl
      exact hb (List.mem_of_getLast? hlast)
    have happend := hq.append hb
    rw [update_comm hab, ← hnext, update_eq_self] at happend
    rw [store, next_modify]
    exact happend

theorem relinked_modify (s : Driver P B) (b : B) (y : Option B) :
  Relinked s (s.modify b ({ · with qnext := y }))
  := by
  refine ⟨?_, rfl⟩
  intro x
  rcases eq_or_ne x b with rfl | hx
  · exact ⟨y, s.modify_buf_self x _⟩
  · exact ⟨(s.buf x).qnext, s.modify_buf_of_ne _ hx⟩

theorem relinked_store (s : Driver P B) (pp y : Option B) :
  Relinked s (s.store pp y)
  := by
  cases pp with
  | none => exact ⟨fun x => ⟨(s.buf x).qnext, rfl⟩, rfl⟩
  | some a => exact relinked_modify s a y

/-- A buffer that is not in the queue is appended; only links change. -/
theorem append_spec
    [Fintype B] (hq : IsQueue s.next s.idequeue l.getLast? l) (hb : b ∉ l) :
  ∃ s', s.append b = .ok { s' with submitted := s.submitted ++ [b] } ∧
    IsQueue s'.next s'.idequeue (some b) (l ++ [b]) ∧ Relinked s s'
  := by
  have hq₁ : IsQueue (s.modify b ({ · with qnext := none })).next s.idequeue l.getLast? l := by
    rw [next_modify]
    exact hq.update_of_notMem hb none
  have hend : (s.modify b ({ · with qnext := none })).findEnd (Fintype.card B + 1) none
      = some l.getLast? := by
    rw [findEnd_eq hq₁.seg (Nat.lt_succ_of_le hq.nodup.length_le_card), Option.or_none]
  have hnext : (s.modify b ({ · with qnext := none })).next b = none := by
    rw [next_modify, update_self]
  use (s.modify b ({ · with qnext := none })).store l.getLast? (some b)
  refine ⟨?_, store_isQueue hq₁ hb hnext, (relinked_modify s b none).trans (relinked_store _ _ _)⟩
  simp only [append, hend]
  rfl

end Driver

/-! ### Requests -/

namespace Driver

variable {P B : Type} {s s' : Driver P B} {p q : P} {b x : B} {n : Nat} {l : List B}

/-- What holds for the request `n` of the process `p`, for the buffer `b`. -/
structure Call (s : Driver P B) (p : P) (b : B) (n : Nat) : Prop where
  lock : (s.buf b).lock = some p
  submitted : s.submitted[n]? = some b
  synced : (s.buf b).synced = true ↔ n < s.completed.length
  asleep : s.pc p = .asleep b n → s.completed.length ≤ n
  returned : s.pc p = .returned b n → n < s.completed.length

/-- The queue consists of the buffers `l` in order, which are the requests that are not completed.
The first of them is started. -/
structure Ordered (s : Driver P B) (l : List B) : Prop where
  queue : IsQueue s.next s.idequeue l.getLast? l
  submitted : s.submitted = s.completed ++ l
  started : s.started = s.completed ++ l.take 1
  active : s.active = (l.take 1).map fun b => (s.buf b).command
  called : ∀ b ∈ l, ∃ p n, (s.pc p).request = some (b, n) ∧ s.completed.length ≤ n
  call : ∀ p b n, (s.pc p).request = some (b, n) → Call s p b n

namespace Ordered

section

variable (h : Ordered s l)

include h

/-- No process is in `iderw` for a buffer that is not locked. -/
theorem request_ne_of_unlocked (hlock : (s.buf b).lock = none) (q : P) (n : Nat) :
  (s.pc q).request ≠ some (b, n)
  := by
  intro hq
  cases hlock.symm.trans (h.call q b n hq).lock

/-- No process is in `iderw` for a buffer whose holder is elsewhere. -/
theorem request_ne_of_out (hp : s.pc p = .out) (hlock : (s.buf b).lock = some p) (q : P) (n : Nat) :
  (s.pc q).request ≠ some (b, n)
  := by
  intro hq
  obtain rfl := Option.some.inj (hlock.symm.trans (h.call q b n hq).lock)
  rw [hp] at hq
  cases hq

theorem notMem (hfree : ∀ q n, (s.pc q).request ≠ some (b, n)) :
  b ∉ l
  := by
  intro hb
  obtain ⟨q, n, hq, -⟩ := h.called b hb
  exact hfree q n hq

/-- Change a buffer for which no process is in `iderw`. -/
theorem modify
    [DecidableEq B] {f : Buf P B → Buf P B} (hfree : ∀ q n, (s.pc q).request ≠ some (b, n))
    (hf : (f (s.buf b)).qnext = (s.buf b).qnext) :
  Ordered (s.modify b f) l
  := by
  have hb := h.notMem hfree
  have hbuf : ∀ x ∈ l, (s.modify b f).buf x = s.buf x := by
    intro x hx
    apply modify_buf_of_ne
    rintro rfl
    exact hb hx
  constructor
  · rw [next_modify, hf, show (s.buf b).qnext = s.next b from rfl, update_eq_self]
    exact h.queue
  · exact h.submitted
  · exact h.started
  · refine h.active.trans (List.map_congr_left ?_)
    intro x hx
    rw [hbuf x (List.mem_of_mem_take hx)]
  · exact h.called
  · intro q x n hq
    have hx : x ≠ b := by
      rintro rfl
      exact hfree q n hq
    obtain ⟨hlock, hsub, hsync, hasleep, hret⟩ := h.call q x n hq
    rw [← s.modify_buf_of_ne f hx] at hlock hsync
    exact ⟨hlock, hsub, hsync, hasleep, hret⟩

/-- A process goes on. -/
theorem goto
    [DecidableEq P] {k : Pc B}
    (hreq : k.request = (s.pc p).request ∨
      k = .out ∧ ∀ b n, (s.pc p).request = some (b, n) → n < s.completed.length)
    (hasleep : ∀ b n, k = .asleep b n → s.completed.length ≤ n)
    (hret : ∀ b n, k = .returned b n → n < s.completed.length) :
  Ordered (s.goto p k) l
  := by
  have hself : (s.goto p k).pc p = k := update_self ..
  have hne : ∀ q, q ≠ p → (s.goto p k).pc q = s.pc q := fun q hq => update_of_ne hq ..
  refine ⟨h.queue, h.submitted, h.started, h.active, ?_, ?_⟩
  · intro b hb
    obtain ⟨q, n, hq, hn⟩ := h.called b hb
    refine ⟨q, n, ?_, hn⟩
    rcases eq_or_ne q p with rfl | hqp
    · rw [hself]
      rcases hreq with heq | ⟨-, hdone⟩
      · exact heq.trans hq
      · exact absurd (hdone b n hq) (Nat.not_lt.mpr hn)
    · rw [hne q hqp]
      exact hq
  · intro q b n hq
    rcases eq_or_ne q p with rfl | hqp
    · rw [hself] at hq
      have hreq' : (s.pc q).request = some (b, n) := by
        rcases hreq with heq | ⟨rfl, -⟩
        · exact heq.symm.trans hq
        · cases hq
      obtain ⟨hlock, hsub, hsync, -, -⟩ := h.call q b n hreq'
      refine ⟨hlock, hsub, hsync, ?_, ?_⟩
      · rw [hself]
        exact hasleep b n
      · rw [hself]
        exact hret b n
    · rw [hne q hqp] at hq
      obtain ⟨hlock, hsub, hsync, hasleep, hret⟩ := h.call q b n hq
      rw [← hne q hqp] at hasleep hret
      exact ⟨hlock, hsub, hsync, hasleep, hret⟩

/-- A process appends its buffer and will sleep. -/
theorem submit
    [DecidableEq P] {s₁ : Driver P B} (hp : s.pc p = .out) (hlock : (s.buf b).lock = some p)
    (hsync : (s.buf b).synced = false) (hq : IsQueue s₁.next s₁.idequeue (some b) (l ++ [b]))
    (hlink : Relinked s s₁) {started : List B} {active : List Command}
    (hstarted : started = s.completed ++ (l ++ [b]).take 1)
    (hactive : active = ((l ++ [b]).take 1).map fun b => (s.buf b).command) :
  Ordered ({ s₁ with
    submitted := s.submitted ++ [b], started := started, active := active }.wait p b
      s.submitted.length) (l ++ [b])
  := by
  have hwait : (s₁.buf b).synced ≠ true := by
    rw [hlink.synced, hsync]
    nofun
  rw [hlink.rest, wait, if_neg hwait]
  have hlen : s.completed.length ≤ s.submitted.length := by
    rw [h.submitted, List.length_append]
    exact Nat.le_add_right _ _
  have hself : update s.pc p (.asleep b s.submitted.length) p
      = .asleep b s.submitted.length := update_self ..
  have hne : ∀ q, q ≠ p → update s.pc p (.asleep b s.submitted.length) q = s.pc q :=
    fun q hqp => update_of_ne hqp ..
  constructor
  · rw [List.getLast?_concat]
    exact hq
  · change s.submitted ++ [b] = s.completed ++ (l ++ [b])
    rw [h.submitted, List.append_assoc]
  · exact hstarted
  · refine hactive.trans (List.map_congr_left ?_)
    intro x _
    exact (hlink.command x).symm
  · intro x hx
    rcases List.mem_append.mp hx with hx | hx
    · obtain ⟨q, n, hq, hn⟩ := h.called x hx
      have hqp : q ≠ p := by
        rintro rfl
        rw [hp] at hq
        cases hq
      exact ⟨q, n, (congrArg Pc.request (hne q hqp)).trans hq, hn⟩
    · rw [List.mem_singleton.mp hx]
      exact ⟨p, s.submitted.length, congrArg Pc.request hself, hlen⟩
  · intro q x n hreq
    rcases eq_or_ne q p with rfl | hqp
    · obtain ⟨rfl, rfl⟩ : b = x ∧ s.submitted.length = n :=
        Prod.mk.inj (Option.some.inj ((congrArg Pc.request hself).symm.trans hreq))
      constructor
      · exact (hlink.lock b).trans hlock
      · exact List.getElem?_concat_length
      · change (s₁.buf b).synced = true ↔ _
        rw [hlink.synced, hsync]
        exact ⟨nofun, fun hlt => absurd hlt (Nat.not_lt.mpr hlen)⟩
      · exact fun _ => hlen
      · intro hret
        cases hself.symm.trans hret
    · obtain ⟨hlock', hsub, hsync', hasleep, hret⟩ :=
        h.call q x n ((congrArg Pc.request (hne q hqp)).symm.trans hreq)
      constructor
      · exact (hlink.lock x).trans hlock'
      · rw [← hsub]
        exact List.getElem?_append_left (List.getElem?_eq_some_iff.mp hsub).1
      · change (s₁.buf x).synced = true ↔ _
        rw [hlink.synced]
        exact hsync'
      · exact fun hs => hasleep ((hne q hqp).symm.trans hs)
      · exact fun hs => hret ((hne q hqp).symm.trans hs)

/-- `iderw` keeps the order.  It starts a command if the queue was empty. -/
theorem iderw
    [DecidableEq P] [DecidableEq B] [Fintype B] (hp : s.pc p = .out)
    (hlock : (s.buf b).lock = some p) :
  System.Outcome (· = .cycle) (fun s' => ∃ l', Ordered s' l') (some (s.iderw p b))
  := by
  have hb := h.notMem (h.request_ne_of_out hp hlock)
  obtain ⟨s₁, happend, hq, hlink⟩ := append_spec h.queue hb
  have hstarted : s₁.started = s.started := by rw [hlink.rest]
  have hactive : s₁.active = s.active := by rw [hlink.rest]
  rw [Driver.iderw]
  by_cases hunlocked : (s.buf b).lock = none
  · rw [if_pos hunlocked]
    nofun
  rw [if_neg hunlocked]
  by_cases hsync : (s.buf b).synced = true
  · rw [if_pos hsync]
    nofun
  rw [if_neg hsync]
  have hsync : (s.buf b).synced = false := Bool.eq_false_of_not_eq_true hsync
  by_cases hdisk : (s.buf b).dev ≠ 0 ∧ s.havedisk1 = false
  · rw [if_pos hdisk]
    nofun
  rw [if_neg hdisk, happend]
  have hhead : s₁.idequeue = (l ++ [b]).head? := hq.head_eq
  cases l with
  | nil =>
    simp only [bind, Except.bind]
    rw [if_pos (by exact hhead), idestart]
    by_cases hblock : FSSIZE ≤ (s₁.buf b).blockno.toNat
    · rw [if_pos hblock]
      nofun
    · rw [if_neg hblock, if_neg (by decide)]
      refine ⟨[b], ?_⟩
      apply h.submit hp hlock hsync hq hlink
      · rw [hstarted, h.started, List.take_nil, List.append_nil]
        rfl
      · rw [hactive, h.active, hlink.command]
        rfl
  | cons a l =>
    have hne : s₁.idequeue ≠ some b := by
      rw [hhead]
      rintro ⟨⟩
      exact hb List.mem_cons_self
    simp only [bind, Except.bind]
    rw [if_neg hne]
    refine ⟨a :: l ++ [b], ?_⟩
    exact h.submit hp hlock hsync hq hlink (hstarted.trans h.started) (hactive.trans h.active)

end

/-- The buffers of a queue are not synced. -/
theorem not_synced (h : Ordered s l) (hb : b ∈ l) :
  (s.buf b).synced = false
  := by
  obtain ⟨q, n, hq, hn⟩ := h.called b hb
  by_contra hsync
  have hlt := (h.call q b n hq).synced.mp (Bool.eq_true_of_not_eq_false hsync)
  exact absurd hlt (Nat.not_lt.mpr hn)

/-- The first request in the queue has the number of the completed requests. -/
theorem number_iff
    (h : Ordered s (b :: l)) (hq : (s.pc q).request = some (x, n)) (hn : s.completed.length ≤ n) :
  x = b ↔ n = s.completed.length
  := by
  have hsub := (h.call q x n hq).submitted
  rw [h.submitted, List.getElem?_append_right hn] at hsub
  constructor
  · rintro rfl
    by_contra hne
    have hpos : n - s.completed.length ≠ 0 := by omega
    obtain ⟨k, hk⟩ := Nat.exists_eq_add_one_of_ne_zero hpos
    rw [hk, List.getElem?_cons_succ] at hsub
    exact (List.nodup_cons.mp h.queue.nodup).1 (List.mem_of_getElem? hsub)
  · rintro rfl
    rw [Nat.sub_self, List.getElem?_cons_zero] at hsub
    exact (Option.some.inj hsub).symm

end Ordered

section

variable [DecidableEq B]

/-- What the interrupt handler does to the buffers. -/
theorem finish_buf (s : Driver P B) (b : B) (input : Option Block) :
  (s.finish b input).buf =
    update s.buf b { (s.buf b).received input with valid := true, dirty := false }
  := by
  simp only [finish, modify, update_idem, update_self]

theorem finish_lock (s : Driver P B) (b : B) (input : Option Block) (x : B) :
  ((s.finish b input).buf x).lock = (s.buf x).lock
  := by
  rw [finish_buf]
  rcases eq_or_ne x b with rfl | hx
  · rw [update_self]
    unfold Buf.received
    split
    · rfl
    · cases input <;> rfl
  · rw [update_of_ne hx]

theorem request_woken (b : B) (k : Pc B) : (woken b k).request = k.request := by
  cases k with
  | asleep b' n =>
    rw [woken]
    split <;> rfl
  | _ => rfl

/-- `wakeup(b)` leaves asleep only processes that wait for other buffers. -/
theorem eq_asleep_of_woken {k : Pc B} (h : woken b k = .asleep x n) :
  k = .asleep x n ∧ x ≠ b
  := by
  cases k with
  | asleep b' n' =>
    rw [woken] at h
    split at h
    · cases h
    · cases h
      exact ⟨rfl, ‹_›⟩
  | _ => cases h

theorem eq_returned_of_woken {k : Pc B} (h : woken b k = .returned x n) :
  k = .returned x n
  := by
  cases k with
  | asleep b' n' =>
    rw [woken] at h
    split at h <;> cases h
  | _ => exact h

end

namespace Ordered

/-- The first request is completed, and the next is started. -/
theorem finish
    [DecidableEq B] (h : Ordered s (b :: l)) (input : Option Block) {started : List B}
    {active : List Command} (hstarted : started = s.started ++ l.take 1)
    (hactive : active = (l.take 1).map fun x => ((s.finish b input).buf x).command) :
  Ordered { s.finish b input with started := started, active := active } l
  := by
  have hlen : (s.completed ++ [b]).length = s.completed.length + 1 := List.length_append
  have hbl : b ∉ l := (List.nodup_cons.mp h.queue.nodup).1
  constructor
  · refine ⟨h.queue.seg.2.congr ?_, rfl⟩
    intro x hx
    have hne : x ≠ b := by
      rintro rfl
      exact hbl hx
    change ((s.finish b input).buf x).qnext = (s.buf x).qnext
    rw [finish_buf, update_of_ne hne]
  · exact h.submitted.trans (List.append_cons ..)
  · rw [hstarted, h.started]
    rfl
  · exact hactive
  · intro x hx
    obtain ⟨q, n, hq, hn⟩ := h.called x (List.mem_cons_of_mem b hx)
    refine ⟨q, n, (request_woken b _).trans hq, ?_⟩
    have hne : n ≠ s.completed.length := by
      intro hn'
      rw [(h.number_iff hq hn).mpr hn'] at hx
      exact hbl hx
    change (s.completed ++ [b]).length ≤ n
    omega
  · intro q x n hreq
    have hq : (s.pc q).request = some (x, n) := (request_woken b _).symm.trans hreq
    have hnumber := h.number_iff hq
    obtain ⟨hlock, hsub, hsync, hasleep, hret⟩ := h.call q x n hq
    constructor
    · exact (s.finish_lock b input x).trans hlock
    · exact hsub
    · change ((s.finish b input).buf x).synced = true ↔ n < (s.completed ++ [b]).length
      rw [hlen]
      rcases eq_or_ne x b with rfl | hx
      · rw [h.not_synced List.mem_cons_self] at hsync
        have hn : s.completed.length ≤ n := Nat.not_lt.mp (fun hlt => nomatch hsync.mpr hlt)
        have := (hnumber hn).mp rfl
        refine ⟨fun _ => by omega, fun _ => ?_⟩
        rw [finish_buf, update_self]
        rfl
      · rw [finish_buf, update_of_ne hx, hsync]
        have : s.completed.length ≤ n → n ≠ s.completed.length :=
          fun hn hn' => hx ((hnumber hn).mpr hn')
        omega
    · intro hs
      obtain ⟨hs, hx⟩ := eq_asleep_of_woken hs
      have hn := hasleep hs
      have : n ≠ s.completed.length := fun hn' => hx ((hnumber hn).mpr hn')
      change (s.completed ++ [b]).length ≤ n
      omega
    · intro hs
      have hn := hret (eq_returned_of_woken hs)
      change n < (s.completed ++ [b]).length
      omega

/-- The interrupt handler completes the first request. -/
theorem ideintr
    [DecidableEq P] [DecidableEq B] {c : Command} {rest : List Command} {input : Option Block}
    (h : Ordered s l) (hactive : s.active = c :: rest) :
  System.Outcome (· = .cycle) (fun s' => ∃ l', Ordered s' l')
    (some ({ s with active := rest }.ideintr input))
  := by
  cases l with
  | nil => cases hactive.symm.trans h.active
  | cons b l =>
    obtain ⟨rfl, rfl⟩ : c = (s.buf b).command ∧ rest = [] :=
      List.cons.inj (hactive.symm.trans h.active)
    have hhead : s.idequeue = some b := h.queue.head_eq
    have hnext : (s.buf b).qnext = l.head? := h.queue.seg.2.head_eq
    rw [Driver.ideintr, hhead]
    change System.Outcome _ _ (some (if (s.buf b).qnext ≠ none then
      Driver.idestart { s.finish b input with active := [] } (s.buf b).qnext
      else .ok { s.finish b input with active := [] }))
    rw [hnext]
    cases l with
    | nil =>
      refine ⟨[], ?_⟩
      apply h.finish input
      · rw [List.take_nil, List.append_nil]
        rfl
      · rfl
    | cons a l =>
      rw [List.head?_cons, if_pos nofun, idestart]
      by_cases hblock : FSSIZE ≤ ((s.finish b input).buf a).blockno.toNat
      · rw [if_pos hblock]
        nofun
      · rw [if_neg hblock, if_neg (by decide)]
        exact ⟨a :: l, h.finish input rfl rfl⟩

/-- A process tests its buffer again. -/
theorem wait [DecidableEq P] (h : Ordered s l) (hpc : s.pc p = .awake b n) :
  Ordered (s.wait p b n) l
  := by
  have hreq : (s.pc p).request = some (b, n) := by
    rw [hpc]
    rfl
  have hsync := (h.call p b n hreq).synced
  rw [Driver.wait]
  by_cases hs : (s.buf b).synced = true
  · rw [if_pos hs]
    refine h.goto (.inl hreq.symm) nofun ?_
    rintro x m ⟨⟩
    exact hsync.mp hs
  · rw [if_neg hs]
    refine h.goto (.inl hreq.symm) ?_ nofun
    rintro x m ⟨⟩
    exact Nat.not_lt.mp (mt hsync.mpr hs)

/-- Every step keeps the order. -/
theorem step
    [DecidableEq P] [DecidableEq B] [Fintype B] (h : Ordered s l) (label : Label P B) :
  System.Outcome (· = .cycle) (fun s' => ∃ l', Ordered s' l') (s.step label)
  := by
  cases label with
  | acquiresleep p b =>
    apply System.Outcome.guard
    exact fun hpre => ⟨l, h.modify (h.request_ne_of_unlocked hpre.2) rfl⟩
  | releasesleep p b | write p b valid dirty data =>
    apply System.Outcome.guard
    exact fun hpre => ⟨l, h.modify (h.request_ne_of_out hpre.1 hpre.2) rfl⟩
  | recycle b dev blockno =>
    apply System.Outcome.guard
    exact fun hlock => ⟨l, h.modify (h.request_ne_of_unlocked hlock) rfl⟩
  | iderw p b =>
    apply System.Outcome.guard
    exact fun hpre => h.iderw hpre.1 hpre.2
  | kill p =>
    rw [Driver.step]
    split
    · rename_i b n hpc
      refine ⟨l, h.goto (.inl ?_) nofun nofun⟩
      rw [hpc]
      rfl
    · trivial
  | resume p =>
    rw [Driver.step]
    split
    · rename_i b n hpc
      exact ⟨l, h.wait hpc⟩
    · trivial
  | leave p =>
    rw [Driver.step]
    split
    · rename_i b n hpc
      have hret := (h.call p b n (by rw [hpc]; rfl)).returned hpc
      refine ⟨l, h.goto (.inr ⟨rfl, ?_⟩) nofun nofun⟩
      intro x m hx
      rw [hpc] at hx
      cases hx
      exact hret
    · trivial
  | ideintr input =>
    rw [Driver.step]
    split
    · trivial
    · rename_i c rest hactive
      exact h.ideintr hactive

end Ordered

end Driver

theorem ordered_of_reachable
    {P B : Type} [DecidableEq P] [DecidableEq B] [Fintype B] {s : Driver P B}
    (h : (ideSystem P B).Reachable s) :
  (∃ l, s.Ordered l) ∧ ∀ label, True → ∀ f, (ideSystem P B).step s label = some (.error f) →
    ¬ f = .cycle
  := by
  apply h.outcome
  · rintro s ⟨hq, hactive, hpc, hsub, hstart, hcomp⟩
    refine ⟨[], ⟨hq, rfl⟩, ?_, ?_, hactive, nofun, ?_⟩
    · rw [hsub, hcomp]
      rfl
    · rw [hstart, hcomp]
      rfl
    · intro p b n hreq
      rw [hpc] at hreq
      cases hreq
  · rintro s label ⟨l, hs⟩ -
    exact hs.step label

/-- `idequeue` is a list without cycles of the requests that are submitted and not completed, in
order, and the walk along it ends.  Exactly for the first of them a command is active.  The requests
are started and completed in the order of submission, each once.  `iderw` returns when its request
is completed, with the buffer valid and not dirty, and it sleeps only while it is not. -/
theorem ide_requests_in_order
    {P B : Type} [DecidableEq P] [DecidableEq B] [Fintype B] {s : Driver P B}
    (h : (ideSystem P B).Reachable s) :
  (∃ l, Seg (fun b => (s.buf b).qnext) s.idequeue l none ∧ l.Nodup ∧
    s.submitted = s.completed ++ l ∧ s.started = s.completed ++ l.take 1 ∧
    s.active = (l.take 1).map fun b => (s.buf b).command) ∧
  (∀ p b n, s.pc p = .returned b n →
    s.completed[n]? = some b ∧ (s.buf b).valid = true ∧ (s.buf b).dirty = false) ∧
  (∀ p b n, s.pc p = .asleep b n → s.submitted[n]? = some b ∧ s.completed.length ≤ n) ∧
  ∀ label, (ideSystem P B).step s label ≠ some (.error .cycle)
  := by
  obtain ⟨⟨l, hord⟩, hcycle⟩ := ordered_of_reachable h
  refine ⟨⟨l, hord.queue.seg, hord.queue.nodup, hord.submitted, hord.started, hord.active⟩, ?_, ?_,
    fun label herr => hcycle label trivial _ herr rfl⟩
  · intro p b n hpc
    have hcall := hord.call p b n (by rw [hpc]; rfl)
    have hlt := hcall.returned hpc
    have hsub := hcall.submitted
    rw [hord.submitted, List.getElem?_append_left hlt] at hsub
    have hsync := hcall.synced.mpr hlt
    rw [Buf.synced, Bool.and_eq_true, Bool.not_eq_true'] at hsync
    exact ⟨hsub, hsync⟩
  · intro p b n hpc
    have hcall := hord.call p b n (by rw [hpc]; rfl)
    exact ⟨hcall.submitted, hcall.asleep hpc⟩

/-- Two processes, with two buffers that have not been read. -/
def firstDriver : Driver (Fin 2) (Fin 2) where
  buf b := { valid := false, dirty := false, dev := 0, blockno := .ofNat b, lock := none,
             qnext := none, data := Block.zero }
  idequeue := none
  havedisk1 := false
  active := []
  pc _ := .out
  submitted := []
  started := []
  completed := []

/-- Both processes read their buffers, and the first read is completed. -/
theorem ide_requests_in_order_two :
  ∃ s, (ideSystem (Fin 2) (Fin 2)).Reachable s ∧ s.pc 0 = .returned 0 0 ∧ s.pc 1 = .asleep 1 1 ∧
    ∃ l, Seg (fun b => (s.buf b).qnext) s.idequeue l none ∧ l.Nodup ∧
      s.submitted = s.completed ++ l ∧ s.started = s.completed ++ l.take 1 ∧
      s.active = (l.take 1).map fun b => (s.buf b).command
  := by
  obtain ⟨s, -, hreach, hpc₀, hpc₁⟩ := System.exists_of_run (ideSystem (Fin 2) (Fin 2))
    (show (ideSystem _ _).init firstDriver from ⟨rfl, rfl, fun _ => rfl, rfl, rfl, rfl⟩)
    [.acquiresleep 0 0, .acquiresleep 1 1, .iderw 0 0, .iderw 1 1, .ideintr (some Block.zero),
      .resume 0]
    (fun s => s.pc 0 = .returned 0 0 ∧ s.pc 1 = .asleep 1 1) (by decide +kernel)
  exact ⟨s, hreach, hpc₀, hpc₁, (ide_requests_in_order hreach).1⟩

end Xv6.Ide
