import Xv6.Fs.FlatFile
import Xv6.Log.Commit

/-!
# Writes through a shared open file

Processes that share one `struct file` call `filewrite` on it, which writes the data in chunks.
The lock of the inode protects a chunk, and the offset `f->off` is read and advanced under it;
between two chunks of a call the other processes may write theirs.
-/

namespace Xv6.SharedFile

open Fs
open Function

/-- `max` of `filewrite`, the length of the longest chunk. -/
abbrev maxChunk : Nat := (Log.MAXOPBLOCKS - 1 - 1 - 2) / 2 * 512

/-- `T_FILE`, the type of a regular file. -/
abbrev T_FILE : Int16 := 2

/-- The panics of `filewrite` and of the functions that it calls. -/
inductive Fault where
  | fs (f : Fs.Fault)
  /-- "iunlock" -/
  | iunlock
  /-- "short filewrite" -/
  | shortFilewrite
  deriving DecidableEq, Repr

/-- Where a process is in the loop of `filewrite`: at the test of the loop, or in its body before
`writei`, after it, after the change of `f->off`, and after `iunlock`. -/
inductive Pc where
  | test
  | locked
  | wrote (r : Int)
  | moved (r : Int)
  | ended (r : Int)
  deriving DecidableEq, Repr

/-- A call of `filewrite`.  The calls are numbered in the order in which they start. -/
structure Call where
  id : Nat
  data : List UInt8
  i : Nat
  pc : Pc
  deriving DecidableEq, Repr

/-- `n1`, the length of the next chunk. -/
def Call.n1 (c : Call) : Nat :=
  min (c.data.length - c.i) maxChunk

/-- The file system, the offset and the lock of the shared file, and the calls of the processes.
The rest is history: the data of the calls that have started, the results of those that have
returned, and the chunks that were written, with the number of the call. -/
structure Sys (P : Type) where
  fs : FileSys
  off : UInt32
  lock : Option P
  call : P → Option Call
  started : List (List UInt8)
  returned : List (Nat × Int)
  log : List (Nat × List UInt8)

/-- A process calls `filewrite`, or makes the next step of its call. -/
inductive Label (P : Type) where
  | filewrite (p : P) (data : List UInt8)
  | next (p : P)

namespace Sys

variable {P : Type} [DecidableEq P]

def setCall (s : Sys P) (p : P) (c : Call) : Sys P :=
  { s with call := Function.update s.call p (some c) }

/-- The process returns from `filewrite`. -/
def ret (s : Sys P) (p : P) (c : Call) (r : Int) : Sys P :=
  { s with call := Function.update s.call p none, returned := s.returned ++ [(c.id, r)] }

/-- The next step of the call `c` of the process `p`, on the file with the inode in the entry
`ip`. -/
def advance (s : Sys P) (ip : Slot) (p : P) (c : Call) : Option (Except Fault (Sys P)) :=
  match c.pc with
  | .test =>
      if c.i < c.data.length then
        if s.lock.isNone then
          match Fs.ilock ip s.fs with
          | .ok (_, fs) =>
              some (.ok { s.setCall p { c with pc := .locked } with fs := fs, lock := some p })
          | .error f => some (.error (.fs f))
        else none
      else some (.ok (s.ret p c (if c.i = c.data.length then c.data.length else -1)))
  | .locked =>
      match writeiAll ip (fun k => c.data.getD (c.i + k) 0) s.off (.ofNat c.n1) s.fs with
      | .ok (r, fs) =>
          some (.ok { s.setCall p { c with pc := .wrote r } with
            fs := fs
            log := if 0 ≤ r then s.log ++ [(c.id, (c.data.drop c.i).take r.toNat)] else s.log })
      | .error f => some (.error (.fs f))
  | .wrote r =>
      some (.ok { s.setCall p { c with pc := .moved r } with
        off := if 0 < r then s.off + .ofNat r.toNat else s.off })
  | .moved r =>
      if s.lock = some p ∧ ¬ (s.fs.inode ip).ref < 1 then
        some (.ok { s.setCall p { c with pc := .ended r } with lock := none })
      else some (.error .iunlock)
  | .ended r =>
      if r < 0 then some (.ok (s.ret p c (if c.i = c.data.length then c.data.length else -1)))
      else if r ≠ c.n1 then some (.error .shortFilewrite)
      else some (.ok (s.setCall p { c with i := c.i + r.toNat, pc := .test }))

def step (s : Sys P) (ip : Slot) : Label P → Option (Except Fault (Sys P))
  | .filewrite p data =>
      match s.call p with
      | some _ => none
      | none =>
          some (.ok { s.setCall p ⟨s.started.length, data, 0, .test⟩ with
            started := s.started ++ [data] })
  | .next p =>
      match s.call p with
      | some c => s.advance ip p c
      | none => none

end Sys

/-- The inode in the entry `ip` is a regular file without a hole, and the offset, which only
`readi` and `writei` advance, is not beyond its size.  Nobody writes. -/
structure Initial {P : Type} (ip : Slot) (s : Sys P) : Prop where
  ready : Ready s.fs ip
  noHole : (s.fs.inode ip).NoHole s.fs.disk
  type : (s.fs.inode ip).type = T_FILE
  off : s.off ≤ (s.fs.inode ip).size
  lock : s.lock = none
  call : ∀ p, s.call p = none
  started : s.started = []
  returned : s.returned = []
  log : s.log = []

/-- The system that starts in the state `s₀`. -/
def system {P : Type} [DecidableEq P] (ip : Slot) (s₀ : Sys P) :
    System (Sys P) (Label P) Fault where
  init s := s = s₀
  step s := s.step ip

/-- The data of all calls fits into the largest file. -/
def Fits {P : Type} (s₀ s : Sys P) : Label P → Prop
  | .filewrite _ data =>
      s₀.off.toNat + (s.started.map List.length).sum + data.length ≤ MAXFILE * BSIZE
  | .next _ => True

instance {P : Type} (s₀ s : Sys P) : (l : Label P) → Decidable (Fits s₀ s l)
  | .filewrite _ data =>
      inferInstanceAs (Decidable
        (s₀.off.toNat + (s.started.map List.length).sum + data.length ≤ MAXFILE * BSIZE))
  | .next _ => .isTrue trivial

/-- The chunk `k` of the data of a call. -/
def chunk (data : List UInt8) (k : Nat) : List UInt8 :=
  (data.drop (k * maxChunk)).take maxChunk

/-- The chunks of the data of a call. -/
def chunks (data : List UInt8) : List (List UInt8) :=
  (List.range ((data.length + maxChunk - 1) / maxChunk)).map (chunk data)

/-- The chunks that the call with the number `id` has written. -/
def chunksOf (log : List (Nat × List UInt8)) (id : Nat) : List (List UInt8) :=
  (log.filter fun e => e.1 = id).map (·.2)

/-- The bytes that were written, in the order of the chunks. -/
def bytes (log : List (Nat × List UInt8)) : List UInt8 :=
  (log.map (·.2)).flatten

/-! ### Chunks -/

section

variable {data bs : List UInt8} {log : List (Nat × List UInt8)} {id : Nat}

/-- The first `k` chunks. -/
theorem flatten_chunk (data : List UInt8) (k : Nat) :
  ((List.range k).map (chunk data)).flatten = data.take (k * maxChunk)
  := by
  induction k with
  | zero => simp
  | succ k ih =>
    rw [List.range_succ, List.map_append, List.flatten_append, ih, Nat.succ_mul, List.take_add]
    simp [chunk]

theorem flatten_chunks (data : List UInt8) :
  (chunks data).flatten = data
  := by
  rw [chunks, flatten_chunk]
  apply List.take_of_length_le
  have := Nat.div_add_mod (data.length + maxChunk - 1) maxChunk
  have : (data.length + maxChunk - 1) % maxChunk < maxChunk := Nat.mod_lt _ (by decide)
  simp only [maxChunk, Log.MAXOPBLOCKS] at *
  omega

theorem chunksOf_append (id' : Nat) :
  chunksOf (log ++ [(id', bs)]) id = chunksOf log id ++ if id' = id then [bs] else []
  := by
  rw [chunksOf, List.filter_append, List.map_append]
  split
  · rename_i h
    simp [chunksOf, h]
  · rename_i h
    simp [chunksOf, h]

theorem bytes_append (id' : Nat) :
  bytes (log ++ [(id', bs)]) = bytes log ++ bs
  := by
  simp [bytes]

/-- The bytes written are those of the calls. -/
theorem length_bytes {n : Nat} (hlog : ∀ e ∈ log, e.1 < n) :
  (bytes log).length = ∑ id ∈ Finset.range n, (chunksOf log id).flatten.length
  := by
  induction log using List.reverseRecOn with
  | nil => simp [bytes, chunksOf]
  | append_singleton log e ih =>
    obtain ⟨id', bs⟩ := e
    have hid : id' < n := hlog (id', bs) (by simp)
    have hlog' : ∀ e ∈ log, e.1 < n := fun e he => hlog e (by simp [he])
    have hterm : ∀ id, (chunksOf (log ++ [(id', bs)]) id).flatten.length
        = (chunksOf log id).flatten.length + if id' = id then bs.length else 0 := by
      intro id
      rw [chunksOf_append]
      split
      · simp
      · simp
    rw [bytes_append, List.length_append, ih hlog']
    simp only [hterm, Finset.sum_add_distrib, Finset.sum_ite_eq, Finset.mem_range, if_pos hid]

/-- The lengths of the data of the calls. -/
theorem sum_lengths (started : List (List UInt8)) :
  (started.map List.length).sum = ∑ id ∈ Finset.range started.length, (started.getD id []).length
  := by
  induction started using List.reverseRecOn with
  | nil => simp
  | append_singleton started data ih =>
    rw [List.map_append, List.sum_append, ih, List.length_append, List.length_singleton,
      Finset.sum_range_succ]
    congr 1
    · apply Finset.sum_congr rfl
      intro id hid
      rw [List.getD_append _ _ _ _ (Finset.mem_range.mp hid)]
    · simp

end

/-! ### The calls -/

/-- The result of `writei`, if it has been called for the chunk. -/
def Pc.result? : Pc → Option Int
  | .test | .locked => none
  | .wrote r | .moved r | .ended r => some r

/-- The number of chunks that the call has written. -/
def Call.done (c : Call) : Nat :=
  (c.i + maxChunk - 1) / maxChunk + if c.pc.result?.isSome then 1 else 0

/-- A call has written the chunks before `i`, and the next one if `writei` has returned. -/
structure CallOk (started : List (List UInt8)) (log : List (Nat × List UInt8)) (c : Call) :
    Prop where
  data : started[c.id]? = some c.data
  le : c.i ≤ c.data.length
  lt : c.pc ≠ .test → c.i < c.data.length
  aligned : c.i < c.data.length → c.i % maxChunk = 0
  result : ∀ r ∈ c.pc.result?, r = c.n1
  chunks : chunksOf log c.id = (List.range c.done).map (chunk c.data)

/-- The calls in progress and those that have returned. -/
structure Calls {P : Type} (call : P → Option Call) (started : List (List UInt8))
    (returned : List (Nat × Int)) (log : List (Nat × List UInt8)) : Prop where
  ok : ∀ p c, call p = some c → CallOk started log c
  distinct : ∀ p q c d, call p = some c → call q = some d → c.id = d.id → p = q
  fresh : ∀ p c, call p = some c → ∀ r, (c.id, r) ∉ returned
  complete : ∀ id r, (id, r) ∈ returned →
    ∃ data, started[id]? = some data ∧ r = data.length ∧ chunksOf log id = chunks data
  cover : ∀ id < started.length, (∃ p c, call p = some c ∧ c.id = id) ∨ ∃ r, (id, r) ∈ returned
  ids : ∀ e ∈ log, e.1 < started.length

section

variable {P : Type} [DecidableEq P] {call : P → Option Call} {started : List (List UInt8)}
  {returned : List (Nat × Int)} {log : List (Nat × List UInt8)} {p : P} {c c' : Call}

omit [DecidableEq P] in
theorem Calls.returned_lt
    (h : Calls call started returned log) {id : Nat} {r : Int} (hr : (id, r) ∈ returned) :
  id < started.length
  := by
  obtain ⟨_, hdata, -⟩ := h.complete id r hr
  exact (List.getElem?_eq_some_iff.mp hdata).1

theorem CallOk.id_lt (h : CallOk started log c) :
  c.id < started.length
  := (List.getElem?_eq_some_iff.mp h.data).1

/-- The calls of the processes when that of one of them changes. -/
theorem call_update {x : Option Call} {q : P} {d : Call} (h : update call p x q = some d) :
  (q = p ∧ x = some d) ∨ (q ≠ p ∧ call q = some d)
  := by
  by_cases hqp : q = p
  · subst hqp
    rw [update_self] at h
    exact .inl ⟨rfl, h⟩
  · rw [update_of_ne hqp] at h
    exact .inr ⟨hqp, h⟩

namespace Calls

variable (h : Calls call started returned log)

include h

/-- A call starts. -/
theorem start (hp : call p = none) (data : List UInt8) :
  Calls (update call p (some ⟨started.length, data, 0, .test⟩)) (started ++ [data])
    returned log
  := by
  have hlt : ∀ q d, call q = some d → d.id < started.length := fun q d hq => (h.ok q d hq).id_lt
  have hempty : chunksOf log started.length = [] := by
    rw [chunksOf, List.map_eq_nil_iff, List.filter_eq_nil_iff]
    intro e he
    have := h.ids e he
    simp only [decide_eq_true_eq]
    omega
  constructor
  · intro q d hq
    obtain ⟨rfl, hx⟩ | ⟨-, hq⟩ := call_update hq
    · cases hx
      constructor
      · simp
      · simp
      · simp
      · simp
      · simp [Pc.result?]
      · simp [hempty, Call.done, Pc.result?]
    · have hd := h.ok q d hq
      refine { hd with data := ?_ }
      rw [List.getElem?_append_left hd.id_lt, hd.data]
  · intro q q' d d' hq hq' hid
    obtain ⟨rfl, hx⟩ | ⟨-, hcq⟩ := call_update hq
    · obtain ⟨rfl, -⟩ | ⟨-, hq'⟩ := call_update hq'
      · rfl
      · cases hx
        cases (hlt q' d' hq').ne hid.symm
    · obtain ⟨rfl, hx⟩ | ⟨-, hq'⟩ := call_update hq'
      · cases hx
        cases (hlt q d hcq).ne hid
      · exact h.distinct q q' d d' hcq hq' hid
  · intro q d hq r hr
    obtain ⟨rfl, hx⟩ | ⟨-, hq⟩ := call_update hq
    · cases hx
      exact Nat.lt_irrefl _ (h.returned_lt hr)
    · exact h.fresh q d hq r hr
  · intro id r hr
    obtain ⟨data', hdata, hr'⟩ := h.complete id r hr
    refine ⟨data', ?_, hr'⟩
    rw [List.getElem?_append_left (h.returned_lt hr), hdata]
  · intro id hid
    rw [List.length_append, List.length_singleton] at hid
    by_cases hid' : id = started.length
    · exact .inl ⟨p, _, update_self .., hid'.symm⟩
    · obtain ⟨q, d, hq, hd⟩ | hr := h.cover id (by omega)
      · refine .inl ⟨q, d, ?_, hd⟩
        rw [update_of_ne, hq]
        rintro rfl
        rw [hp] at hq
        cases hq
      · exact .inr hr
  · intro e he
    rw [List.length_append]
    exact Nat.lt_add_right _ (h.ids e he)

/-- A call makes a step, and writes a chunk or none. -/
theorem setCall
    (hp : call p = some c) {log' : List (Nat × List UInt8)} (hok : CallOk started log' c')
    (hid : c'.id = c.id) (hlog : log' = log ∨ ∃ bs, log' = log ++ [(c.id, bs)]) :
  Calls (update call p (some c')) started returned log'
  := by
  have hsame : ∀ id, id ≠ c.id → chunksOf log' id = chunksOf log id := by
    intro id hne
    obtain rfl | ⟨bs, rfl⟩ := hlog
    · rfl
    · rw [chunksOf_append, if_neg hne.symm, List.append_nil]
  have hcall : ∀ q d, update call p (some c') q = some d →
      ∃ d', call q = some d' ∧ d.id = d'.id := by
    intro q d hq
    obtain ⟨rfl, hx⟩ | ⟨-, hq⟩ := call_update hq
    · cases hx
      exact ⟨c, hp, hid⟩
    · exact ⟨d, hq, rfl⟩
  constructor
  · intro q d hq
    obtain ⟨rfl, hx⟩ | ⟨hqp, hq⟩ := call_update hq
    · cases hx
      exact hok
    · have hne : d.id ≠ c.id := fun heq => hqp (h.distinct q p d c hq hp heq)
      have hd := h.ok q d hq
      refine { hd with chunks := ?_ }
      rw [hsame _ hne, hd.chunks]
  · intro q q' d d' hq hq' heq
    obtain ⟨e, he, hde⟩ := hcall q d hq
    obtain ⟨e', he', hde'⟩ := hcall q' d' hq'
    exact h.distinct q q' e e' he he' (hde.symm.trans (heq.trans hde'))
  · intro q d hq r hr
    obtain ⟨e, he, hde⟩ := hcall q d hq
    rw [hde] at hr
    exact h.fresh q e he r hr
  · intro id r hr
    obtain ⟨data, hdata, hr', hchunks⟩ := h.complete id r hr
    refine ⟨data, hdata, hr', ?_⟩
    rw [hsame, hchunks]
    rintro rfl
    exact h.fresh p c hp r hr
  · intro id hid'
    obtain ⟨q, d, hq, hd⟩ | hr := h.cover id hid'
    · by_cases hqp : q = p
      · subst hqp
        obtain rfl : c = d := Option.some.inj (hp.symm.trans hq)
        exact .inl ⟨q, c', update_self .., hid.trans hd⟩
      · exact .inl ⟨q, d, (update_of_ne hqp ..).trans hq, hd⟩
    · exact .inr hr
  · intro e he
    obtain rfl | ⟨bs, rfl⟩ := hlog
    · exact h.ids e he
    · obtain he | he := List.mem_append.mp he
      · exact h.ids e he
      · rw [List.mem_singleton.mp he]
        exact (h.ok p c hp).id_lt

/-- A call that has written all its data returns. -/
theorem ret (hp : call p = some c) (hpc : c.pc = .test) (hi : c.i = c.data.length) :
  Calls (update call p none) started (returned ++ [(c.id, (c.data.length : Int))]) log
  := by
  have hc := h.ok p c hp
  constructor
  · intro q d hq
    obtain ⟨rfl, hx⟩ | ⟨-, hq⟩ := call_update hq
    · cases hx
    · exact h.ok q d hq
  · intro q q' d d' hq hq' heq
    obtain ⟨rfl, hx⟩ | ⟨-, hq⟩ := call_update hq
    · cases hx
    · obtain ⟨rfl, hx⟩ | ⟨-, hq'⟩ := call_update hq'
      · cases hx
      · exact h.distinct q q' d d' hq hq' heq
  · intro q d hq r hr
    obtain ⟨rfl, hx⟩ | ⟨hqp, hq⟩ := call_update hq
    · cases hx
    · obtain hr | hr := List.mem_append.mp hr
      · exact h.fresh q d hq r hr
      · apply hqp (h.distinct q p d c hq hp _)
        exact congrArg Prod.fst (List.mem_singleton.mp hr)
  · intro id r hr
    obtain hr | hr := List.mem_append.mp hr
    · exact h.complete id r hr
    · cases List.mem_singleton.mp hr
      refine ⟨c.data, hc.data, rfl, ?_⟩
      rw [hc.chunks, chunks, Call.done, hpc, hi]
      rfl
  · intro id hid
    obtain ⟨q, d, hq, hd⟩ | ⟨r, hr⟩ := h.cover id hid
    · by_cases hqp : q = p
      · subst hqp
        obtain rfl : c = d := Option.some.inj (hp.symm.trans hq)
        exact .inr ⟨c.data.length, by simp [hd]⟩
      · exact .inl ⟨q, d, (update_of_ne hqp ..).trans hq, hd⟩
    · exact .inr ⟨r, List.mem_append_left _ hr⟩
  · exact h.ids

end Calls

end

end Xv6.SharedFile
