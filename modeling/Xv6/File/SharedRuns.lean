import Xv6.File.Shared

/-!
# Shared writes do not overwrite each other

Whoever holds the lock of the inode writes at the end of what has been written so far, so the file
holds the chunks of all calls one after the other.
-/

namespace Xv6.SharedFile

open Fs
open Function

/-! ### One chunk -/

theorem splice_splice
    {α : Type} {l a b : List α} {off : Nat} (h : off ≤ l.length) :
  splice (splice l off a) (off + a.length) b = splice l off (a ++ b)
  := by
  have hlen : (l.take off ++ a).length = off + a.length := by
    simp [h]
  rw [splice, splice, splice, ← hlen, List.take_left, List.drop_append, hlen, List.append_assoc,
    List.length_append]
  simp [Nat.add_assoc]
  omega

theorem splice_nil {α : Type} (l : List α) (off : Nat) :
  splice l off [] = l
  := by
  simp [splice]

/-- `writei` accepts what begins in the file and ends before the greatest size. -/
theorem accepts_of_le
    {x : Dinode} {off : UInt32} {n : Nat} (hoff : off.toNat ≤ x.size.toNat)
    (hbound : off.toNat + n ≤ MAXFILE * BSIZE) :
  (UInt32.ofNat n).toNat = n ∧ ¬ Refuses x off (.ofNat n)
  := by
  have hn : (UInt32.ofNat n).toNat = n :=
    UInt32.toNat_ofNat_of_lt' ((Nat.le_add_left ..).trans_lt (hbound.trans_lt (by decide)))
  use hn
  rintro (hgt | hlt | hgt)
  · rw [gt_iff_lt, UInt32.lt_iff_toNat_lt] at hgt
    omega
  · rw [UInt32.lt_iff_toNat_lt, UInt32.toNat_add, hn] at hlt
    simp only [MAXFILE, NDIRECT, NINDIRECT, BSIZE] at hbound
    omega
  · rw [hn] at hgt
    omega

/-- The file system has stored the chunks of `log`. -/
structure Stored {P : Type} (ip : Slot) (s₀ : Sys P) (fs : FileSys)
    (log : List (Nat × List UInt8)) : Prop where
  ready : Ready fs ip
  noHole : (fs.inode ip).NoHole fs.disk
  type : (fs.inode ip).type = T_FILE
  inum : (fs.inode ip).inum = (s₀.fs.inode ip).inum
  file : fs.file (s₀.fs.inode ip).inum.toNat
    = splice (s₀.fs.file (s₀.fs.inode ip).inum.toNat) s₀.off.toNat (bytes log)

section

variable {P : Type} {ip : Slot} {s₀ : Sys P} {fs : FileSys} {log : List (Nat × List UInt8)}

theorem Initial.off_le (h : Initial ip s₀) :
  s₀.off.toNat ≤ (s₀.fs.file (s₀.fs.inode ip).inum.toNat).length
  := by
  rw [h.ready.length_file, ← UInt32.le_iff_toNat_le]
  exact h.off

theorem Initial.stored (h : Initial ip s₀) :
  Stored ip s₀ s₀.fs s₀.log
  := by
  refine ⟨h.ready, h.noHole, h.type, rfl, ?_⟩
  rw [h.log, bytes, List.map_nil, List.flatten_nil, splice_nil]

theorem Stored.length_le (h : Stored ip s₀ fs log) (hinit : Initial ip s₀) :
  s₀.off.toNat + (bytes log).length ≤ (fs.inode ip).size.toNat
  := by
  rw [← h.ready.length_file, h.inum, h.file]
  simp only [splice, List.length_append, List.length_take, Nat.min_eq_left hinit.off_le]
  omega

/-- `writei` at the end of what has been written. -/
theorem Stored.writei
    (h : Stored ip s₀ fs log) (hinit : Initial ip s₀) {off : UInt32} {n : Nat}
    (hoff : off.toNat = s₀.off.toNat + (bytes log).length)
    (hbound : off.toNat + n ≤ MAXFILE * BSIZE) (src : Nat → UInt8) (id : Nat) :
  Wp (· = .outOfBlocks) (writeiAll ip src off (.ofNat n))
    (fun r fs' => r = n ∧ Stored ip s₀ fs' (log ++ [(id, (List.range n).map src)])) fs
  := by
  have hholds := h.ready.holds h.noHole
  have hdev : (fs.inode ip).type ≠ T_DEV := by
    rw [h.type]
    decide
  obtain ⟨hn, haccepts⟩ := accepts_of_le (hoff.trans_le (h.length_le hinit)) hbound
  have hspec := writeiAll_spec hholds rfl hdev src off (.ofNat n)
  apply (hspec.fail fun _ hf => hf.1).mono
  rw [hholds.copy, hn]
  rintro r fs' (⟨hrefuses, -⟩ | ⟨-, hr, ino', hw⟩)
  · cases haccepts hrefuses
  · obtain ⟨hready, hhole⟩ := hw.ready h.ready
    refine ⟨hr, hready, hhole, ?_, ?_, ?_⟩
    · rw [hw.entry]
      exact h.type
    · rw [hw.inum_eq, h.inum]
    · have hfile := hw.file_eq h.ready
      rw [h.inum, h.file, hoff, splice_splice hinit.off_le] at hfile
      rw [hfile, bytes_append]

end

/-! ### The invariant -/

/-- The process holds the lock of the inode. -/
def Pc.Holding : Pc → Prop
  | .test | .ended _ => False
  | .locked | .wrote _ | .moved _ => True

/-- What `f->off` lacks. -/
def Pc.pending : Pc → Nat
  | .wrote r => r.toNat
  | _ => 0

/-- What `f->off` lacks: the length of a chunk between `writei` and the change of the offset. -/
def Sys.pending {P : Type} (s : Sys P) : Nat :=
  match s.lock with
  | some p => ((s.call p).map (·.pc.pending)).getD 0
  | none => 0

structure Inv {P : Type} (ip : Slot) (s₀ s : Sys P) : Prop where
  calls : Calls s.call s.started s.returned s.log
  stored : Stored ip s₀ s.fs s.log
  locked : ∀ p, s.lock = some p ↔ ∃ c, s.call p = some c ∧ c.pc.Holding
  off : s.off.toNat + s.pending = s₀.off.toNat + (bytes s.log).length
  bound : s₀.off.toNat + (s.started.map List.length).sum ≤ MAXFILE * BSIZE

section

variable {P : Type} [DecidableEq P] {ip : Slot} {s₀ s : Sys P} {p : P} {c : Call}

omit [DecidableEq P] in
theorem Inv.initial (h : Initial ip s₀) :
  Inv ip s₀ s₀
  := by
  constructor
  · rw [h.started, h.returned, h.log]
    constructor
    · intro p c hp
      rw [h.call] at hp
      cases hp
    · intro p q c d hp
      rw [h.call] at hp
      cases hp
    · intro p c hp
      rw [h.call] at hp
      cases hp
    · simp
    · simp
    · simp
  · exact h.stored
  · simp [h.lock, h.call]
  · simp [Sys.pending, h.lock, h.log, bytes]
  · have hsize := (h.ready.holds h.noHole).owned.size_le (h.ready.holds h.noHole).live
    rw [(h.ready.holds h.noHole).copy] at hsize
    have := UInt32.le_iff_toNat_le.mp h.off
    rw [h.started]
    simp only [List.map_nil, List.sum_nil]
    omega

omit [DecidableEq P] in
theorem Inv.not_locked (h : Inv ip s₀ s) (hp : ∀ c ∈ s.call p, ¬ c.pc.Holding) :
  s.lock ≠ some p
  := by
  intro hlock
  obtain ⟨c, hc, hpc⟩ := (h.locked p).mp hlock
  exact hp c hc hpc

omit [DecidableEq P] in
theorem Sys.pending_eq (hlock : s.lock = some p) (hp : s.call p = some c) :
  s.pending = c.pc.pending
  := by
  simp [pending, hlock, hp]

section

variable (h : Inv ip s₀ s)

include h

/-- A process without the lock makes a step and does not take it. -/
theorem Inv.aside
    (hp : s.lock ≠ some p) {x : Option Call} (hx : ∀ c ∈ x, ¬ c.pc.Holding) {s' : Sys P}
    (hcall : s'.call = update s.call p x) (hlock : s'.lock = s.lock) (hfs : s'.fs = s.fs)
    (hoff : s'.off = s.off) (hlog : s'.log = s.log)
    (hcalls : Calls s'.call s'.started s'.returned s'.log)
    (hbound : s₀.off.toNat + (s'.started.map List.length).sum ≤ MAXFILE * BSIZE) :
  Inv ip s₀ s'
  := by
  have hpending : s'.pending = s.pending := by
    rw [Sys.pending, Sys.pending, hlock]
    split
    · rename_i q hq
      rw [hcall, update_of_ne]
      rintro rfl
      exact hp hq
    · rfl
  refine ⟨hcalls, ?_, ?_, ?_, hbound⟩
  · rw [hfs, hlog]
    exact h.stored
  · intro q
    rw [hlock, hcall, h.locked]
    by_cases hq : q = p
    · subst hq
      rw [update_self, ← h.locked]
      constructor
      · intro hlock'
        cases hp hlock'
      · rintro ⟨c, hc, hpc⟩
        cases hx c hc hpc
    · rw [update_of_ne hq]
  · rw [hpending, hoff, hlog]
    exact h.off

theorem Inv.filewrite
    (hp : s.call p = none) {data : List UInt8}
    (hfits : s₀.off.toNat + (s.started.map List.length).sum + data.length ≤ MAXFILE * BSIZE) :
  Inv ip s₀ { s.setCall p ⟨s.started.length, data, 0, .test⟩ with started := s.started ++ [data] }
  := by
  have hlock : s.lock ≠ some p := h.not_locked (by simp [hp])
  refine h.aside hlock (x := some ⟨s.started.length, data, 0, .test⟩) (by simp [Pc.Holding])
    rfl rfl rfl rfl rfl (h.calls.start hp data) ?_
  simp only [List.map_append, List.sum_append, List.map_cons, List.map_nil, List.sum_cons,
    List.sum_nil]
  omega

/-- A call returns when all data has been written. -/
theorem Inv.ret (hp : s.call p = some c) (hpc : c.pc = .test) (hi : c.i = c.data.length) :
  Inv ip s₀ (s.ret p c c.data.length)
  := by
  have hlock : s.lock ≠ some p := h.not_locked (by simp [hp, hpc, Pc.Holding])
  exact h.aside hlock (x := none) (by simp) rfl rfl rfl rfl rfl
    (h.calls.ret hp hpc hi) h.bound

/-- The next chunk begins. -/
theorem Inv.again (hp : s.call p = some c) {r : Int} (hpc : c.pc = .ended r) (hr : r = c.n1) :
  Inv ip s₀ (s.setCall p { c with i := c.i + r.toNat, pc := .test })
  := by
  have hlock : s.lock ≠ some p := h.not_locked (by simp [hp, hpc, Pc.Holding])
  have hc := h.calls.ok p c hp
  have hlt := hc.lt (by simp [hpc])
  have haligned := hc.aligned hlt
  have hn1 : r.toNat = min (c.data.length - c.i) maxChunk := by
    rw [hr, Call.n1]
    simp only [maxChunk]
    omega
  have hok : CallOk s.started s.log { c with i := c.i + r.toNat, pc := .test } := by
    constructor
    · exact hc.data
    · dsimp only
      omega
    · intro hne
      cases hne rfl
    · dsimp only
      simp only [maxChunk, Log.MAXOPBLOCKS] at *
      omega
    · intro r' hr'
      cases hr'
    · rw [hc.chunks]
      congr 2
      simp only [Call.done, hpc, Pc.result?, Option.isSome_some, Option.isSome_none, if_true,
        Bool.false_eq_true, if_false]
      simp only [maxChunk, Log.MAXOPBLOCKS] at *
      omega
  exact h.aside hlock (x := some { c with i := c.i + r.toNat, pc := .test })
    (by simp [Pc.Holding]) rfl rfl rfl rfl rfl (h.calls.setCall hp hok rfl (.inl rfl)) h.bound

omit h in
/-- A step of a call within the same chunk. -/
theorem CallOk.setPc
    {started : List (List UInt8)} {log : List (Nat × List UInt8)} (h : CallOk started log c)
    (pc : Pc) (hlt : c.i < c.data.length) (hresult : pc.result? = c.pc.result?) :
  CallOk started log { c with pc := pc }
  := by
  constructor
  · exact h.data
  · exact h.le
  · intro _
    exact hlt
  · exact h.aligned
  · intro r hr
    dsimp only at hr
    rw [hresult] at hr
    exact h.result r hr
  · rw [h.chunks, Call.done, Call.done]
    dsimp only
    rw [hresult]

omit h in
/-- The next chunk of a call has been written. -/
theorem CallOk.wrote
    {started : List (List UInt8)} {log : List (Nat × List UInt8)} (h : CallOk started log c)
    (hpc : c.pc = .locked) :
  CallOk started (log ++ [(c.id, (c.data.drop c.i).take c.n1)]) { c with pc := .wrote c.n1 }
  := by
  have hlt := h.lt (by simp [hpc])
  have haligned := h.aligned hlt
  constructor
  · exact h.data
  · exact h.le
  · intro _
    exact hlt
  · exact h.aligned
  · intro r hr
    exact (Option.some.inj hr).symm
  · have hk : (c.i + maxChunk - 1) / maxChunk * maxChunk = c.i := by
      simp only [maxChunk, Log.MAXOPBLOCKS] at *
      omega
    have hchunk : chunk c.data ((c.i + maxChunk - 1) / maxChunk) = (c.data.drop c.i).take c.n1 := by
      rw [chunk, hk, List.take_eq_take_iff, List.length_drop, Call.n1]
      omega
    simp only [chunksOf_append, if_true, h.chunks, Call.done, hpc, Pc.result?, Option.isSome_none,
      Option.isSome_some, Bool.false_eq_true, if_false, Nat.add_zero, List.range_succ,
      List.map_append, List.map_cons, List.map_nil, hchunk]

omit h in
/-- `ilock` of an inode in the cache. -/
theorem ilock_eq {fs : FileSys} (h : Ready fs ip) :
  Fs.ilock ip fs = .ok ((), fs)
  := by
  have href : ¬ (fs.inode ip).ref < 1 := by
    have := h.cached.1
    omega
  have hvalid := h.cached.2
  simp only [Fs.ilock, bind, StateT.bind, get, getThe, MonadStateOf.get, StateT.get, pure,
    Except.pure, Except.bind, if_neg href, hvalid]
  rfl

/-- The process with the lock makes a step and keeps it, or takes it when it is free. -/
theorem Inv.inside
    (hlock : s.lock = some p ∨ s.lock = none) {c' : Call} (hc' : c'.pc.Holding) {s' : Sys P}
    (hcall : s'.call = update s.call p (some c')) (hlock' : s'.lock = some p)
    (hstarted : s'.started = s.started) (hcalls : Calls s'.call s'.started s'.returned s'.log)
    (hstored : Stored ip s₀ s'.fs s'.log)
    (hoff : s'.off.toNat + c'.pc.pending = s₀.off.toNat + (bytes s'.log).length) :
  Inv ip s₀ s'
  := by
  have hself : s'.call p = some c' := by
    rw [hcall, update_self]
  refine ⟨hcalls, hstored, ?_, ?_, ?_⟩
  · intro q
    rw [hlock']
    by_cases hq : q = p
    · subst hq
      rw [hself]
      simp [hc']
    · rw [hcall, update_of_ne hq, ← h.locked, Option.some.injEq]
      constructor
      · rintro rfl
        cases hq rfl
      · intro hother
        rw [hother] at hlock
        simpa [eq_comm] using hlock
  · rw [Sys.pending_eq hlock' hself]
    exact hoff
  · rw [hstarted]
    exact h.bound

/-- A process takes the lock. -/
theorem Inv.lock
    (hp : s.call p = some c) (hpc : c.pc = .test) (hi : c.i < c.data.length) (hfree : s.lock = none)
    :
  Inv ip s₀ { s.setCall p { c with pc := .locked } with lock := some p }
  := by
  have hok := (h.calls.ok p c hp).setPc .locked hi (by rw [hpc]; rfl)
  have hoff := h.off
  rw [Sys.pending, hfree] at hoff
  exact h.inside (.inr hfree) (by trivial) rfl rfl rfl (h.calls.setCall hp hok rfl (.inl rfl))
    h.stored hoff

end

/-- The bytes of a chunk. -/
theorem Call.map_range_n1 (c : Call) :
  (List.range c.n1).map (fun k => c.data.getD (c.i + k) 0) = (c.data.drop c.i).take c.n1
  := by
  apply List.ext_getElem
  · simp [n1]
  · intro k hk _
    simp only [List.length_map, List.length_range, n1] at hk
    simp only [List.getElem_map, List.getElem_range, List.getElem_take, List.getElem_drop]
    rw [List.getD_eq_getElem]

/-- What a call has written is the start of its data. -/
theorem CallOk.bytes
    {started : List (List UInt8)} {log : List (Nat × List UInt8)} (h : CallOk started log c) :
  (chunksOf log c.id).flatten = c.data.take (c.done * maxChunk) ∧ started.getD c.id [] = c.data
  := by
  rw [h.chunks, flatten_chunk, List.getD_eq_getElem?_getD, h.data]
  exact ⟨rfl, rfl⟩

omit [DecidableEq P] in
/-- All calls together write no more than their data. -/
theorem Calls.length_bytes_le
    {call : P → Option Call} {started : List (List UInt8)} {returned : List (Nat × Int)}
    {log : List (Nat × List UInt8)} (h : Calls call started returned log)
    (hp : call p = some c) (hpc : c.pc = .locked) :
  (bytes log).length + c.n1 ≤ (started.map List.length).sum
  := by
  have hc := h.ok p c hp
  have hlt := hc.lt (by simp [hpc])
  have haligned := hc.aligned hlt
  have hself : (chunksOf log c.id).flatten.length + c.n1 ≤ c.data.length := by
    rw [hc.bytes.1, List.length_take, Call.done, hpc, Call.n1]
    simp only [Pc.result?, Option.isSome_none, Bool.false_eq_true, if_false]
    simp only [maxChunk, Log.MAXOPBLOCKS] at *
    omega
  have hterm : ∀ id ∈ Finset.range started.length,
      (chunksOf log id).flatten.length + (if id = c.id then c.n1 else 0)
        ≤ (started.getD id []).length := by
    intro id hid
    split
    · rename_i heq
      rw [heq, hc.bytes.2]
      exact hself
    · obtain ⟨q, d, hq, rfl⟩ | ⟨r, hr⟩ := h.cover id (Finset.mem_range.mp hid)
      · rw [(h.ok q d hq).bytes.1, (h.ok q d hq).bytes.2, List.length_take]
        omega
      · obtain ⟨data, hdata, -, hchunks⟩ := h.complete id r hr
        rw [hchunks, flatten_chunks, List.getD_eq_getElem?_getD, hdata]
        exact le_rfl
  have hsum := Finset.sum_le_sum hterm
  rw [Finset.sum_add_distrib, Finset.sum_ite_eq', if_pos (Finset.mem_range.mpr hc.id_lt)] at hsum
  rw [length_bytes h.ids, sum_lengths]
  exact hsum

section

variable (h : Inv ip s₀ s) (hp : s.call p = some c)

include h hp

/-- A chunk is written. -/
theorem Inv.write (hinit : Initial ip s₀) (hpc : c.pc = .locked) :
  Wp (· = .outOfBlocks) (writeiAll ip (fun k => c.data.getD (c.i + k) 0) s.off (.ofNat c.n1))
    (fun r fs => Inv ip s₀ { s.setCall p { c with pc := .wrote r } with
      fs := fs
      log := if 0 ≤ r then s.log ++ [(c.id, (c.data.drop c.i).take r.toNat)] else s.log }) s.fs
  := by
  have hlock : s.lock = some p := (h.locked p).mpr ⟨c, hp, by simp [hpc, Pc.Holding]⟩
  have hc := h.calls.ok p c hp
  have hlt := hc.lt (by simp [hpc])
  have hoff : s.off.toNat = s₀.off.toNat + (bytes s.log).length := by
    rw [← h.off, Sys.pending_eq hlock hp, hpc]
    rfl
  have hle := h.calls.length_bytes_le hp hpc
  have hbound := h.bound
  have hspec := h.stored.writei hinit (n := c.n1) hoff (by omega)
    (fun k => c.data.getD (c.i + k) 0) c.id
  apply hspec.mono
  rintro r fs ⟨rfl, hstored⟩
  rw [c.map_range_n1] at hstored
  rw [if_pos (by omega), Int.toNat_natCast]
  have hok := hc.wrote hpc
  refine h.inside (.inl hlock) (by trivial) rfl hlock rfl
    (h.calls.setCall hp hok rfl (.inr ⟨_, rfl⟩)) hstored ?_
  have hlen : ((c.data.drop c.i).take c.n1).length = c.n1 := by
    rw [List.length_take, List.length_drop, Call.n1]
    omega
  rw [bytes_append, List.length_append, hlen]
  change s.off.toNat + c.n1 = _
  omega

/-- The offset is advanced. -/
theorem Inv.move (hinit : Initial ip s₀) {r : Int} (hpc : c.pc = .wrote r) :
  Inv ip s₀ { s.setCall p { c with pc := .moved r } with
    off := if 0 < r then s.off + .ofNat r.toNat else s.off }
  := by
  have hlock : s.lock = some p := (h.locked p).mpr ⟨c, hp, by simp [hpc, Pc.Holding]⟩
  have hc := h.calls.ok p c hp
  have hlt := hc.lt (by simp [hpc])
  have hr : r = c.n1 := hc.result r (by simp [hpc, Pc.result?])
  have hpos : 0 < r := by
    rw [hr, Call.n1]
    simp only [maxChunk, Log.MAXOPBLOCKS]
    omega
  have hok := hc.setPc (.moved r) hlt (by rw [hpc]; rfl)
  have hoff := h.off
  rw [Sys.pending_eq hlock hp, hpc] at hoff
  have hsize := h.stored.length_le hinit
  refine h.inside (.inl hlock) (by trivial) rfl hlock rfl
    (h.calls.setCall hp hok rfl (.inl rfl)) h.stored ?_
  have hadd : (s.off + .ofNat r.toNat).toNat = s.off.toNat + r.toNat := by
    have := (s.fs.inode ip).size.toNat_lt
    simp only [Pc.pending] at hoff
    rw [UInt32.toNat_add, UInt32.toNat_ofNat']
    omega
  simp only [if_pos hpos, hadd]
  exact hoff

/-- The lock is released. -/
theorem Inv.unlock {r : Int} (hpc : c.pc = .moved r) :
  Inv ip s₀ { s.setCall p { c with pc := .ended r } with lock := none }
  := by
  have hlock : s.lock = some p := (h.locked p).mpr ⟨c, hp, by simp [hpc, Pc.Holding]⟩
  have hc := h.calls.ok p c hp
  have hok := hc.setPc (.ended r) (hc.lt (by simp [hpc])) (by rw [hpc]; rfl)
  have hoff := h.off
  rw [Sys.pending_eq hlock hp, hpc] at hoff
  refine ⟨h.calls.setCall hp hok rfl (.inl rfl), h.stored, ?_, hoff, h.bound⟩
  intro q
  constructor
  · intro hq
    cases hq
  · rintro ⟨d, hd, hdpc⟩
    obtain ⟨rfl, hx⟩ | ⟨hqp, hq⟩ := call_update hd
    · cases hx
      cases hdpc
    · have hlock' := (h.locked q).mpr ⟨d, hq, hdpc⟩
      rw [hlock] at hlock'
      cases hqp (Option.some.inj hlock').symm

/-! ### Every run -/

theorem Inv.advance (hinit : Initial ip s₀) :
  System.Outcome (· ≠ .fs .outOfBlocks) (Inv ip s₀) (s.advance ip p c)
  := by
  have hc := h.calls.ok p c hp
  rw [Sys.advance]
  split
  · rename_i hpc
    split
    · rename_i hi
      split
      · rename_i hfree
        rw [ilock_eq h.stored.ready]
        exact h.lock hp hpc hi (Option.isNone_iff_eq_none.mp hfree)
      · trivial
    · rename_i hi
      have hlen : c.i = c.data.length := Nat.le_antisymm hc.le (Nat.not_lt.mp hi)
      rw [if_pos hlen]
      exact h.ret hp hpc hlen
  · rename_i hpc
    have hwrite := h.write hp hinit hpc
    rw [Wp] at hwrite
    split
    · rename_i hok
      rw [hok] at hwrite
      exact hwrite
    · rename_i herror
      rw [herror] at hwrite
      exact not_not.mpr (congrArg Fault.fs hwrite)
  · rename_i r hpc
    exact h.move hp hinit hpc
  · rename_i r hpc
    have hlock : s.lock = some p := (h.locked p).mpr ⟨c, hp, by simp [hpc, Pc.Holding]⟩
    have href := h.stored.ready.cached.1
    rw [if_pos ⟨hlock, by omega⟩]
    exact h.unlock hp hpc
  · rename_i r hpc
    have hr : r = c.n1 := hc.result r (by simp [hpc, Pc.result?])
    rw [if_neg (by omega), if_neg (not_not.mpr hr)]
    exact h.again hp hpc hr

end

theorem Inv.step (h : Inv ip s₀ s) (hinit : Initial ip s₀) (l : Label P) (hfits : Fits s₀ s l) :
  System.Outcome (· ≠ .fs .outOfBlocks) (Inv ip s₀) (s.step ip l)
  := by
  cases l with
  | filewrite p data =>
    rw [Sys.step]
    split
    · trivial
    · rename_i hp
      exact h.filewrite hp hfits
  | next p =>
    rw [Sys.step]
    split
    · rename_i c hp
      exact h.advance hp hinit
    · trivial

/-- Data that is one chunk is contiguous. -/
theorem contiguous
    {log : List (Nat × List UInt8)} {id : Nat} {data : List UInt8}
    (hchunks : chunksOf log id = chunks data) (hle : data.length ≤ maxChunk) :
  ∃ before after, bytes log = before ++ data ++ after
  := by
  by_cases hdata : data = []
  · exact ⟨bytes log, [], by simp [hdata]⟩
  · have hone : (data.length + maxChunk - 1) / maxChunk = 1 := by
      have := List.length_pos_iff.mpr hdata
      simp only [maxChunk, Log.MAXOPBLOCKS] at *
      omega
    have hmem : data ∈ chunksOf log id := by
      rw [hchunks, chunks, hone]
      simp [chunk, List.take_of_length_le hle]
    rw [chunksOf, List.mem_map] at hmem
    obtain ⟨e, he, rfl⟩ := hmem
    obtain ⟨before, after, rfl⟩ := List.append_of_mem (List.mem_filter.mp he).1
    exact ⟨bytes before, bytes after, by simp [bytes]⟩

/-- In every run of processes that write to a shared file, as long as the data fits into the
largest file: the file is the initial one with the chunks written so far, one after the other, from
the initial offset on; the chunks of a call that has returned are those of its data, in their
order, and it returned the length of the data; data of one chunk is contiguous in the file; when
no call is in progress, all calls have returned and the offset has advanced by the sum of the
lengths.  No step panics unless the disk is full. -/
theorem shared_writes
    (hinit : Initial ip s₀) (h : (system ip s₀).Reach (Fits s₀) s) :
  (s.fs.file (s₀.fs.inode ip).inum.toNat
    = splice (s₀.fs.file (s₀.fs.inode ip).inum.toNat) s₀.off.toNat (bytes s.log)) ∧
  (∀ e ∈ s.log, e.1 < s.started.length) ∧
  (∀ id r, (id, r) ∈ s.returned → ∃ data, s.started[id]? = some data ∧ r = data.length ∧
    chunksOf s.log id = chunks data ∧
    (data.length ≤ maxChunk → ∃ before after, bytes s.log = before ++ data ++ after)) ∧
  ((∀ p, s.call p = none) →
    (∀ id < s.started.length, ∃ r, (id, r) ∈ s.returned) ∧
    s.off.toNat = s₀.off.toNat + (s.started.map List.length).sum) ∧
  ∀ l, Fits s₀ s l → ∀ f, s.step ip l = some (.error f) → f = .fs .outOfBlocks
  := by
  have hfirst : ∀ s, (system ip s₀).init s → Inv ip s₀ s := by
    rintro s rfl
    exact .initial hinit
  obtain ⟨hinv, hfault⟩ := h.outcome hfirst (fun s l hs hok => hs.step hinit l hok)
  refine ⟨hinv.stored.file, hinv.calls.ids, ?_, ?_, ?_⟩
  · intro id r hr
    obtain ⟨data, hdata, hlen, hchunks⟩ := hinv.calls.complete id r hr
    refine ⟨data, hdata, hlen, hchunks, ?_⟩
    intro hle
    exact contiguous hchunks hle
  · intro hidle
    have hreturned : ∀ id < s.started.length, ∃ r, (id, r) ∈ s.returned := by
      intro id hid
      obtain ⟨p, c, hp, -⟩ | hr := hinv.calls.cover id hid
      · rw [hidle p] at hp
        cases hp
      · exact hr
    refine ⟨hreturned, ?_⟩
    have hpending : s.pending = 0 := by
      rw [Sys.pending]
      split
      · rw [hidle]
        rfl
      · rfl
    have hoff := hinv.off
    rw [hpending, length_bytes hinv.calls.ids] at hoff
    rw [← Nat.add_zero s.off.toNat, hoff, sum_lengths]
    congr 1
    apply Finset.sum_congr rfl
    intro id hid
    obtain ⟨r, hr⟩ := hreturned id (Finset.mem_range.mp hid)
    obtain ⟨data, hdata, -, hchunks⟩ := hinv.calls.complete id r hr
    rw [hchunks, flatten_chunks, List.getD_eq_getElem?_getD, hdata]
    rfl
  · intro l hl f hf
    exact not_not.mp (hfault l hl f hf)

end

/-- An empty file that two processes share. -/
def emptyFile : Sys Bool where
  fs := ((blockSystem.run smallSys [.ialloc 2, .ilock 0]).map (·.fs)).getD smallSys.fs
  off := 0
  lock := none
  call _ := none
  started := []
  returned := []
  log := []

theorem initial_emptyFile :
  Initial 0 emptyFile
  := by
  obtain ⟨s, hs, hreach, href, hvalid, htype⟩ := System.exists_of_run blockSystem booted_smallSys
    [.ialloc 2, .ilock 0] (fun s => (s.fs.inode 0).ref = 1 ∧ (s.fs.inode 0).valid = true ∧
      (s.fs.inode 0).type = 2) (by decide +kernel)
  have hfs : emptyFile.fs = s.fs := by
    rw [emptyFile, hs]
    rfl
  obtain ⟨hready, hhole⟩ := Ready.of_reachable hreach ⟨by omega, hvalid⟩
  rw [← hfs] at hready hhole htype
  exact ⟨hready, hhole, htype, UInt32.zero_le, rfl, fun _ => rfl, rfl, rfl, rfl⟩

/-- The second process writes between the start of the first call and its chunk. -/
theorem shared_writes_emptyFile :
  ∃ s, (system 0 emptyFile).Reach (Fits emptyFile) s ∧ s.returned = [(1, 1), (0, 2)] ∧
    s.fs.file (emptyFile.fs.inode 0).inum.toNat
      = splice (emptyFile.fs.file (emptyFile.fs.inode 0).inum.toNat) 0 [3, 1, 2]
  := by
  obtain ⟨s, hreach, hreturned, hbytes⟩ := System.exists_of_guard (Fits emptyFile)
    (system 0 emptyFile) rfl
    ([.filewrite false [1, 2], .filewrite true [3]] ++ List.replicate 6 (.next true)
      ++ List.replicate 6 (.next false))
    (fun s => s.returned = [(1, 1), (0, 2)] ∧ bytes s.log = [3, 1, 2]) (by decide +kernel)
  have hfile := (shared_writes initial_emptyFile hreach).1
  rw [hbytes] at hfile
  exact ⟨s, hreach, hreturned, hfile⟩

end Xv6.SharedFile
