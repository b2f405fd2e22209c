import Xv6.Proc.Reachable
import Xv6.Proc.Edits
import Xv6.Syscall.Args

/-!
# `getprocs`

`sys_getprocs` checks that the caller's table has room for `max` entries, and `getprocs` fills in
at most `max` of them.  The check multiplies in 32 bits.
-/

namespace Xv6.Syscall

open Ptable

/-- `STRMAX` -/
abbrev STRMAX : Nat := 32

/-- `struct uproc`.  `getprocs` does not write the field `budget`. -/
structure Uproc where
  pid : UInt32
  uid : UInt32
  gid : UInt32
  ppid : UInt32
  elapsedTicks : UInt32
  cpuTotalTicks : UInt32
  state : List UInt8
  size : UInt32
  name : List UInt8
  priority : Nat

/-- `sizeof(struct uproc)`: nine words and two strings. -/
abbrev sizeofUproc : Nat := 4 * 9 + 2 * STRMAX

/-- The strings of `states`. -/
def stateName : ProcState → String
  | .unused => "unused"
  | .embryo => "embryo"
  | .sleeping => "sleep "
  | .runnable => "runble"
  | .running => "run   "
  | .zombie => "zombie"

/-- `safestrcpy` into an array of `n` bytes: the bytes before the NUL it ends with. -/
def safestrcpy (t : List UInt8) (n : Nat) : List UInt8 :=
  (t.takeWhile (· ≠ 0)).take (n - 1)

/-- The entry that `getprocs` writes for a slot, with the given name of the process. -/
def uproc (t : PTable) (name : Slot → List UInt8) (p : Slot) : Uproc :=
  let x := t.proc p
  { pid := x.pid
    uid := x.uid
    gid := x.gid
    ppid := match x.parent with
      | none => x.pid
      | some q => (t.proc q).pid
    elapsedTicks := t.ticks - x.startTicks
    cpuTotalTicks := x.cpuTicksTotal
    state := safestrcpy (stateName x.state).toUTF8.toList STRMAX
    size := x.sz
    name := safestrcpy (name p) STRMAX
    priority := x.priority }

/-- The loop of `getprocs` over the slots of a list, from an entry `counter` on: the entries that
it writes, with their addresses. -/
def getprocsLoop (t : PTable) (name : Slot → List UInt8) (max table : UInt32) :
    List Slot → UInt32 → List (UInt32 × Uproc)
  | [], _ => []
  | p :: ps, counter =>
      if (t.proc p).state = .unused ∨ (t.proc p).state = .embryo then
        getprocsLoop t name max table ps counter
      else if counter < max then
        (table + .ofNat sizeofUproc * counter, uproc t name p) ::
          getprocsLoop t name max table ps (counter + 1)
      else []

/-- The entries that `getprocs` writes.  Their number is its result. -/
def getprocs (t : PTable) (name : Slot → List UInt8) (max table : UInt32) :
    List (UInt32 × Uproc) :=
  getprocsLoop t name max table (List.finRange NPROC) 0

/-- The arguments with which `sys_getprocs` calls `getprocs`, if it does.  The result of the first
`argint` is not checked: if it fails then `max` has the value `junk` that is on the stack. -/
def getprocsArgs (u : Caller) (junk : UInt32) : Option (UInt32 × UInt32) := do
  let max := (u.argint 0).getD junk
  if max.toInt32 < 0 then none
  else
    let table ← u.argptr 1 (.ofNat sizeofUproc * max)
    return (max, table)

/-- An entry at an address is within the memory of a process of size `sz`. -/
abbrev Within (sz addr : UInt32) : Prop := addr.toNat + sizeofUproc ≤ sz.toNat

section

variable {t : PTable} {name : Slot → List UInt8} {max table : UInt32}

/-- Every entry that the loop writes is one of the first `max`, and has one of the numbers from
`counter` on. -/
theorem getprocsLoop_mem
    {ps : List Slot} {counter : UInt32} (hcounter : counter.toNat + ps.length < 2 ^ 32)
    {w : UInt32 × Uproc} (hw : w ∈ getprocsLoop t name max table ps counter) :
  ∃ k : Nat, k < max.toNat ∧ k < counter.toNat + ps.length ∧
    w.1 = table + .ofNat sizeofUproc * .ofNat k
  := by
  induction ps generalizing counter with
  | nil => cases hw
  | cons p ps ih =>
    rw [List.length_cons] at hcounter ⊢
    rw [getprocsLoop] at hw
    split at hw
    · obtain ⟨k, hmax, hk, hw⟩ := ih (by omega) hw
      exact ⟨k, hmax, by omega, hw⟩
    · split at hw
      · rename_i hlt
        rcases List.mem_cons.mp hw with rfl | hw
        · use counter.toNat, UInt32.lt_iff_toNat_lt.mp hlt, by omega
          rw [UInt32.ofNat_toNat]
        · have hsucc : (counter + 1).toNat = counter.toNat + 1 := by
            rw [UInt32.toNat_add, UInt32.toNat_one]
            omega
          obtain ⟨k, hmax, hk, hw⟩ := ih (by omega) hw
          exact ⟨k, hmax, by omega, hw⟩
      · cases hw

/-- If all slots are in use then the loop writes an entry for each of them, up to the first
`max`. -/
theorem mem_getprocsLoop
    (ht : ∀ p, (t.proc p).state = .running) {ps : List Slot} {counter : UInt32} {k : Nat}
    (hmax : counter.toNat + k < max.toNat) (hk : k < ps.length) :
  ∃ w ∈ getprocsLoop t name max table ps counter,
    w.1 = table + .ofNat sizeofUproc * .ofNat (counter.toNat + k)
  := by
  induction ps generalizing counter k with
  | nil => cases hk
  | cons p ps ih =>
    rw [List.length_cons] at hk
    have hlt : counter < max := UInt32.lt_iff_toNat_lt.mpr (by omega)
    have hbound := max.toNat_lt
    rw [getprocsLoop, if_neg (by simp [ht]), if_pos hlt]
    match k with
    | 0 =>
      refine ⟨_, List.mem_cons_self, ?_⟩
      rw [Nat.add_zero, UInt32.ofNat_toNat]
    | k + 1 =>
      have hsucc : (counter + 1).toNat = counter.toNat + 1 := by
        rw [UInt32.toNat_add, UInt32.toNat_one]
        omega
      have hroom : (counter + 1).toNat + k < max.toNat := by omega
      obtain ⟨w, hw, heq⟩ := ih hroom (Nat.lt_of_succ_lt_succ hk)
      use w, List.mem_cons_of_mem _ hw
      rw [heq, hsucc]
      congr 3
      omega

/-- The address of an entry that does not lie beyond the address space. -/
theorem toNat_entry {k : Nat} (h : table.toNat + sizeofUproc * k < 2 ^ 32) :
  (table + .ofNat sizeofUproc * .ofNat k).toNat = table.toNat + sizeofUproc * k
  := by
  have hsize : (UInt32.ofNat sizeofUproc).toNat = sizeofUproc := by decide
  have hk : (UInt32.ofNat k).toNat = k := by
    rw [UInt32.toNat_ofNat']
    apply Nat.mod_eq_of_lt
    simp only [sizeofUproc, STRMAX] at h ⊢
    omega
  rw [UInt32.toNat_add, UInt32.toNat_mul, hsize, hk]
  simp only [sizeofUproc, STRMAX] at h ⊢
  omega

end

/-- If the arguments pass the checks and the block of `max` entries ends within the address space
then it ends within the process. -/
theorem getprocsArgs_room
    {u : Caller} {junk max table : UInt32} (h : getprocsArgs u junk = some (max, table))
    (hend : table.toNat + sizeofUproc * max.toNat < 2 ^ 32) :
  table.toNat + sizeofUproc * max.toNat ≤ u.sz.toNat
  := by
  simp only [getprocsArgs, Option.ite_none_left_eq_some, Option.bind_eq_bind,
    Option.bind_eq_some_iff, Option.pure_def, Option.some.injEq, Prod.mk.injEq] at h
  obtain ⟨-, table', hptr, rfl, rfl⟩ := h
  have hle := (u.argptr_eq_some hptr).2.2
  rw [← UInt32.ofNat_toNat (x := (u.argint 0).getD junk), UInt32.le_iff_toNat_le,
    toNat_entry hend] at hle
  apply hle

/-- Every slot is in use. -/
def fullTable : PTable where
  proc _ :=
    { sz := 0, kstack := true, state := .running, pid := 1, parent := none, chan := .null,
      killed := false, ofile := fun _ => none, cwd := none, startTicks := 0, uid := 0, gid := 0,
      cpuTicksTotal := 0, cpuTicksIn := 0, priority := 0, budget := 0 }
  next _ := none
  list _ := ⟨none, none⟩
  ready _ := ⟨none, none⟩
  promoteAtTime := 0
  nextpid := 2
  initproc := none
  ticks := 0

/-- When `sys_getprocs` calls `getprocs`, the entries written stay within the caller's memory
whatever the process table holds, exactly if the block of `max` entries does not reach beyond the
address space or there is room for `NPROC` entries. -/
theorem getprocs_within
    {u : Caller} {junk max table : UInt32} (h : getprocsArgs u junk = some (max, table)) :
  (∀ t name, ∀ w ∈ getprocs t name max table, Within u.sz w.1) ↔
    table.toNat + sizeofUproc * max.toNat < 2 ^ 32 ∨
      table.toNat + sizeofUproc * NPROC ≤ u.sz.toNat
  := by
  constructor
  · intro hall
    by_contra hno
    rw [not_or, not_lt, not_le] at hno
    obtain ⟨hend, hroom⟩ := hno
    have hlt : table.toNat < u.sz.toNat := by
      simp only [getprocsArgs, Option.ite_none_left_eq_some, Option.bind_eq_bind,
        Option.bind_eq_some_iff, Option.pure_def, Option.some.injEq, Prod.mk.injEq] at h
      obtain ⟨-, table', hptr, -, rfl⟩ := h
      exact UInt32.lt_iff_toNat_lt.mp (u.argptr_eq_some hptr).2.1
    -- The entry in which the memory of the process ends.
    obtain ⟨k, hk⟩ : ∃ k, k = (u.sz.toNat - table.toNat) / sizeofUproc := ⟨_, rfl⟩
    have hsz := u.sz.toNat_lt
    simp only [sizeofUproc, STRMAX, NPROC] at hk hend hroom
    have hmax : (0 : UInt32).toNat + k < max.toNat := by
      rw [UInt32.toNat_zero]
      omega
    have hslot : k < (List.finRange NPROC).length := by
      rw [List.length_finRange]
      change k < 64
      omega
    obtain ⟨w, hw, haddr⟩ : ∃ w ∈ getprocs fullTable (fun _ => []) max table, _ :=
      mem_getprocsLoop (fun _ => rfl) hmax hslot
    have hin := hall fullTable (fun _ => []) w hw
    rw [Within, haddr, UInt32.toNat_zero, Nat.zero_add, toNat_entry] at hin
    · simp only [sizeofUproc, STRMAX] at hin
      omega
    · simp only [sizeofUproc, STRMAX]
      omega
  · intro hroom t name w hw
    obtain ⟨k, hmax, hk, haddr⟩ := getprocsLoop_mem (by decide) hw
    rw [UInt32.toNat_zero, Nat.zero_add, List.length_finRange] at hk
    have hsz := u.sz.toNat_lt
    have hend : table.toNat + sizeofUproc * (k + 1) ≤ u.sz.toNat := by
      rcases hroom with hend | hroom
      · have := getprocsArgs_room h hend
        simp only [sizeofUproc, STRMAX] at this ⊢
        omega
      · simp only [sizeofUproc, STRMAX, NPROC] at hroom hk ⊢
        omega
    simp only [sizeofUproc, STRMAX] at hend
    rw [Within, haddr, toNat_entry]
    · simp only [sizeofUproc, STRMAX]
      omega
    · simp only [sizeofUproc, STRMAX]
      omega

/-- A caller of 8192 bytes with `max` and `table` above its stack pointer. -/
def callerWith (max table : UInt32) : Caller where
  sz := 8192
  esp := 4096
  mem addr :=
    let arg := if addr < 4104 then max else table
    (arg >>> (8 * ((addr - 4100) % 4))).toUInt8

theorem getprocs_within_two_entries :
  getprocsArgs (callerWith 2 4200) 0 = some (2, 4200) ∧
    ∀ t name, ∀ w ∈ getprocs t name 2 4200, Within (callerWith 2 4200).sz w.1
  := by
  have h : getprocsArgs (callerWith 2 4200) 0 = some (2, 4200) := by decide +kernel
  exact ⟨h, (getprocs_within h).mpr (.inl (by decide))⟩

/-- With `max = 42949673` the size of the table is taken to be 4 bytes. -/
theorem getprocs_beyond :
  getprocsArgs (callerWith 42949673 8188) 0 = some (42949673, 8188) ∧
    ∃ w ∈ getprocs fullTable (fun _ => []) 42949673 8188,
      ¬ Within (callerWith 42949673 8188).sz w.1
  := by
  have h : getprocsArgs (callerWith 42949673 8188) 0 = some (42949673, 8188) := by decide +kernel
  obtain ⟨w, hw, haddr⟩ : ∃ w ∈ getprocs fullTable (fun _ => []) 42949673 8188, w.1 = 8188 :=
    mem_getprocsLoop (fun _ => rfl) (k := 0) (by decide) (by decide)
  use h, w, hw
  rw [haddr]
  decide

/-!
### What `getprocs` reports

The entries of `getprocs` are those of the first `max` slots in use, in the order of the slots.
`elapsed_ticks` is meant to be the age of the process, but `allocproc` does not set `start_ticks`:
the line stands under `CS333_p1`, which is never defined.  So the field is `ticks` itself, and it is
the age of the processes that were created at tick `0` only.
-/

/-! ### The entries -/

section

variable {t : PTable} {name : Slot → List UInt8} {max table : UInt32}

/-- The slots for which `getprocs` makes an entry, if there is room. -/
def listed (t : PTable) (ps : List Slot) : List Slot :=
  ps.filter fun p => (t.proc p).state ≠ .unused ∧ (t.proc p).state ≠ .embryo

/-- The entry with the number `i`, for the slot `p`. -/
def entry (t : PTable) (name : Slot → List UInt8) (table : UInt32) (i : Nat) (p : Slot) :
    UInt32 × Uproc :=
  (table + .ofNat sizeofUproc * .ofNat i, uproc t name p)

/-- The loop writes the entries of the listed slots as long as there is room. -/
theorem getprocsLoop_eq
    (ps : List Slot) {counter : UInt32} (hcounter : counter.toNat + ps.length < 2 ^ 32) :
  getprocsLoop t name max table ps counter =
    ((listed t ps).take (max.toNat - counter.toNat)).mapIdx
      fun i => entry t name table (counter.toNat + i)
  := by
  induction ps generalizing counter with
  | nil => simp [getprocsLoop, listed]
  | cons p ps ih =>
    rw [List.length_cons] at hcounter
    rw [getprocsLoop]
    split
    · rename_i hfree
      have hskip : listed t (p :: ps) = listed t ps := by
        apply List.filter_cons_of_neg
        rcases hfree with hs | hs <;> simp [hs]
      rw [ih (by omega), hskip]
    · rename_i hused
      have hkeep : listed t (p :: ps) = p :: listed t ps := by
        apply List.filter_cons_of_pos
        simpa using hused
      rw [hkeep]
      split
      · rename_i hlt
        rw [UInt32.lt_iff_toNat_lt] at hlt
        obtain ⟨k, hk⟩ : ∃ k, max.toNat - counter.toNat = k + 1 :=
          ⟨max.toNat - counter.toNat - 1, by omega⟩
        have hsucc : (counter + 1).toNat = counter.toNat + 1 := by
          rw [UInt32.toNat_add, UInt32.toNat_one]
          omega
        have hrest : max.toNat - (counter + 1).toNat = k := by
          omega
        rw [ih (by omega), hrest, hk, List.take_succ_cons, List.mapIdx_cons, hsucc]
        congr 1
        · rw [entry, Nat.add_zero, UInt32.ofNat_toNat]
        · simp only [Nat.add_assoc, Nat.add_comm 1]
      · rename_i hge
        rw [UInt32.lt_iff_toNat_lt, not_lt] at hge
        rw [Nat.sub_eq_zero_of_le hge, List.take_zero, List.mapIdx_nil]

end

/-! ### The start of a process -/

section

variable {v v' : View} {l : Label} {d : Option Slot}

/-- No step sets `start_ticks`. -/
abbrev SameStart (v v' : View) : Prop := ∀ x, (v'.proc x).startTicks = (v.proc x).startTicks

theorem sameStart_step (h : View.Step v l d v') : SameStart v v' := by
  intro x
  have hedits := h.edits x
  generalize v'.proc x = y at hedits ⊢
  induction hedits with
  | refl => rfl
  | tail _ he ih =>
    rw [← ih]
    cases he with
    | promotion =>
      rw [promotion]
      split <;> rfl
    | yield ticks | sleep ticks =>
      change (charge ticks _).startTicks = _
      rw [charge]
      split <;> rfl
    | reprioritized =>
      rw [reprioritized]
      split <;> rfl
    | _ => rfl

end

/-- In every reachable state `start_ticks` is zero. -/
theorem startTicks_eq_zero {s : Sys} (h : kernel.Reachable s) (p : Slot) :
  (s.pt.proc p).startTicks = 0
  := by
  induction h with
  | init h =>
    rw [Booted.proc_eq h]
    rfl
  | step hreach _ hstep ih =>
    rw [← ih]
    exact sameStart_step ((inv_of_reachable hreach).view_step hstep) p

/-- The slot for which a step ends `allocproc`. -/
def creates (s : Sys) : Label → Option Slot
  | .kalloc c true =>
      match s.cpu c with
      | none => none
      | some p =>
          match (s.thread p).call with
          | .alloc np => some np
          | _ => none
  | .bootKalloc true =>
      match s.boot with
      | .kalloc np => some np
      | _ => none
  | _ => none

/-- The value of `ticks` when `allocproc` last ended for each slot. -/
def recordBirth (s : Sys) (l : Label) (_ : Sys) (born : Slot → UInt32) : Slot → UInt32 :=
  match creates s l with
  | none => born
  | some np => Function.update born np s.pt.ticks

/-- The kernel with the times at which the processes were created. -/
def birthKernel : System (Sys × (Slot → UInt32)) Label Fault :=
  kernel.observe (fun _ _ => 0) recordBirth

/-- A step creates a process at tick `0` only. -/
def BornAtZero (x : Sys × (Slot → UInt32)) (l : Label) : Prop :=
  (creates x.1 l).isSome → x.1.pt.ticks = 0

instance (x : Sys × (Slot → UInt32)) (l : Label) : Decidable (BornAtZero x l) :=
  inferInstanceAs (Decidable (_ → _))

/-- In a run in which processes are created at tick `0` only, all of them are born at tick `0`. -/
theorem born_eq_zero {x : Sys × (Slot → UInt32)} (h : birthKernel.Reach BornAtZero x) (p : Slot) :
  x.2 p = 0
  := by
  revert p
  apply h.observe_invariant (I := fun _ born => ∀ p, born p = 0)
  · exact fun _ _ _ => rfl
  · intro s born l s' _ hborn hok _ p
    cases hnp : creates s l with
    | none =>
      rw [recordBirth, hnp]
      exact hborn p
    | some np =>
      rw [recordBirth, hnp]
      rcases eq_or_ne p np with rfl | hp
      · change Function.update born p s.pt.ticks p = 0
        rw [Function.update_self]
        apply hok
        rw [hnp]
        rfl
      · change Function.update born np s.pt.ticks p = 0
        rw [Function.update_of_ne hp]
        exact hborn p

/-- The entry tells the truth about the process of a slot, apart from its age. -/
structure Reports (t : PTable) (p : Slot) (e : Uproc) : Prop where
  pid : e.pid = (t.proc p).pid
  ppid : e.ppid = (t.proc ((t.proc p).parent.getD p)).pid
  cpuTotalTicks : e.cpuTotalTicks = (t.proc p).cpuTicksTotal
  priority : e.priority = (t.proc p).priority
  uid : e.uid = (t.proc p).uid
  gid : e.gid = (t.proc p).gid
  size : e.size = (t.proc p).sz

/-- `getprocs` reports the first `max` slots that are neither unused nor embryos, in the order of
the slots and without gaps, and what it reports is true.  The age is true in every run in which
processes are created at tick `0` only. -/
theorem getprocs_reports
    (x : Sys × (Slot → UInt32)) (name : Slot → List UInt8) (max table : UInt32) :
  let slots := (List.finRange NPROC).filter fun p =>
    (x.1.pt.proc p).state ≠ .unused ∧ (x.1.pt.proc p).state ≠ .embryo
  (getprocs x.1.pt name max table).length = min max.toNat slots.length ∧
  ∀ i w, (getprocs x.1.pt name max table)[i]? = some w →
    w.1 = table + .ofNat sizeofUproc * .ofNat i ∧
      ∃ p, slots[i]? = some p ∧ Reports x.1.pt p w.2 ∧
        (birthKernel.Reach BornAtZero x → w.2.elapsedTicks = x.1.pt.ticks - x.2 p)
  := by
  intro slots
  have heq : getprocs x.1.pt name max table
      = (slots.take max.toNat).mapIdx (entry x.1.pt name table) := by
    rw [getprocs, getprocsLoop_eq _ (by decide)]
    simp only [UInt32.toNat_zero, Nat.sub_zero, Nat.zero_add]
    rfl
  rw [heq]
  refine ⟨by rw [List.length_mapIdx, List.length_take], ?_⟩
  intro i w hw
  rw [List.getElem?_mapIdx, Option.map_eq_some_iff] at hw
  obtain ⟨p, hp, rfl⟩ := hw
  refine ⟨rfl, p, ?_, ⟨rfl, ?_, rfl, rfl, rfl, rfl, rfl⟩, ?_⟩
  · rw [List.getElem?_take] at hp
    split at hp
    · exact hp
    · cases hp
  · simp only [entry, uproc]
    cases (x.1.pt.proc p).parent <;> rfl
  · intro h
    rw [born_eq_zero h, ← startTicks_eq_zero h.observed p]
    rfl

/-- `init` calls `getprocs` at tick `1`. -/
theorem getprocs_reports_init :
  ∃ x, birthKernel.Reach BornAtZero x ∧ x.1.pt.ticks = 1 ∧
    ∃ w, (getprocs x.1.pt (fun _ => []) 1 0)[0]? = some w ∧ w.2.pid = 1 ∧ w.2.elapsedTicks = 1
  := by
  have hstart : birthKernel.init (firstSys, fun _ => 0) := ⟨booted_firstSys, rfl⟩
  obtain ⟨x, hreach, hticks, hpid, hfirst⟩ := System.exists_of_guard BornAtZero birthKernel
    hstart (initRun ++ [.tick]) (fun x => x.1.pt.ticks = 1 ∧ (x.1.pt.proc 0).pid = 1 ∧
      ((List.finRange NPROC).filter fun p =>
        (x.1.pt.proc p).state ≠ .unused ∧ (x.1.pt.proc p).state ≠ .embryo) = [0])
    (by decide +kernel)
  obtain ⟨hlength, hall⟩ := getprocs_reports x (fun _ => []) 1 0
  rw [hfirst] at hlength
  have hone : 0 < (getprocs x.1.pt (fun _ => []) 1 0).length := by
    rw [hlength]
    decide
  obtain ⟨w, hw⟩ : ∃ w, (getprocs x.1.pt (fun _ => []) 1 0)[0]? = some w :=
    ⟨_, List.getElem?_eq_getElem hone⟩
  obtain ⟨-, p, hp, hreport, hage⟩ := hall 0 w hw
  rw [hfirst] at hp
  obtain rfl : 0 = p := Option.some.inj hp
  refine ⟨x, hreach, hticks, w, hw, hreport.pid.trans hpid, ?_⟩
  rw [hage hreach, hticks, born_eq_zero hreach]
  rfl

/-- `init` forks at tick `1`, and the child is reported to be one tick old at once. -/
theorem getprocs_wrong_age :
  ∃ x, birthKernel.Reachable x ∧ (x.1.pt.proc 1).state = .runnable ∧ x.2 1 = x.1.pt.ticks ∧
    ((getprocs x.1.pt (fun _ => []) 2 0)[1]?.map fun w => (w.2.pid, w.2.elapsedTicks)) = some (2, 1)
  := by
  have hstart : birthKernel.init (firstSys, fun _ => 0) := ⟨booted_firstSys, rfl⟩
  obtain ⟨x, -, hreach, hx⟩ := System.exists_of_run birthKernel hstart
    (initRun ++ [.tick] ++ forkSteps)
    (fun x => (x.1.pt.proc 1).state = .runnable ∧ x.2 1 = x.1.pt.ticks ∧
      ((getprocs x.1.pt (fun _ => []) 2 0)[1]?.map fun w => (w.2.pid, w.2.elapsedTicks)) =
        some (2, 1)) (by decide +kernel)
  exact ⟨x, hreach, hx⟩

end Xv6.Syscall
