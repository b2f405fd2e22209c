import Mathlib.Order.Monotone.Basic

/-!
# The table of processors

`mpinit` in `mp.c` reads the configuration table that the firmware left in memory.  Its bytes are
given by their offsets.
-/

namespace Xv6.Mp

abbrev NCPU : Nat := 8

abbrev MPPROC : UInt8 := 0
abbrev MPBUS : UInt8 := 1
abbrev MPIOAPIC : UInt8 := 2
abbrev MPIOINTR : UInt8 := 3
abbrev MPLINTR : UInt8 := 4

/-- The types of entries. -/
abbrev Known (type : UInt8) : Prop := type ∈ [MPPROC, MPBUS, MPIOAPIC, MPIOINTR, MPLINTR]

/-- The bytes of the table and after it. -/
abbrev Conf : Type := Nat → UInt8

/-- `sum`; an `int` holds the sum of the bytes, and `uchar` is what is returned of it. -/
def sum (addr : Conf) (len : Nat) : UInt8 :=
  (List.range len).foldl (fun sum i => sum + addr i) 0

/-- `conf->length` -/
def Conf.length (conf : Conf) : Nat := (conf 4).toNat + 256 * (conf 5).toNat

/-- The tests of `mpconfig`: signature, version and checksum. -/
def mpconfig (conf : Conf) : Bool :=
  (List.range 4).map conf = "PCMP".toUTF8.toList && (conf 6 = 1 || conf 6 = 4) &&
    sum conf conf.length = 0

/-- The variables of the loop of `mpinit`; `p` is an offset in the table. -/
structure Vars where
  p : Nat
  ismp : Bool
  /-- The `apicid`s in `cpus`, of which there are `ncpu`. -/
  cpus : List UInt8
  ioapicid : UInt8

def Vars.ncpu (v : Vars) : Nat := v.cpus.length

/-- `p=(uchar*)(conf+1)` with the size of `struct mpconf`; the global variables are zero. -/
def start : Vars where
  p := 44
  ismp := true
  cpus := []
  ioapicid := 0

/-- The `switch` of `mpinit`.  The `break` of its last case does not leave the loop. -/
def switch (conf : Conf) (v : Vars) : Vars :=
  if conf v.p = MPPROC then
    if v.ncpu < NCPU then { v with cpus := v.cpus ++ [conf (v.p + 1)], p := v.p + 20 }
    else { v with p := v.p + 20 }
  else if conf v.p = MPIOAPIC then { v with ioapicid := conf (v.p + 1), p := v.p + 8 }
  else if conf v.p ∈ [MPBUS, MPIOINTR, MPLINTR] then { v with p := v.p + 8 }
  else { v with ismp := false }

/-- The loop of `mpinit`; `none` when it has not ended. -/
def loop (conf : Conf) : Nat → Vars → Option Vars
  | 0, _ => none
  | fuel + 1, v => if v.p < conf.length then loop conf fuel (switch conf v) else some v

/-- `mpinit`, with the text of the panic. -/
def mpinit (conf : Conf) (fuel : Nat) : Option (Except String Vars) :=
  if mpconfig conf then
    (loop conf fuel start).map fun v =>
      if v.ismp then .ok v else .error "Didn't find a suitable machine"
  else some (.error "Expect to run on an SMP")

/-! ### The entries of the table -/

/-- The offset of the entry `n`, after entries of known types: a `struct mpproc` has 20 bytes, and
all others have 8. -/
def offset (conf : Conf) : Nat → Nat
  | 0 => 44
  | n + 1 => offset conf n + if conf (offset conf n) = MPPROC then 20 else 8

/-- The identifiers of the processors in the first `n` entries. -/
def processors (conf : Conf) : Nat → List UInt8
  | 0 => []
  | n + 1 => processors conf n ++
      if conf (offset conf n) = MPPROC then [conf (offset conf n + 1)] else []

/-- The processors found are the first ones of the table. -/
def Tabulated (conf : Conf) (v : Vars) : Prop :=
  v.ncpu ≤ NCPU ∧ ∃ n, v.p = offset conf n ∧ v.cpus = (processors conf n).take NCPU

variable {conf : Conf} {v : Vars} {fuel n : Nat}

/-- The entries for other devices are passed. -/
theorem switch_device (h : Known (conf v.p)) (h0 : conf v.p ≠ MPPROC) :
  ∃ id, switch conf v = { v with p := v.p + 8, ioapicid := id }
  := by
  rw [switch, if_neg h0]
  split
  · exact ⟨_, rfl⟩
  · split
    · exact ⟨v.ioapicid, rfl⟩
    · simp_all [Known]

/-- An entry of a known type is passed. -/
theorem switch_p (h : Known (conf v.p)) (hp : v.p = offset conf n) :
  (switch conf v).p = offset conf (n + 1)
  := by
  rw [offset, ← hp]
  split
  · rename_i h0
    rw [switch, if_pos h0]
    split
    · rfl
    · rfl
  · rename_i h0
    obtain ⟨id, hswitch⟩ := switch_device h h0
    rw [hswitch]

/-- An entry of another type is not passed. -/
theorem switch_unknown (h : ¬ Known (conf v.p)) :
  switch conf v = { v with ismp := false }
  := by
  simp only [Known, List.mem_cons, List.not_mem_nil, or_false, not_or] at h
  simp [switch, h]

/-- One iteration keeps the table of processors. -/
theorem Tabulated.switch (h : Tabulated conf v) :
  Tabulated conf (switch conf v)
  := by
  obtain ⟨hn, n, hp, hcpus⟩ := h
  by_cases htype : Known (conf v.p)
  · suffices hnext : (Mp.switch conf v).cpus = (processors conf (n + 1)).take NCPU by
      refine ⟨?_, n + 1, switch_p htype hp, hnext⟩
      rw [Vars.ncpu, hnext]
      exact List.length_take_le ..
    rw [processors, ← hp]
    by_cases h0 : conf v.p = MPPROC
    · rw [if_pos h0, Mp.switch, if_pos h0]
      rw [Vars.ncpu, hcpus, List.length_take]
      split
      · have hshort : (processors conf n).length < NCPU := by omega
        rw [List.take_of_length_le hshort.le,
          List.take_of_length_le (by rw [List.length_append]; exact hshort)]
      · rw [List.take_append_of_le_length (by omega)]
    · obtain ⟨id, hswitch⟩ := switch_device htype h0
      rw [if_neg h0, List.append_nil, hswitch]
      exact hcpus
  · rw [switch_unknown htype]
    exact ⟨hn, n, hp, hcpus⟩

/-! ### Termination -/

/-- At an entry of an unknown type the loop does not end. -/
theorem loop_unknown (hp : v.p < conf.length) (htype : ¬ Known (conf v.p)) (fuel : Nat) :
  loop conf fuel v = none
  := by
  induction fuel generalizing v with
  | zero => rfl
  | succ fuel ih =>
    rw [loop, if_pos hp, switch_unknown htype]
    exact ih hp htype

/-- A loop that ends from the entry `n` has passed all entries after it. -/
theorem known_of_loop (hend : loop conf fuel v ≠ none) (hp : v.p = offset conf n) (j : Nat)
    (hj : offset conf (n + j) < conf.length) :
  Known (conf (offset conf (n + j)))
  := by
  induction fuel generalizing v n j with
  | zero => cases hend rfl
  | succ fuel ih =>
    have hmono : Monotone (offset conf) := monotone_nat_of_le_succ fun _ => Nat.le_add_right _ _
    have hlt : v.p < conf.length := hp ▸ (hmono (Nat.le_add_right n j)).trans_lt hj
    have htype : Known (conf v.p) := by
      by_contra htype
      exact hend (loop_unknown hlt htype _)
    cases j with
    | zero => exact hp ▸ htype
    | succ j =>
      rw [loop, if_pos hlt] at hend
      rw [Nat.add_comm j, ← Nat.add_assoc] at hj ⊢
      exact ih hend (switch_p htype hp) j hj

/-- With known types the loop ends, since every entry has a size. -/
theorem loop_ends (hknown : ∀ n, offset conf n < conf.length → Known (conf (offset conf n)))
    (hp : v.p = offset conf n) (hfuel : conf.length - v.p < fuel) :
  loop conf fuel v ≠ none
  := by
  induction fuel generalizing v n with
  | zero => cases hfuel
  | succ fuel ih =>
    rw [loop]
    split
    · rename_i hlt
      have hnext := switch_p (hp ▸ hknown n (hp ▸ hlt)) hp
      apply ih hnext
      rw [hnext, offset, ← hp]
      split
      · omega
      · omega
    · exact Option.some_ne_none _

/-- The loop ends with the variables of one of its iterations. -/
theorem loop_eq_iterate {v' : Vars} (hend : loop conf fuel v = some v') :
  ∃ k, v' = (switch conf)^[k] v
  := by
  induction fuel generalizing v with
  | zero => cases hend
  | succ fuel ih =>
    rw [loop] at hend
    split at hend
    · obtain ⟨k, hk⟩ := ih hend
      exact ⟨k + 1, hk⟩
    · cases hend
      exact ⟨0, rfl⟩

/-- For every table that passes the tests, `mpinit` ends, and at every iteration of its loop the
processors found are the first ones of the table, if and only if all entries of the table have
known types.  What the loop ends with is one of these iterations. -/
theorem mpinit_ends_iff (conf : Conf) (h : mpconfig conf) :
  (((∃ fuel, mpinit conf fuel ≠ none) ∧ ∀ k, Tabulated conf ((switch conf)^[k] start)) ↔
    ∀ n, offset conf n < conf.length → Known (conf (offset conf n))) ∧
  ∀ fuel v, loop conf fuel start = some v → ∃ k, v = (switch conf)^[k] start
  := by
  refine ⟨?_, fun _ _ => loop_eq_iterate⟩
  simp only [mpinit, if_pos h, Ne, Option.map_eq_none_iff]
  constructor
  · rintro ⟨⟨fuel, hend⟩, -⟩ n hn
    rw [← Nat.zero_add n] at hn ⊢
    exact known_of_loop (v := start) hend rfl n hn
  · intro hknown
    refine ⟨⟨conf.length + 1, loop_ends hknown (n := 0) rfl ?_⟩, ?_⟩
    · exact Nat.lt_succ_of_le (Nat.sub_le _ _)
    · intro k
      induction k with
      | zero => exact ⟨Nat.zero_le _, 0, rfl, rfl⟩
      | succ k ih =>
        rw [Function.iterate_succ_apply']
        exact ih.switch

/-- A table with the entry of one processor. -/
def oneProcessor : Conf := fun i =>
  ([80, 67, 77, 80, 64, 0, 1, 143] : List UInt8).getD i 0

theorem mpinit_ends_oneProcessor :
  mpconfig oneProcessor ∧
  (((∃ fuel, mpinit oneProcessor fuel ≠ none) ∧
      ∀ k, Tabulated oneProcessor ((switch oneProcessor)^[k] start)) ↔
    ∀ n, offset oneProcessor n < oneProcessor.length →
      Known (oneProcessor (offset oneProcessor n))) ∧
  ∀ fuel v, loop oneProcessor fuel start = some v → ∃ k, v = (switch oneProcessor)^[k] start
  := by
  have h : mpconfig oneProcessor := by decide +kernel
  exact ⟨h, mpinit_ends_iff oneProcessor h⟩

/-- A table with one entry, of type 5. -/
def unknownEntry : Conf := fun i =>
  if i = 44 then 5 else ([80, 67, 77, 80, 45, 0, 1, 157] : List UInt8).getD i 0

theorem mpinit_unknownEntry :
  mpconfig unknownEntry ∧ ∀ fuel, mpinit unknownEntry fuel = none
  := by
  have h : mpconfig unknownEntry := by decide +kernel
  refine ⟨h, fun fuel => ?_⟩
  rw [mpinit, if_pos h, loop_unknown (by decide) (by decide) fuel]
  rfl

end Xv6.Mp
