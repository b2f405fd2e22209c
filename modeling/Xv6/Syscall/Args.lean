import Xv6.Lib.Word
import Xv6.Vm.Memory

/-!
# Arguments of system calls

The functions of `syscall.c` that read the arguments of a system call from the memory of the
process that makes it.  A function that returns `-1` on failure returns in `Option`.
-/

namespace Xv6.Syscall

/-- What the argument functions read of the calling process: `sz`, `tf->esp` and its memory. -/
structure Caller where
  sz : UInt32
  esp : UInt32
  mem : UInt32 → UInt8

namespace Caller

variable (u : Caller)

/-- The word at an address, the lowest byte first. -/
def word (addr : UInt32) : UInt32 :=
  (u.mem addr).toUInt32 ||| (u.mem (addr + 1)).toUInt32 <<< 8 |||
    (u.mem (addr + 2)).toUInt32 <<< 16 ||| (u.mem (addr + 3)).toUInt32 <<< 24

/-- `fetchint` -/
def fetchint (addr : UInt32) : Option UInt32 :=
  if addr ≥ u.sz ∨ addr + 4 > u.sz then none else some (u.word addr)

/-- `argint` -/
def argint (n : UInt32) : Option UInt32 :=
  u.fetchint (u.esp + 4 + 4 * n)

/-- `argptr`: the pointer, if the block of `size` bytes at it passes the check. -/
def argptr (n size : UInt32) : Option UInt32 := do
  let i ← u.argint n
  if size.toInt32 < 0 ∨ i ≥ u.sz ∨ i + size > u.sz then none else some i

/-- The loop of `fetchstr`, with `n` bytes left: the bytes before the first that is `0`. -/
def fetchstrLoop : (n : Nat) → (s : UInt32) → Option (List UInt8)
  | 0, _ => none
  | n + 1, s =>
    if u.mem s = 0 then some [] else (fetchstrLoop n (s + 1)).map (u.mem s :: ·)

/-- `fetchstr`: the string, if it ends in the memory of the process. -/
def fetchstr (addr : UInt32) : Option (List UInt8) :=
  if addr ≥ u.sz then none else u.fetchstrLoop (u.sz.toNat - addr.toNat) addr

/-- `argstr` -/
def argstr (n : UInt32) : Option (List UInt8) := do
  let addr ← u.argint n
  u.fetchstr addr

/-- The check of `argptr`, without the conversions. -/
theorem argptr_eq_some {n size i : UInt32} (h : u.argptr n size = some i) :
  size.toNat < 2 ^ 31 ∧ i < u.sz ∧ i + size ≤ u.sz
  := by
  simp only [argptr, Option.bind_eq_bind, Option.bind_eq_some_iff, Option.ite_none_left_eq_some,
    not_or, Option.some.injEq] at h
  obtain ⟨i', -, ⟨hsize, hi, hend⟩, rfl⟩ := h
  rw [UInt32.toInt32_neg_iff] at hsize
  and_intros
  · omega
  · exact UInt32.not_le.mp hi
  · exact UInt32.not_lt.mp hend

variable {u}

theorem add_one_add_ofNat (s : UInt32) (i : Nat) :
  s + 1 + UInt32.ofNat i = s + UInt32.ofNat (i + 1)
  := by
  rw [UInt32.ofNat_add, UInt32.add_assoc, UInt32.add_comm 1]
  rfl

/-- The loop of `fetchstr` stops at the first byte that is `0`, before it runs out of bytes. -/
theorem fetchstrLoop_spec
    {n : Nat} {s : UInt32} {str : List UInt8} (h : u.fetchstrLoop n s = some str) :
  str.length < n ∧ u.mem (s + .ofNat str.length) = 0 ∧
    ∀ i < str.length, u.mem (s + .ofNat i) ≠ 0
  := by
  induction n generalizing s str with
  | zero => cases h
  | succ n ih =>
    rw [fetchstrLoop] at h
    split at h
    · rename_i hzero
      cases h
      use Nat.succ_pos n
      constructor
      · simpa using hzero
      · exact nofun
    · rename_i hfirst
      obtain ⟨str', hstr', rfl⟩ := Option.map_eq_some_iff.mp h
      obtain ⟨hlength, hend, hbefore⟩ := ih hstr'
      rw [List.length_cons]
      use Nat.succ_lt_succ hlength
      constructor
      · rw [← add_one_add_ofNat]
        exact hend
      · intro i hi
        cases i with
        | zero => simpa using hfirst
        | succ i =>
          rw [← add_one_add_ofNat]
          apply hbefore
          omega

/-- The `n` bytes at `addr` lie in the memory of the process, without wrapping around. -/
def Covers (u : Caller) (addr : UInt32) (n : Nat) : Prop :=
  addr.toNat + n ≤ u.sz.toNat

/-- There is a string of length `len` at `addr`, and it lies in the memory of the process with the
byte that ends it. -/
def HasString (u : Caller) (addr : UInt32) (len : Nat) : Prop :=
  u.Covers addr (len + 1) ∧ u.mem (addr + .ofNat len) = 0 ∧ ∀ i < len, u.mem (addr + .ofNat i) ≠ 0

theorem hasString_of_fetchstr
    {addr : UInt32} {str : List UInt8} (h : u.fetchstr addr = some str) :
  u.HasString addr str.length
  := by
  rw [fetchstr] at h
  split at h
  · cases h
  · obtain ⟨hlength, hstr⟩ := fetchstrLoop_spec h
    refine ⟨?_, hstr⟩
    rw [Covers]
    omega

/-- Below `2 ^ 31` the sum in a check does not wrap around. -/
theorem covers_of_add_le
    {addr size : UInt32} (hsz : u.sz.toNat ≤ Vm.KERNBASE) (hsize : size.toNat < 2 ^ 31)
    (haddr : addr < u.sz) (hend : addr + size ≤ u.sz) :
  u.Covers addr size.toNat
  := by
  rw [UInt32.lt_iff_toNat_lt] at haddr
  rw [UInt32.le_iff_toNat_le, UInt32.toNat_add, Nat.mod_eq_of_lt] at hend
  · exact hend
  · simp only [Vm.KERNBASE] at hsz
    omega

theorem covers_of_fetchint
    {addr v : UInt32} (hsz : u.sz.toNat ≤ Vm.KERNBASE) (h : u.fetchint addr = some v) :
  u.Covers addr 4 ∧ v = u.word addr
  := by
  rw [fetchint, Option.ite_none_left_eq_some, not_or, UInt32.not_le, UInt32.not_lt] at h
  obtain ⟨⟨haddr, hend⟩, hv⟩ := h
  exact ⟨covers_of_add_le hsz (by decide) haddr hend, (Option.some.inj hv).symm⟩

/-- What the argument functions accept lies in the memory of the process. -/
theorem argument_checks_sound (u : Caller) (hsz : u.sz.toNat ≤ Vm.KERNBASE) :
  (∀ addr v, u.fetchint addr = some v → u.Covers addr 4 ∧ v = u.word addr) ∧
    (∀ n v, u.argint n = some v →
      u.Covers (u.esp + 4 + 4 * n) 4 ∧ v = u.word (u.esp + 4 + 4 * n)) ∧
    (∀ n size i, u.argptr n size = some i → 0 ≤ size.toInt32 ∧ u.Covers i size.toNat) ∧
    (∀ addr str, u.fetchstr addr = some str → u.HasString addr str.length) ∧
    ∀ n str, u.argstr n = some str →
      ∃ addr, u.argint n = some addr ∧ u.fetchstr addr = some str ∧ u.HasString addr str.length
  := by
  and_intros
  · exact fun addr v => covers_of_fetchint hsz
  · exact fun n v => covers_of_fetchint hsz
  · intro n size i h
    obtain ⟨hsize, hi, hend⟩ := u.argptr_eq_some h
    constructor
    · rw [← Int32.not_lt, UInt32.toInt32_neg_iff]
      omega
    · exact covers_of_add_le hsz hsize hi hend
  · exact fun addr str => hasString_of_fetchstr
  · intro n str h
    obtain ⟨addr, haddr, hstr⟩ := Option.bind_eq_some_iff.mp h
    use addr, haddr, hstr
    exact hasString_of_fetchstr hstr

/-- A process of one page whose last byte is at the end of a string. -/
theorem argument_checks_sound_page :
  (⟨4096, 4000, fun a => if a = 4095 then 0 else 1⟩ : Caller).fetchstr 4094 = some [1] ∧
    (⟨4096, 4000, fun a => if a = 4095 then 0 else 1⟩ : Caller).HasString 4094 1
  := by
  have hstr : (⟨4096, 4000, fun a => if a = 4095 then 0 else 1⟩ : Caller).fetchstr 4094
      = some [1] := by
    decide
  exact ⟨hstr, (argument_checks_sound _ (by decide)).2.2.2.1 4094 [1] hstr⟩

/-- A string of equal bytes. -/
theorem fetchstrLoop_replicate
    {k n : Nat} {s : UInt32} {b : UInt8} (hb : b ≠ 0)
    (hmem : ∀ i < k, u.mem (s + .ofNat i) = b) (hend : u.mem (s + .ofNat k) = 0) (hn : k < n) :
  u.fetchstrLoop n s = some (List.replicate k b)
  := by
  induction k generalizing n s with
  | zero =>
    obtain ⟨n, rfl⟩ := Nat.exists_eq_add_of_lt hn
    have hzero : u.mem s = 0 := by
      simpa using hend
    rw [Nat.zero_add, fetchstrLoop, if_pos hzero, List.replicate_zero]
  | succ k ih =>
    obtain ⟨n, rfl⟩ : ∃ n', n = n' + 1 := ⟨n - 1, by omega⟩
    have hfirst : u.mem s = b := by
      simpa using hmem 0 (Nat.succ_pos k)
    rw [fetchstrLoop, hfirst, if_neg hb, ih, Option.map_some, List.replicate_succ]
    · intro i hi
      rw [add_one_add_ofNat]
      apply hmem
      omega
    · rw [add_one_add_ofNat]
      apply hend
    · omega

end Caller

end Xv6.Syscall
