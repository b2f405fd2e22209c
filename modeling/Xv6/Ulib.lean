import Mathlib.Logic.Function.Basic

/-!
# Functions of the user library and their versions in the kernel

`memmove` of the kernel in `string.c` chooses the direction of the copy, and that of the user
library in `ulib.c` always copies upwards.  Addresses that do not wrap around are natural numbers.
-/

namespace Xv6.Ulib

open Function (update update_self update_of_ne)

/-- The bytes at all addresses. -/
abbrev Mem : Type := Nat → UInt8

/-- `while(n-- > 0) *d++ = *s++` -/
def copyUp (m : Mem) (d s : Nat) : Nat → Mem
  | 0 => m
  | n + 1 => copyUp (update m d (m s)) (d + 1) (s + 1) n

/-- `while(n-- > 0) *--d = *--s` -/
def copyDown (m : Mem) (d s : Nat) : Nat → Mem
  | 0 => m
  | n + 1 => copyDown (update m (d - 1) (m (s - 1))) (d - 1) (s - 1) n

/-- `memmove` of the kernel. -/
def kernelMemmove (m : Mem) (dst src n : Nat) : Mem :=
  if src < dst ∧ src + n > dst then copyDown m (dst + n) (src + n) n else copyUp m dst src n

/-- `memmove` of the user library. -/
def ulibMemmove (m : Mem) (dst src n : Nat) : Mem :=
  copyUp m dst src n

/-- The `n` bytes at `dst` are those that were at `src`, and all others are unchanged. -/
def Moved (m : Mem) (dst src n : Nat) (m' : Mem) : Prop :=
  ∀ a, m' a = if dst ≤ a ∧ a < dst + n then m (src + (a - dst)) else m a

variable {m : Mem} {d s n : Nat}

/-- The bytes below the destination are not changed on the way up. -/
theorem copyUp_of_lt {a : Nat} (h : a < d) :
  copyUp m d s n a = m a
  := by
  induction n generalizing m d s with
  | zero => rfl
  | succ n ih => rw [copyUp, ih (by omega), update_of_ne (by omega)]

/-- The copy upwards is right when the destination does not start inside the source. -/
theorem moved_copyUp (h : d ≤ s ∨ s + n ≤ d) :
  Moved m d s n (copyUp m d s n)
  := by
  induction n generalizing m d s with
  | zero =>
    intro a
    rw [if_neg (by omega), copyUp]
  | succ n ih =>
    intro a
    rw [copyUp, ih (by omega) a]
    rcases Nat.lt_trichotomy a d with ha | rfl | ha
    · rw [if_neg (by omega), if_neg (by omega), update_of_ne (by omega)]
    · rw [if_neg (by omega), if_pos (by omega), update_self, Nat.sub_self, Nat.add_zero]
    · by_cases hn : a < d + (n + 1)
      · rw [if_pos (by omega), if_pos (by omega), update_of_ne (by omega)]
        congr 1
        omega
      · rw [if_neg (by omega), if_neg (by omega), update_of_ne (by omega)]

/-- The copy downwards is right when the source does not start inside the destination. -/
theorem moved_copyDown (h : s ≤ d) :
  Moved m d s n (copyDown m (d + n) (s + n) n)
  := by
  induction n generalizing m with
  | zero =>
    intro a
    rw [if_neg (by omega), copyDown]
  | succ n ih =>
    intro a
    rw [copyDown, Nat.add_succ_sub_one, Nat.add_succ_sub_one, ih a]
    rcases Nat.lt_trichotomy a (d + n) with ha | rfl | ha
    · by_cases hd : d ≤ a
      · rw [if_pos (by omega), if_pos (by omega), update_of_ne (by omega)]
      · rw [if_neg (by omega), if_neg (by omega), update_of_ne (by omega)]
    · rw [if_neg (by omega), if_pos (by omega), update_self, Nat.add_sub_cancel_left]
    · rw [if_neg (by omega), if_neg (by omega), update_of_ne (by omega)]

theorem copyUp_add (k : Nat) :
  copyUp m d s (k + n) = copyUp (copyUp m d s k) (d + k) (s + k) n
  := by
  induction k generalizing m d s with
  | zero => rw [Nat.zero_add, copyUp, Nat.add_zero, Nat.add_zero]
  | succ k ih =>
    rw [Nat.add_right_comm, copyUp, ih, copyUp, Nat.add_right_comm d, Nat.add_right_comm s]
    rfl

/-- When the destination starts inside the source, the first byte is copied twice. -/
theorem copyUp_overlap (h : s < d) (h' : d < s + n) :
  copyUp m d s n (d + (d - s)) = m s
  := by
  obtain ⟨j, rfl⟩ : ∃ j, n = d - s + (j + 1) := ⟨n - (d - s) - 1, by omega⟩
  have hfirst : copyUp m d s (d - s) d = m s := by
    rw [moved_copyUp (by omega) d, if_pos (by omega), Nat.sub_self, Nat.add_zero]
  have hsrc : s + (d - s) = d := by omega
  rw [copyUp_add, copyUp, copyUp_of_lt (by omega), update_self, hsrc, hfirst]

/-- Both versions of `memmove` move the bytes, whatever the memory holds, if and only if the
destination does not start inside the source, after its first byte. -/
theorem memmove_agree_iff (dst src n : Nat) :
  (∀ m, Moved m dst src n (kernelMemmove m dst src n) ∧
    Moved m dst src n (ulibMemmove m dst src n)) ↔
  ¬ (src < dst ∧ dst < src + n)
  := by
  constructor
  · rintro h ⟨hlt, hlt'⟩
    have hmoved := (h fun a => if a = src then 1 else 0).2 (dst + (dst - src))
    have hin : dst - src < n := by omega
    have hne : dst - src ≠ 0 := by omega
    rw [ulibMemmove, copyUp_overlap hlt hlt'] at hmoved
    simp [hin, hne] at hmoved
  · intro h m
    refine ⟨?_, moved_copyUp (by omega)⟩
    rw [kernelMemmove]
    split
    · exact moved_copyDown (by omega)
    · exact moved_copyUp (by omega)

/-- The bytes `1`, `2` are moved up by one. -/
theorem ulibMemmove_overlap :
  ∃ m : Mem, (m 0 = 1 ∧ m 1 = 2) ∧ ulibMemmove m 1 0 2 2 = 1 ∧ kernelMemmove m 1 0 2 2 = 2
  := ⟨fun a => if a = 0 then 1 else 2, by decide⟩

end Xv6.Ulib
