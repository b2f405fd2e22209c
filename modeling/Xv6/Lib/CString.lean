/-!
# C strings of bounded length

`strncmp` and `strncpy` on strings that end at the first NUL or after `n` characters.  A string is
given by the characters from a pointer on.
-/

/-- The characters from a pointer on. -/
abbrev CStr : Type := Nat → UInt8

namespace CStr

/-- The string one character further. -/
def tail (p : CStr) : CStr :=
  fun k => p (k + 1)

/-- The string in a buffer, with NULs after it. -/
def ofList (l : List UInt8) : CStr :=
  fun k => l.getD k 0

/-- The first `n` characters, up to a NUL. -/
def upTo (p : CStr) : Nat → List UInt8
  | 0 => []
  | n + 1 => if p 0 = 0 then [] else p 0 :: p.tail.upTo n

/-- `strncmp`: compare the first `n` characters. -/
def strncmp (p q : CStr) : Nat → Int
  | 0 => 0
  | n + 1 =>
      if p 0 ≠ 0 ∧ p 0 = q 0 then p.tail.strncmp q.tail n
      else (p 0).toNat - (q 0).toNat

/-- `strncpy`: the `n` characters that are stored at the destination. -/
def strncpy (t : CStr) : Nat → List UInt8
  | 0 => []
  | n + 1 => if t 0 = 0 then List.replicate (n + 1) 0 else t 0 :: t.tail.strncpy n

variable {p q t : CStr}

theorem strncmp_eq_zero_iff {n : Nat} :
  p.strncmp q n = 0 ↔ p.upTo n = q.upTo n
  := by
  induction n generalizing p q with
  | zero => simp [strncmp, upTo]
  | succ n ih =>
    rw [strncmp, upTo, upTo]
    by_cases hp : p 0 = 0
    · have hsub : ((p 0).toNat : Int) - (q 0).toNat = 0 ↔ q 0 = 0 := by
        rw [← UInt8.toNat_inj, hp, UInt8.toNat_zero]
        omega
      rw [if_neg (fun h => h.1 hp), if_pos hp, hsub]
      by_cases hq : q 0 = 0
      · simp [hq]
      · simp [hq]
    · by_cases hpq : p 0 = q 0
      · rw [if_pos ⟨hp, hpq⟩, if_neg hp, ← hpq, if_neg hp, ih]
        simp
      · have hsub : ¬ ((p 0).toNat : Int) - (q 0).toNat = 0 := by
          rw [← UInt8.toNat_inj] at hpq
          omega
        rw [if_neg (fun h => hpq h.2), if_neg hp]
        by_cases hq : q 0 = 0
        · simp [hq] at hsub ⊢
          exact hsub
        · simp [hq, hpq, hsub]

theorem tail_ofList_cons (c : UInt8) (l : List UInt8) :
  (ofList (c :: l)).tail = ofList l
  := by
  funext k
  simp [tail, ofList]

/-- The string that was copied is read back. -/
theorem upTo_strncpy (n : Nat) :
  (ofList (t.strncpy n)).upTo n = t.upTo n
  := by
  induction n generalizing t with
  | zero => rfl
  | succ n ih =>
    rw [strncpy, upTo, upTo]
    split
    · simp [ofList, List.replicate_succ]
    · rename_i h
      rw [tail_ofList_cons, ih]
      simp [ofList, h]

/-- The string depends on its first `n` characters. -/
theorem upTo_congr {n : Nat} (h : ∀ k < n, p k = q k) :
  p.upTo n = q.upTo n
  := by
  induction n generalizing p q with
  | zero => rfl
  | succ n ih =>
    have htail : p.tail.upTo n = q.tail.upTo n :=
      ih fun k hk => h (k + 1) (Nat.succ_lt_succ hk)
    rw [upTo, upTo, h 0 (Nat.succ_pos n), htail]

end CStr
