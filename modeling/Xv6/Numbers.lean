import Mathlib.Data.Nat.Digits.Defs

/-!
# Printing and reading numbers

The two versions of `printint`, in `printf.c` and in `console.c`, and `atoi` of the user library.
-/

namespace Xv6.Numbers

/-- `buf[i++] = c` for a buffer of 16 characters, of which `buf` holds the first `i`, the last one
first.  This is the order in which they are printed. -/
def store (buf : List UInt8) (c : UInt8) : Option (List UInt8) :=
  if buf.length < 16 then some (c :: buf) else none

/-- `do{ buf[i++] = digits[x % base]; }while((x /= base) != 0)` -/
def digitLoop (digits : List UInt8) (base x : UInt32) (buf : List UInt8) : Option (List UInt8) :=
  if buf.length < 16 then
    let buf' := digits.getD (x % base).toNat 0 :: buf
    if x / base ≠ 0 then digitLoop digits base (x / base) buf' else some buf'
  else
    none
termination_by 16 - buf.length

/-- `printint` of the user library. -/
def printint (xx : Int32) (base : UInt32) (sgn : Bool) : Option (List UInt8) := do
  let neg := sgn && xx < 0
  let x := if neg then (-xx).toUInt32 else xx.toUInt32
  let buf ← digitLoop "0123456789ABCDEF".toUTF8.toList base x []
  if neg then store buf '-'.toUInt8 else some buf

/-- `printint` of the kernel. -/
def kernelPrintint (xx : Int32) (base : UInt32) (sign : Bool) : Option (List UInt8) := do
  -- `sign && (sign = xx < 0)`
  let sign := if sign then decide (xx < 0) else sign
  let x := if sign then (-xx).toUInt32 else xx.toUInt32
  let buf ← digitLoop "0123456789abcdef".toUTF8.toList base x []
  if sign then store buf '-'.toUInt8 else some buf

/-- The loop of `atoi` over the digits. -/
def atoiLoop (n : Int32) : List UInt8 → Int32
  | [] => n
  | c :: s =>
    if '0'.toUInt8 ≤ c ∧ c ≤ '9'.toUInt8 then
      atoiLoop (n * 10 + .ofNat c.toNat - .ofNat '0'.toNat) s
    else
      n

/-- `atoi` of the user library; the list ends where the string has its terminating zero. -/
def atoi (s : List UInt8) : Int32 :=
  let s := s.dropWhile (· = ' '.toUInt8)
  let sign : Int32 := if s.head? = some '-'.toUInt8 then -1 else 1
  let s := if s.head? = some '+'.toUInt8 ∨ s.head? = some '-'.toUInt8 then s.tail else s
  sign * atoiLoop 0 s

/-- `atoi` stops in front of these characters. -/
def Stops (rest : List UInt8) : Prop :=
  ∀ c ∈ rest.head?, ¬ ('0'.toUInt8 ≤ c ∧ c ≤ '9'.toUInt8)

/-! ### The digits of a number -/

variable {digits : List UInt8} {base x : UInt32} {buf : List UInt8} {f : Char → UInt8}

/-- The loop writes the digits of the number, if there is room for them. -/
theorem digitLoop_eq (hb : 1 < base.toNat) (hd : ∀ i < base.toNat, digits.getD i 0 = f i.digitChar)
    (hroom : (base.toNat.toDigits x.toNat).length + buf.length ≤ 16) :
  digitLoop digits base x buf = some ((base.toNat.toDigits x.toNat).map f ++ buf)
  := by
  have hdiv : ∀ x : UInt32, x / base = 0 ↔ x.toNat < base.toNat := by
    intro x
    rw [← UInt32.toNat_inj, UInt32.toNat_div, UInt32.toNat_zero, Nat.div_eq_zero_iff]
    omega
  fun_induction digitLoop digits base x buf with
  | case1 x buf _ buf' hne ih =>
    rw [ne_eq, hdiv, Nat.not_lt] at hne
    rw [UInt32.toNat_div] at ih
    rw [Nat.toDigits_of_base_le hb hne] at hroom ⊢
    simp only [List.length_append, List.length_singleton, Nat.add_assoc, Nat.add_comm 1] at hroom
    rw [ih hroom, List.map_append, List.append_assoc, List.map_singleton, List.singleton_append,
      ← hd _ (Nat.mod_lt _ (Nat.zero_lt_of_lt hb)), ← UInt32.toNat_mod]
  | case2 x buf _ buf' hzero =>
    rw [not_not, hdiv] at hzero
    rw [Nat.toDigits_of_lt_base hzero, List.map_singleton, ← hd _ hzero, List.singleton_append]
    rw [← Nat.mod_eq_of_lt hzero, ← UInt32.toNat_mod]
  | case3 x buf hfull =>
    have := Nat.length_toDigits_pos (b := base.toNat) (n := x.toNat)
    omega

/-- In base 10 and above there is room for all digits and a sign. -/
theorem store_digitLoop (hb : 10 ≤ base.toNat)
    (hd : ∀ i < base.toNat, digits.getD i 0 = f i.digitChar) (neg : Bool) :
  ((digitLoop digits base x []).bind fun buf => if neg then store buf '-'.toUInt8 else some buf) =
    some ((if neg then ['-'.toUInt8] else []) ++ (base.toNat.toDigits x.toNat).map f)
  := by
  have hlen : (base.toNat.toDigits x.toNat).length ≤ 10 := by
    apply Nat.toDigits_length _ _ _ (by decide)
    apply (x.toNat_lt.trans (by decide)).trans_le (Nat.pow_le_pow_left hb 10)
  rw [digitLoop_eq (by omega) hd (hlen.trans (by decide)), List.append_nil, Option.bind_some]
  cases neg
  · rfl
  · apply if_pos (c := List.length _ < 16)
    rw [List.length_map]
    omega

/-! ### Reading them back -/

theorem toUInt8_isDigit {c : Char} (h : c.isDigit) :
  c.toUInt8.toNat = c.toNat ∧ '0'.toUInt8 ≤ c.toUInt8 ∧ c.toUInt8 ≤ '9'.toUInt8
  := by
  rw [Char.isDigit_iff_toNat] at h
  have hbyte : c.toUInt8.toNat = c.toNat := Nat.mod_eq_of_lt (h.2.trans_lt (by decide))
  rw [UInt8.le_iff_toNat_le, UInt8.le_iff_toNat_le, hbyte]
  exact ⟨rfl, h⟩

/-- The digits are read as the number. -/
theorem atoiLoop_append (ds : List Char) (hds : ∀ c ∈ ds, c.isDigit) (n : Nat) (rest : List UInt8) :
  atoiLoop (.ofNat n) (ds.map Char.toUInt8 ++ rest) =
    atoiLoop (.ofNat (Nat.ofDigitChars 10 ds n)) rest
  := by
  induction ds generalizing n with
  | nil => rfl
  | cons c ds ih =>
    obtain ⟨hc, hds⟩ := List.forall_mem_cons.mp hds
    obtain ⟨hbyte, hdigit⟩ := toUInt8_isDigit hc
    obtain ⟨d, hd⟩ := Nat.exists_eq_add_of_le (Char.isDigit_iff_toNat.mp hc).1
    have hnext : Int32.ofNat n * 10 + .ofNat c.toNat - .ofNat '0'.toNat =
        .ofNat (10 * n + (c.toNat - '0'.toNat)) := by
      rw [hd, Nat.add_sub_cancel_left, Nat.add_comm, Nat.mul_comm]
      simp only [Int32.ofNat_add, Int32.ofNat_mul]
      grind
    rw [List.map_cons, List.cons_append, atoiLoop, if_pos hdigit, hbyte, hnext, ih hds,
      Nat.ofDigitChars_cons]

/-- `atoi` skips the spaces. -/
theorem atoi_spaces (k : Nat) (s : List UInt8) :
  atoi (List.replicate k ' '.toUInt8 ++ s) = atoi s
  := by
  have hdrop : (List.replicate k ' '.toUInt8 ++ s).dropWhile (· = ' '.toUInt8) =
      s.dropWhile (· = ' '.toUInt8) := by
    apply List.dropWhile_append_of_pos
    intro a ha
    rw [List.eq_of_mem_replicate ha, decide_eq_true rfl]
  rw [atoi, atoi, hdrop]

section

variable {rest : List UInt8} (h : Stops rest) (x : UInt32)

include h

theorem atoiLoop_digits :
  atoiLoop 0 ((Nat.toDigits 10 x.toNat).map Char.toUInt8 ++ rest) = x.toInt32
  := by
  have happ := atoiLoop_append (Nat.toDigits 10 x.toNat)
    (fun c => Nat.isDigit_of_mem_toDigits (by decide) le_rfl) 0 rest
  rw [Nat.ofDigitChars_ten_toDigits] at happ
  apply happ.trans
  cases rest with
  | nil => exact congrArg UInt32.toInt32 UInt32.ofNat_toNat
  | cons c s => exact (if_neg (h c rfl)).trans (congrArg UInt32.toInt32 UInt32.ofNat_toNat)

theorem atoi_digits :
  atoi ((Nat.toDigits 10 x.toNat).map Char.toUInt8 ++ rest) = x.toInt32
  := by
  rw [← atoiLoop_digits h x]
  obtain ⟨c, ds, hcs⟩ := List.exists_cons_of_ne_nil (Nat.toDigits_ne_nil (b := 10) (n := x.toNat))
  have hc : c ∈ Nat.toDigits 10 x.toNat := by
    rw [hcs]
    exact List.mem_cons_self
  have hdigit := (toUInt8_isDigit (Nat.isDigit_of_mem_toDigits (by decide) le_rfl hc)).2.1
  have hne : ∀ b, b < '0'.toUInt8 → c.toUInt8 ≠ b := by
    rintro b hb rfl
    exact UInt8.not_le.mpr hb hdigit
  have hspace := hne ' '.toUInt8 (by decide)
  have hplus := hne '+'.toUInt8 (by decide)
  have hminus := hne '-'.toUInt8 (by decide)
  simp [hcs, atoi, hspace, hplus, hminus]

theorem atoi_minus :
  atoi ('-'.toUInt8 :: ((Nat.toDigits 10 x.toNat).map Char.toUInt8 ++ rest)) = -1 * x.toInt32
  := by
  have hspace : '-'.toUInt8 ≠ ' '.toUInt8 := by decide
  simp [atoi, hspace, atoiLoop_digits h]

end

/-- `atoi` reads the number that `printf` prints for `%d`, for which it calls `printint` with base
10 and a sign, also after spaces and in front of anything but a digit.  The kernel prints the same
characters.  The buffer is large enough in base 10 and 16. -/
theorem atoi_printint (x : Int32) :
  (∃ out, printint x 10 true = some out ∧ kernelPrintint x 10 true = some out ∧
    ∀ k rest, Stops rest → atoi (List.replicate k ' '.toUInt8 ++ out ++ rest) = x) ∧
  ∀ base sgn, base = 10 ∨ base = 16 →
    printint x base sgn ≠ none ∧ kernelPrintint x base sgn ≠ none
  := by
  constructor
  · refine ⟨_, store_digitLoop (f := Char.toUInt8) (by decide) (by decide +kernel) _,
      store_digitLoop (by decide) (by decide +kernel) _, ?_⟩
    intro k rest hrest
    rw [List.append_assoc, atoi_spaces]
    by_cases hx : x < 0
    · simp only [hx, decide_true, Bool.and_true, if_true, List.cons_append]
      apply (atoi_minus hrest _).trans
      rw [Int32.toInt32_toUInt32]
      grind
    · simp only [hx, decide_false, Bool.and_false, Bool.false_eq_true, if_false, List.nil_append]
      apply (atoi_digits hrest _).trans (Int32.toInt32_toUInt32 x)
  · rintro base sgn (rfl | rfl)
    all_goals
      constructor
      · intro hnone
        cases (store_digitLoop (f := fun c => c.toUpper.toUInt8) (by decide) (by decide +kernel)
          _).symm.trans hnone
      · intro hnone
        cases (store_digitLoop (f := Char.toUInt8) (by decide) (by decide +kernel)
          _).symm.trans hnone

end Xv6.Numbers
