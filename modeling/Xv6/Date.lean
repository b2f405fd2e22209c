/-!
# The weekday of a date

`dayofweek` of `date.c`, for arguments for which no value leaves the range of `int`.  The dates of
the Gregorian calendar, extended to all years from 1 on, are counted from 1 January of the year 1,
which is a Monday.
-/

namespace Xv6.Calendar

/-- `days` -/
def days : List String := ["Sun", "Mon", "Tue", "Wed", "Thu", "Fri", "Sat"]

/-- `dayofweek`; `d+=m<3?y--:y-2` takes the old value of `y`. -/
def dayofweek (y m d : Int) : Int :=
  let d := d + if m < 3 then y else y - 2
  let y := if m < 3 then y - 1 else y
  ((23 * m).tdiv 9 + d + 4 + y.tdiv 4 - y.tdiv 100 + y.tdiv 400).tmod 7

/-! ### The calendar -/

def isLeap (y : Nat) : Bool := y % 4 = 0 ∧ (y % 100 ≠ 0 ∨ y % 400 = 0)

def monthLength (leap : Bool) : Nat → Nat
  | 2 => if leap then 29 else 28
  | 4 | 6 | 9 | 11 => 30
  | _ => 31

/-- The days of the first `n` months of a year. -/
def daysOfMonths (leap : Bool) : Nat → Nat
  | 0 => 0
  | n + 1 => daysOfMonths leap n + monthLength leap (n + 1)

/-- The days of the first `n` years. -/
def daysOfYears : Nat → Nat
  | 0 => 0
  | n + 1 => daysOfYears n + daysOfMonths (isLeap (n + 1)) 12

theorem monthLength_pos (leap : Bool) (m : Nat) :
  0 < monthLength leap m
  := by
  unfold monthLength
  split
  · cases leap <;> decide
  all_goals decide

/-- A date of the calendar. -/
structure Date where
  year : Nat
  month : Nat
  day : Nat
  year_pos : 0 < year
  month_mem : 0 < month ∧ month ≤ 12
  day_mem : 0 < day ∧ day ≤ monthLength (isLeap year) month

namespace Date

/-- The following day. -/
def next (x : Date) : Date :=
  if h : x.day < monthLength (isLeap x.year) x.month then
    { x with day := x.day + 1, day_mem := ⟨Nat.succ_pos _, h⟩ }
  else if h' : x.month < 12 then
    { x with
      month := x.month + 1
      day := 1
      month_mem := ⟨Nat.succ_pos _, h'⟩
      day_mem := ⟨Nat.one_pos, monthLength_pos _ _⟩ }
  else ⟨x.year + 1, 1, 1, Nat.succ_pos _, by decide, Nat.one_pos, monthLength_pos _ _⟩

/-- The number of days since 1 January of the year 1. -/
def number (x : Date) : Nat :=
  daysOfYears (x.year - 1) + daysOfMonths (isLeap x.year) (x.month - 1) + (x.day - 1)

/-- The weekday; `0` is Sunday. -/
def weekday (x : Date) : Nat := (x.number + 1) % 7

theorem number_next (x : Date) :
  x.next.number = x.number + 1
  := by
  obtain ⟨y, m, d, hy, hm, hd⟩ := x
  obtain ⟨y, rfl⟩ := Nat.exists_eq_add_one_of_ne_zero (Nat.ne_of_gt hy)
  obtain ⟨m, rfl⟩ := Nat.exists_eq_add_one_of_ne_zero (Nat.ne_of_gt hm.1)
  unfold next
  dsimp only
  split
  · simp only [number]
    omega
  · split
    · simp only [number, Nat.add_sub_cancel, daysOfMonths]
      omega
    · obtain rfl : m = 11 := by omega
      simp only [number, Nat.add_sub_cancel, Nat.sub_self, daysOfMonths, daysOfYears]
      omega

end Date

/-! ### The formula -/

theorem daysOfMonths_year (leap : Bool) :
  daysOfMonths leap 12 = 365 + if leap then 1 else 0
  := by
  cases leap <;> rfl

theorem isLeap_count (y : Nat) :
  (if isLeap y then 1 else 0) + (if 100 ∣ y then 1 else 0) =
    (if 4 ∣ y then 1 else 0) + if 400 ∣ y then 1 else 0
  := by
  by_cases h : 100 ∣ y
  · have h4 : 4 ∣ y := Nat.dvd_trans (by decide) h
    simp [isLeap, h, h4, ← Nat.dvd_iff_mod_eq_zero, Nat.add_comm]
  · have h400 : ¬ 400 ∣ y := fun h' => h (Nat.dvd_trans (by decide) h')
    simp [isLeap, h, h400, ← Nat.dvd_iff_mod_eq_zero]

theorem daysOfYears_eq (n : Nat) :
  daysOfYears n + n / 100 = 365 * n + n / 4 + n / 400
  := by
  induction n with
  | zero => rfl
  | succ n ih =>
    have hleap := isLeap_count (n + 1)
    rw [daysOfYears, daysOfMonths_year, Nat.succ_div, Nat.succ_div, Nat.succ_div]
    omega

/-- What `23*m/9` counts. -/
theorem daysOfMonths_mod (leap : Bool) :
  ∀ m < 13, 0 < m → daysOfMonths leap (m - 1) % 7 =
    (23 * m / 9 + if m < 3 then 5 else 3 + if leap then 1 else 0) % 7
  := by
  cases leap <;> decide

theorem dayofweek_eq_weekday (x : Date) :
  dayofweek x.year x.month x.day = x.weekday
  := by
  obtain ⟨y, m, d, hy, hm, hd⟩ := x
  obtain ⟨n, rfl⟩ := Nat.exists_eq_add_one_of_ne_zero (Nat.ne_of_gt hy)
  have hmonths := daysOfMonths_mod (isLeap (n + 1)) m (by omega) hm.1
  have hdiv : (23 * (m : Int)) / 9 = (23 * m / 9 : Nat) := rfl
  simp only [Date.weekday, Date.number, dayofweek, Nat.add_sub_cancel]
  by_cases h : m < 3
  · have hyears := daysOfYears_eq n
    have h' : (m : Int) < 3 := Int.ofNat_lt.mpr h
    have hy' : ((n + 1 : Nat) : Int) - 1 = n := by omega
    rw [if_pos h] at hmonths
    rw [if_pos h', if_pos h', hy']
    simp (disch := omega) only [Int.tdiv_eq_ediv_of_nonneg, Int.tmod_eq_emod_of_nonneg, hdiv]
    omega
  · have hyears := daysOfYears_eq (n + 1)
    rw [daysOfYears, daysOfMonths_year] at hyears
    have h' : ¬ (m : Int) < 3 := mt Int.ofNat_lt.mp h
    rw [if_neg h] at hmonths
    rw [if_neg h', if_neg h']
    simp (disch := omega) only [Int.tdiv_eq_ediv_of_nonneg, Int.tmod_eq_emod_of_nonneg, hdiv]
    omega

/-- `dayofweek` is the weekday of every date; it goes on by one from each day to the next, and it is
an index of `days`. -/
theorem dayofweek_gregorian (x : Date) :
  dayofweek x.year x.month x.day = x.weekday ∧
  dayofweek x.next.year x.next.month x.next.day = (dayofweek x.year x.month x.day + 1) % 7 ∧
  0 ≤ dayofweek x.year x.month x.day ∧ dayofweek x.year x.month x.day < days.length
  := by
  rw [dayofweek_eq_weekday, dayofweek_eq_weekday, Date.weekday, Date.weekday, x.number_next, days]
  refine ⟨rfl, ?_, ?_, ?_⟩
  · omega
  · omega
  · simp only [List.length_cons, List.length_nil]
    omega

/-- 1 January 2000 was a Saturday. -/
example : dayofweek 2000 1 1 = 6 := by decide

end Xv6.Calendar
