import Mathlib.Computability.Language

/-!
# The matcher of `grep`

Strings are lists that end where the terminating zero is.  A pattern is read as a sequence of items
between two optional anchors, and the matcher accepts a text if and only if it has a part in the
language of the items that respects the anchors.
-/

namespace Xv6.Grep

open Computability

mutual

/-- `matchhere(re, text)` -/
def matchhere (re text : List UInt8) : Bool :=
  match re with
  | [] => true
  | c :: re =>
    if re.head? = some '*'.toUInt8 then
      matchstar c re.tail text
    else if c = '$'.toUInt8 ∧ re = [] then
      text.isEmpty
    else
      match text with
      | [] => false
      | t :: text => if c = '.'.toUInt8 ∨ c = t then matchhere re text else false
termination_by (re.length, text.length, 0)

/-- `matchstar(c, re, text)` -/
def matchstar (c : UInt8) (re text : List UInt8) : Bool :=
  if matchhere re text then
    true
  else
    match text with
    | [] => false
    | t :: text => if t = c ∨ c = '.'.toUInt8 then matchstar c re text else false
termination_by (re.length, text.length, 1)

end

/-- The loop of `match` over the text. -/
def matchLoop (re : List UInt8) : List UInt8 → Bool
  | [] => matchhere re []
  | t :: text => if matchhere re (t :: text) then true else matchLoop re text

/-- `match(re, text)` -/
def matchText (re text : List UInt8) : Bool :=
  if re.head? = some '^'.toUInt8 then matchhere re.tail text else matchLoop re text

/-! ### The language of patterns -/

/-- A character or `.`, with or without a `*`. -/
inductive Item
  | one (c : UInt8)
  | star (c : UInt8)

/-- The words of one letter that `c` matches. -/
def letter (c : UInt8) : Language UInt8 := {w | ∃ t, (c = '.'.toUInt8 ∨ c = t) ∧ w = [t]}

def Item.language : Item → Language UInt8
  | .one c => letter c
  | .star c => (letter c)∗

/-- A pattern as it is read. -/
structure Pattern where
  atStart : Bool
  items : List Item
  atEnd : Bool

/-- The items, and whether a `$` ends the pattern. -/
def readItems : List UInt8 → List Item × Bool
  | [] => ([], false)
  | [c] => if c = '$'.toUInt8 then ([], true) else ([.one c], false)
  | c :: d :: re =>
    if d = '*'.toUInt8 then
      ((.star c) :: (readItems re).1, (readItems re).2)
    else
      ((.one c) :: (readItems (d :: re)).1, (readItems (d :: re)).2)

def readPattern (re : List UInt8) : Pattern :=
  let anchored := re.head? = some '^'.toUInt8
  let (items, atEnd) := readItems (if anchored then re.tail else re)
  ⟨anchored, items, atEnd⟩

/-- The text has a part in the language of the items that respects the anchors. -/
def Pattern.Matches (p : Pattern) (text : List UInt8) : Prop :=
  ∃ pre w post, text = pre ++ w ++ post ∧ w ∈ (p.items.map Item.language).prod ∧
    (p.atStart → pre = []) ∧ (p.atEnd → post = [])

/-- The items match at the beginning of the text. -/
def Here (items : List Item × Bool) (text : List UInt8) : Prop :=
  ∃ w post, text = w ++ post ∧ w ∈ (items.1.map Item.language).prod ∧ (items.2 → post = [])

theorem mem_kstar_letter {c : UInt8} {w : List UInt8} :
  w ∈ (letter c)∗ ↔ ∀ t ∈ w, c = '.'.toUInt8 ∨ c = t
  := by
  rw [Language.mem_kstar]
  constructor
  · rintro ⟨ws, rfl, hws⟩ t ht
    obtain ⟨w, hw, htw⟩ := List.mem_flatten.mp ht
    obtain ⟨t', ht', rfl⟩ := hws w hw
    rw [List.mem_singleton.mp htw]
    exact ht'
  · intro h
    refine ⟨w.map ([·]), by simp [← List.flatMap_def], ?_⟩
    intro v hv
    obtain ⟨t, ht, rfl⟩ := List.mem_map.mp hv
    exact ⟨t, h t ht, rfl⟩

/-- `matchstar` tries all beginnings of the text that the starred character allows. -/
theorem matchstar_iff {c : UInt8} {re text : List UInt8} :
  matchstar c re text ↔ ∃ u v, text = u ++ v ∧ u ∈ (letter c)∗ ∧ matchhere re v
  := by
  simp only [mem_kstar_letter]
  induction text with
  | nil =>
    rw [matchstar]
    simp
  | cons t text ih =>
    rw [matchstar]
    constructor
    · intro h
      split at h
      · exact ⟨[], t :: text, rfl, by simp, by assumption⟩
      · split at h
        · rename_i hallowed
          obtain ⟨u, v, rfl, hu, hv⟩ := ih.mp h
          have ht := hallowed.symm.imp_right Eq.symm
          exact ⟨t :: u, v, rfl, List.forall_mem_cons.mpr ⟨ht, hu⟩, hv⟩
        · cases h
    · rintro ⟨u, v, htext, hu, hv⟩
      split
      · rfl
      · cases u with
        | nil => simp_all
        | cons t' u =>
          obtain ⟨rfl, rfl⟩ := List.cons.inj htext
          obtain ⟨ht, hu⟩ := List.forall_mem_cons.mp hu
          rw [if_pos (ht.symm.imp_left Eq.symm)]
          exact ih.mpr ⟨u, v, rfl, hu, hv⟩

/-- A character without a star is compared with the first one of the text. -/
theorem matchhere_one {c : UInt8} {re text : List UInt8} (hstar : re.head? ≠ some '*'.toUInt8)
    (hend : ¬ (c = '$'.toUInt8 ∧ re = [])) :
  matchhere (c :: re) text ↔ ∃ u v, text = u ++ v ∧ u ∈ letter c ∧ matchhere re v
  := by
  rw [matchhere.eq_def]
  dsimp only
  rw [if_neg hstar, if_neg hend]
  constructor
  · intro h
    cases text with
    | nil => cases h
    | cons t text =>
      dsimp only at h
      split at h
      · rename_i hallowed
        exact ⟨[t], text, rfl, ⟨t, hallowed, rfl⟩, h⟩
      · cases h
  · rintro ⟨u, v, rfl, ⟨t, hallowed, rfl⟩, hv⟩
    exact (if_pos hallowed).trans hv

theorem here_cons {i : Item} (items : List Item × Bool) {text : List UInt8} :
  Here (i :: items.1, items.2) text ↔ ∃ u v, text = u ++ v ∧ u ∈ i.language ∧ Here items v
  := by
  constructor
  · rintro ⟨w, post, rfl, hw, hend⟩
    rw [List.map_cons, List.prod_cons] at hw
    obtain ⟨u, hu, v, hv, rfl⟩ := Language.mem_mul.mp hw
    exact ⟨u, v ++ post, List.append_assoc u v post, hu, v, post, rfl, hv, hend⟩
  · rintro ⟨u, v, rfl, hu, w, post, rfl, hw, hend⟩
    refine ⟨u ++ w, post, (List.append_assoc u w post).symm, ?_, hend⟩
    rw [List.map_cons, List.prod_cons]
    exact Language.mem_mul.mpr ⟨u, hu, w, hw, rfl⟩

theorem matchhere_nil {text : List UInt8} :
  matchhere [] text ↔ Here ([], false) text
  := by
  rw [matchhere]
  exact iff_of_true rfl ⟨[], text, rfl, rfl, nofun⟩

theorem matchhere_iff {re text : List UInt8} :
  matchhere re text ↔ Here (readItems re) text
  := by
  induction re using readItems.induct generalizing text with
  | case1 => exact matchhere_nil
  | case2 =>
    rw [readItems, if_pos rfl, matchhere.eq_def]
    constructor
    · intro h
      obtain rfl := List.isEmpty_iff.mp h
      exact ⟨[], [], rfl, rfl, fun _ => rfl⟩
    · rintro ⟨w, post, rfl, rfl, hend⟩
      rw [hend rfl]
      rfl
  | case3 c h =>
    rw [matchhere_one (by simp) (by simp [h]), readItems, if_neg h, here_cons ([], false)]
    simp only [matchhere_nil]
    rfl
  | case4 c re ih =>
    rw [readItems, if_pos rfl, here_cons, matchhere.eq_def]
    simp only [List.head?_cons, if_true, List.tail_cons, matchstar_iff, ih]
    rfl
  | case5 c d re hd ih =>
    rw [readItems, if_neg hd, here_cons, matchhere_one (by simpa using hd) (by simp)]
    simp only [ih]
    rfl

/-- `match` tries all ends of the text. -/
theorem matchLoop_iff {re text : List UInt8} :
  matchLoop re text ↔ ∃ pre v, text = pre ++ v ∧ matchhere re v
  := by
  induction text with
  | nil =>
    rw [matchLoop]
    simp
  | cons t text ih =>
    rw [matchLoop]
    constructor
    · intro h
      split at h
      · exact ⟨[], t :: text, rfl, by assumption⟩
      · obtain ⟨pre, v, rfl, hv⟩ := ih.mp h
        exact ⟨t :: pre, v, rfl, hv⟩
    · rintro ⟨pre, v, htext, hv⟩
      split
      · rfl
      · cases pre with
        | nil => simp_all
        | cons t' pre => exact ih.mpr ⟨pre, v, (List.cons.inj htext).2, hv⟩

/-- The matcher implements its pattern language. -/
theorem match_iff (re text : List UInt8) :
  matchText re text ↔ (readPattern re).Matches text
  := by
  rw [matchText, readPattern]
  by_cases hstart : re.head? = some '^'.toUInt8
  · rw [if_pos hstart, matchhere_iff]
    simp only [hstart, decide_true]
    constructor
    · rintro ⟨w, post, rfl, hw, hend⟩
      exact ⟨[], w, post, rfl, hw, fun _ => rfl, hend⟩
    · rintro ⟨pre, w, post, rfl, hw, hpre, hend⟩
      rw [hpre rfl]
      exact ⟨w, post, rfl, hw, hend⟩
  · rw [if_neg hstart, matchLoop_iff]
    simp only [hstart, decide_false, matchhere_iff]
    constructor
    · rintro ⟨pre, v, rfl, w, post, rfl, hw, hend⟩
      exact ⟨pre, w, post, (List.append_assoc pre w post).symm, hw, nofun, hend⟩
    · rintro ⟨pre, w, post, rfl, hw, -, hend⟩
      exact ⟨pre, w ++ post, List.append_assoc pre w post, w, post, rfl, hw, hend⟩

end Xv6.Grep
