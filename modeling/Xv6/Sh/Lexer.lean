import Mathlib.Data.List.DropRight
import Xv6.Sh.Grammar

/-!
# What `gettoken` and `peek` do to the tokens of a line

`gettoken` returns the first token and leaves the others, and `peek` compares the first token and
leaves all of them.
-/

namespace Xv6.Sh

variable {s r : List UInt8} {t : Token} {ts : List Token}

/-- The result of `gettoken` at a token. -/
def Token.code : Token → UInt8
  | .lt => chr '<'
  | .gt => chr '>'
  | .app => chr '+'
  | .bar => chr '|'
  | .amp => chr '&'
  | .semi => chr ';'
  | .lpar => chr '('
  | .rpar => chr ')'
  | .word _ => chr 'a'

/-- The token starts with one of the symbols of a list. -/
def Token.isIn (toks : List UInt8) : Token → Bool
  | .word _ => false
  | .app => strchr toks (chr '>')
  | t => strchr toks t.code

/-- The pointers `q` and `eq` mark the word `w` in the line, and the character at `eq` is not part
of a word. -/
structure Slice (line : List UInt8) (q eq : Ptr) (w : Word) : Prop where
  suffix : q <:+ line
  split : q = w ++ eq
  word : ∀ c ∈ w, isWord c
  stop : ∀ c ∈ eq.head?, isWord c = false

theorem scan_dropWhile (s : List UInt8) : scan (s.dropWhile isWhite) = scan s
  := by rw [scan, scan, List.dropWhile_idempotent]

/-- White space before the first token does not count. -/
theorem tokens_dropWhile (s : List UInt8) : tokens (s.dropWhile isWhite) = tokens s
  := by
  cases h : scan s with
  | none => rw [tokens_of_none h, tokens_of_none ((scan_dropWhile s).trans h)]
  | some x => rw [tokens_of_some h, tokens_of_some ((scan_dropWhile s).trans h)]

theorem scan_eq_none_iff : scan s = none ↔ s.dropWhile isWhite = []
  := by
  rw [scan]
  split
  · simp [*]
  · rename_i h
    rw [h]
    split
    · simp
    · split
      · simp
      · simp

theorem tokens_eq_nil_iff : tokens s = [] ↔ s.dropWhile isWhite = []
  := by
  rw [← scan_eq_none_iff]
  constructor
  · intro h
    cases hscan : scan s with
    | none => rfl
    | some x =>
      rw [tokens_of_some hscan] at h
      cases h
  · exact tokens_of_none

theorem isWord_eq_false_iff {c : UInt8} : isWord c = false ↔ c ∈ whitespace ∨ c ∈ symbols
  := by
  simp only [isWord, strchr, List.contains_eq_mem, Bool.and_eq_false_iff, Bool.not_eq_false',
    decide_eq_true_eq]

theorem deref_cons (c : UInt8) (r : Ptr) : deref (c :: r) = c
  := rfl

section

variable {c : UInt8} (h : s.dropWhile isWhite = c :: r)

include h

theorem isWhite_of_dropWhile : isWhite c = false
  := by
  have := List.head?_dropWhile_not isWhite s
  rwa [h] at this

/-- A token is a word, or it starts with a symbol. -/
theorem mem_symbols (hc : isWord c = false) : c ∈ symbols
  := by
  apply (isWord_eq_false_iff.mp hc).resolve_left
  intro hmem
  have := isWhite_of_dropWhile h
  rw [isWhite, strchr, List.contains_eq_mem, decide_eq_false_iff_not] at this
  exact this hmem

/-- The first token is a word. -/
theorem scan_of_word (hc : isWord c = true) :
  scan s = some (.word ((c :: r).takeWhile isWord), (c :: r).dropWhile isWord)
  := by
  rw [scan, h]
  exact if_pos hc

/-- The first token is a symbol. -/
theorem scan_of_symbol (hc : ¬ isWord c = true) :
  scan s = if c = chr '>' ∧ r.head? = some (chr '>') then some (.app, r.tail)
    else some (.ofSymbol c, r)
  := by
  rw [scan, h]
  exact if_neg hc

end

/-- `gettoken` at the end of the line. -/
theorem gettoken_of_nil (h : tokens s = []) : gettoken s = ⟨0, [], [], []⟩
  := by
  rw [gettoken, tokens_eq_nil_iff.mp h]
  rfl

/-- The `switch` of `gettoken` at a word. -/
theorem gettokenSwitch_of_word {c : UInt8} (h0 : c ≠ 0) (hc : isWord c) :
  gettokenSwitch (c :: r) = (chr 'a', (c :: r).dropWhile isWord)
  := by
  have hnot : ∀ c' ∈ symbols, c ≠ c' := by
    rintro c' hc' rfl
    rw [isWord_eq_false_iff.mpr (.inr hc')] at hc
    cases hc
  have hsymbol : c ∉ [chr '|', chr '(', chr ')', chr ';', chr '&', chr '<'] := by
    intro hmem
    apply hnot c _ rfl
    revert hmem
    simp only [symbols, List.mem_cons, List.not_mem_nil, or_false]
    tauto
  rw [gettokenSwitch, deref_cons, if_neg h0, if_neg hsymbol, if_neg]
  apply hnot
  decide

/-- The `switch` of `gettoken` at a symbol. -/
theorem gettokenSwitch_of_symbol {c : UInt8} (hc : c ∈ symbols) :
  gettokenSwitch (c :: r)
    = if c = chr '>' ∧ r.head? = some (chr '>') then (Token.app.code, r.tail)
      else ((Token.ofSymbol c).code, r)
  := by
  have hgt : deref r = chr '>' ↔ r.head? = some (chr '>') := by
    cases r with
    | nil => decide
    | cons d r => simp [deref]
  simp only [symbols, List.mem_cons, List.not_mem_nil, or_false] at hc
  rcases hc with rfl | rfl | rfl | rfl | rfl | rfl | rfl
  · rfl
  · rfl
  · change (if deref r = chr '>' then _ else _) = _
    simp only [hgt, true_and]
    rfl
  · rfl
  · rfl
  · rfl
  · rfl

/-- `gettoken` at a token. -/
theorem gettoken_of_cons (line : List UInt8) (h0 : 0 ∉ s) (h : tokens s = t :: ts) :
  (gettoken s).ret = t.code ∧ tokens (gettoken s).ps = ts ∧ (gettoken s).ps <:+ s ∧
    ∀ w, t = .word w → s <:+ line → Slice line (gettoken s).q (gettoken s).eq w
  := by
  have hsuffix := List.dropWhile_suffix (l := s) isWhite
  cases hs : s.dropWhile isWhite with
  | nil =>
    rw [tokens_eq_nil_iff.mpr hs] at h
    cases h
  | cons c r =>
    rw [hs] at hsuffix
    have hc0 : c ≠ 0 := by
      rintro rfl
      exact h0 (hsuffix.subset List.mem_cons_self)
    have hrest (t' : Token) (x : UInt8 × Ptr) (hx : gettokenSwitch (c :: r) = x)
        (hscan : scan s = some (t', x.2)) (hcode : x.1 = t'.code) (hr : x.2 <:+ c :: r) :
        t' = t ∧ (gettoken s).ret = t'.code ∧ tokens (gettoken s).ps = ts ∧ (gettoken s).ps <:+ s ∧
          (gettoken s).q = c :: r ∧ (gettoken s).eq = x.2 := by
      rw [tokens_of_some hscan] at h
      cases h
      rw [gettoken, hs, hx]
      use rfl, hcode, tokens_dropWhile x.2, ((List.dropWhile_suffix _).trans hr).trans hsuffix, rfl
    by_cases hc : isWord c = true
    · have hscan := scan_of_word hs hc
      obtain ⟨rfl, hret, hps, hle, hq, heq⟩ := hrest _ _ (gettokenSwitch_of_word hc0 hc) hscan rfl
        (List.dropWhile_suffix _)
      use hret, hps, hle
      rintro w ⟨⟩ hline
      rw [hq, heq]
      constructor
      · exact hsuffix.trans hline
      · exact (List.takeWhile_append_dropWhile ..).symm
      · exact fun c hc => List.mem_takeWhile_imp hc
      · intro d hd
        have := List.head?_dropWhile_not isWord (c :: r)
        rw [Option.mem_def.mp hd] at this
        exact this
    · have hscan := scan_of_symbol hs hc
      have hswitch := gettokenSwitch_of_symbol (r := r)
        (mem_symbols hs ((Bool.not_eq_true _).mp hc))
      split at hscan
      · rename_i hgt
        rw [if_pos hgt] at hswitch
        obtain ⟨rfl, hret, hps, hle, -⟩ := hrest _ _ hswitch hscan rfl
          ((List.tail_suffix r).trans (List.suffix_cons c r))
        exact ⟨hret, hps, hle, by simp⟩
      · rename_i hgt
        rw [if_neg hgt] at hswitch
        obtain ⟨rfl, hret, hps, hle, -⟩ := hrest _ _ hswitch hscan rfl (List.suffix_cons c r)
        use hret, hps, hle
        intro w hw
        simp only [Token.ofSymbol] at hw
        split_ifs at hw

/-- `peek` compares the first token with symbols. -/
theorem peek_eq (h0 : 0 ∉ s) {toks : List UInt8} (htoks : ∀ c ∈ toks, c ∈ symbols) :
  (peek s toks).1 = (tokens s).head?.any (Token.isIn toks)
  := by
  cases hs : s.dropWhile isWhite with
  | nil =>
    rw [tokens_eq_nil_iff.mpr hs, peek, hs]
    rfl
  | cons c r =>
    have hc0 : c ≠ 0 := by
      rintro rfl
      apply h0
      apply (List.dropWhile_suffix isWhite).subset
      rw [hs]
      exact List.mem_cons_self
    have hpeek : (peek s toks).1 = strchr toks c := by
      rw [peek, hs]
      simp [deref_cons, hc0]
    rw [hpeek]
    by_cases hc : isWord c = true
    · have hscan := scan_of_word hs hc
      rw [tokens_of_some hscan, strchr, List.contains_eq_mem, decide_eq_false]
      · rfl
      · intro hmem
        rw [isWord_eq_false_iff.mpr (.inr (htoks c hmem))] at hc
        cases hc
    · have hscan := scan_of_symbol hs hc
      split at hscan
      · rename_i hgt
        rw [tokens_of_some hscan, hgt.1]
        rfl
      · rw [tokens_of_some hscan]
        have hmem := mem_symbols hs ((Bool.not_eq_true _).mp hc)
        simp only [symbols, List.mem_cons, List.not_mem_nil, or_false] at hmem
        rcases hmem with rfl | rfl | rfl | rfl | rfl | rfl | rfl <;> rfl

/-- `peek` leaves the tokens. -/
theorem tokens_peek (s : Ptr) (toks : List UInt8) : tokens (peek s toks).2 = tokens s
  := tokens_dropWhile s

theorem peek_suffix (s : Ptr) (toks : List UInt8) : (peek s toks).2 <:+ s
  := List.dropWhile_suffix isWhite

/-- There are no more tokens than characters. -/
theorem length_tokens_le (s : List UInt8) : (tokens s).length ≤ s.length
  := by
  cases h : scan s with
  | none =>
    rw [tokens_of_none h]
    exact Nat.zero_le _
  | some x =>
    rw [tokens_of_some h]
    have hlt := length_of_scan h
    have := length_tokens_le x.2
    rw [List.length_cons]
    omega
termination_by s.length

end Xv6.Sh
