import Xv6.Lib.Ring
import Xv6.Lib.Transition

/-!
# The console

The input of `console.c`: `consoleintr` puts typed characters into a ring buffer and edits the last
line there, and `consoleread` takes bytes from the lines that are finished.  Both run under
`cons.lock`, so that the code of a call between two points at which it sleeps is one step; a process
that sleeps may go on at any time.
-/

namespace Xv6.Console

/-- `INPUT_BUF` -/
abbrev INPUT_BUF : Nat := 128

/-- `C(x)`, the code of control-`x`. -/
def C (x : Char) : UInt8 := .ofNat (x.toNat - '@'.toNat)

/-- `'\n'` -/
def newline : UInt8 := 10

/-- `input` -/
structure Input where
  buf : Fin INPUT_BUF → UInt8
  r : UInt32
  w : UInt32
  e : UInt32

namespace Input

/-- `input.buf[i % INPUT_BUF]` -/
def char (s : Input) (i : UInt32) : UInt8 := s.buf (.ofNat INPUT_BUF i.toNat)

/-- The loop of `C('U')`, which makes at most `e - w` rounds. -/
def killLoop : Nat → Input → Input
  | 0, s => s
  | n + 1, s =>
      if s.e ≠ s.w ∧ s.char (s.e - 1) ≠ newline then killLoop n { s with e := s.e - 1 } else s

/-- Kill line. -/
def killLine (s : Input) : Input := killLoop (s.e - s.w).toNat s

/-- Backspace. -/
def backspace (s : Input) : Input :=
  if s.e ≠ s.w then { s with e := s.e - 1 } else s

/-- `input.buf[input.e++ % INPUT_BUF] = c` -/
def append (s : Input) (c : UInt8) : Input :=
  { s with buf := Function.update s.buf (.ofNat INPUT_BUF s.e.toNat) c, e := s.e + 1 }

/-- Other characters. -/
def put (s : Input) (c : UInt8) : Input :=
  if c ≠ 0 ∧ s.e - s.r < .ofNat INPUT_BUF then
    let c := if c = 13 then newline else c
    let s := s.append c
    if c = newline ∨ c = C 'D' ∨ s.e = s.r + .ofNat INPUT_BUF then { s with w := s.e } else s
  else s

/-- One round of the loop of `consoleintr`.  The cases of `C('R')` and `C('Z')` go on to that of
`C('U')`. -/
def key (s : Input) (c : UInt8) : Input :=
  if c = C 'P' ∨ c = C 'S' ∨ c = C 'F' then s
  else if c = C 'R' ∨ c = C 'Z' ∨ c = C 'U' then s.killLine
  else if c = C 'H' ∨ c = 0x7f then s.backspace
  else s.put c

end Input

/-- `consoleintr`, for the codes that `getc` returns. -/
def consoleintr (s : Input) (codes : List UInt8) : Input := codes.foldl Input.key s

/-- How a part of `consoleread` ends. -/
inductive ReadEnd where
  /-- It returns the number of bytes it has stored. -/
  | done
  /-- It returns `-1`. -/
  | fail
  | asleep
  deriving DecidableEq, Repr

/-- The loop of `consoleread` with `n` bytes left of `target`: the input, the bytes that it stores,
and how it ends. -/
def readLoop (killed : Bool) (target : Nat) : Nat → Input → Input × List UInt8 × ReadEnd
  | 0, s => (s, [], .done)
  | n + 1, s =>
      if s.r = s.w then (s, [], if killed then .fail else .asleep)
      else
        let c := s.char s.r
        let s := { s with r := s.r + 1 }
        if c = C 'D' then
          (if n + 1 < target then { s with r := s.r - 1 } else s, [], .done)
        else if c = newline then (s, [c], .done)
        else
          let x := readLoop killed target n s
          (x.1, c :: x.2.1, x.2.2)

/-! ### Lines -/

/-- The input as a user sees it: the bytes of finished lines that are not read yet, and the line
that is being edited. -/
structure Line where
  committed : List UInt8
  editing : List UInt8
  deriving DecidableEq, Repr

/-- What a key is for. -/
inductive Key where
  /-- A key that does not change the input. -/
  | ignored
  | kill
  | erase
  | char (c : UInt8)
  deriving DecidableEq, Repr

/-- What a key code is for. -/
def Key.ofCode (c : UInt8) : Key :=
  if c = 0 ∨ c = C 'P' ∨ c = C 'S' ∨ c = C 'F' then .ignored
  else if c = C 'R' ∨ c = C 'Z' ∨ c = C 'U' then .kill
  else if c = C 'H' ∨ c = 0x7f then .erase
  else if c = 13 then .char newline
  else .char c

namespace Line

/-- The number of characters in the buffer. -/
def length (l : Line) : Nat := l.committed.length + l.editing.length

/-- A character is typed.  It is lost if the buffer is full.  A newline, a control-`D` and the
character that fills the buffer finish the line. -/
def type (l : Line) (c : UInt8) : Line :=
  if l.length < INPUT_BUF then
    if c = newline ∨ c = C 'D' ∨ l.length + 1 = INPUT_BUF then
      ⟨l.committed ++ (l.editing ++ [c]), []⟩
    else ⟨l.committed, l.editing ++ [c]⟩
  else l

/-- A key is pressed. -/
def key (l : Line) : Key → Line
  | .ignored => l
  | .kill => ⟨l.committed, []⟩
  | .erase => ⟨l.committed, l.editing.dropLast⟩
  | .char c => l.type c

end Line

namespace Input

/-- The bytes between two indices. -/
def slice (s : Input) (i j : UInt32) : List UInt8 :=
  (List.range (j - i).toNat).map fun k => s.buf (.ofNat INPUT_BUF (i.toNat + k))

/-- The input as lines. -/
def view (s : Input) : Line := ⟨s.slice s.r s.w, s.slice s.w s.e⟩

/-- The buffer holds the bytes `m` of finished lines and the line `t`. -/
structure Holds (s : Input) (m t : List UInt8) : Prop where
  length_le : m.length + t.length ≤ INPUT_BUF
  w_eq : s.w = s.r + .ofNat m.length
  e_eq : s.e = s.r + .ofNat (m.length + t.length)
  data : Ring.Holds s.buf s.r.toNat (m ++ t)
  editing : newline ∉ t

theorem toNat_add_sub (x : UInt32) {j k : Nat} (hjk : j ≤ k) (hk : k ≤ INPUT_BUF) :
  (x + .ofNat k - (x + .ofNat j)).toNat = k - j
  := by
  have hlt := x.toNat_lt
  simp only [INPUT_BUF] at hk
  simp only [UInt32.toNat_sub, UInt32.toNat_add, UInt32.toNat_ofNat']
  omega

theorem add_ofNat_eq_iff (x : UInt32) {k : Nat} (hk : k ≤ INPUT_BUF) :
  x + .ofNat k = x + .ofNat INPUT_BUF ↔ k = INPUT_BUF
  := by
  constructor
  · intro heq
    have hk' := toNat_add_sub x (Nat.zero_le k) hk
    rw [heq, toNat_add_sub x (Nat.zero_le INPUT_BUF) (Nat.le_refl _)] at hk'
    exact hk'.symm
  · rintro rfl
    rfl

theorem toNat_sub_eq_zero {x y : UInt32} :
  (x - y).toNat = 0 ↔ x = y
  := by
  constructor
  · intro h
    have hsub : x - y = 0 := UInt32.toNat_inj.mp h
    grind
  · rintro rfl
    rw [UInt32.sub_self]
    rfl

/-- The cell at an index after the first. -/
theorem ofNat_toNat_add (x : UInt32) (k : Nat) :
  Fin.ofNat INPUT_BUF (x + .ofNat k).toNat = Fin.ofNat INPUT_BUF (x.toNat + k)
  := Ring.ofNat_eq_iff.mpr (Ring.toNat_add_mod (by decide) x k)

/-- The bytes between two indices, in a list that the buffer holds. -/
theorem slice_eq
    {s : Input} {l₁ l₂ : List UInt8} (h : Ring.Holds s.buf s.r.toNat (l₁ ++ l₂))
    (hle : l₁.length + l₂.length ≤ INPUT_BUF) :
  s.slice (s.r + .ofNat l₁.length) (s.r + .ofNat (l₁.length + l₂.length)) = l₂
  := by
  have hright : Ring.Holds s.buf (s.r + .ofNat l₁.length).toNat l₂ :=
    h.right.congr (Ring.toNat_add_mod (by decide) s.r _)
  rw [slice, toNat_add_sub s.r (Nat.le_add_right _ _) hle, Nat.add_sub_cancel_left]
  exact hright.map_range

theorem slice_first
    {s : Input} {l : List UInt8} (h : Ring.Holds s.buf s.r.toNat l) (hle : l.length ≤ INPUT_BUF) :
  s.slice s.r (s.r + .ofNat l.length) = l
  := by
  have hslice := @slice_eq s [] l h (by simpa using hle)
  simpa using hslice

namespace Holds

variable {s : Input} {m t : List UInt8} {c : UInt8}

section

variable (h : s.Holds m t)

include h

theorem sub_w :
  (s.w - s.r).toNat = m.length
  := by
  have hle := h.length_le
  have hsub := toNat_add_sub s.r (Nat.zero_le m.length) (by omega)
  rw [h.w_eq]
  simpa using hsub

theorem sub_e :
  (s.e - s.r).toNat = m.length + t.length
  := by
  have hsub := toNat_add_sub s.r (Nat.zero_le _) h.length_le
  rw [h.e_eq]
  simpa using hsub

theorem sub_e_w :
  (s.e - s.w).toNat = t.length
  := by
  rw [h.e_eq, h.w_eq, toNat_add_sub s.r (Nat.le_add_right _ _) h.length_le, Nat.add_sub_cancel_left]

theorem view_eq :
  s.view = ⟨m, t⟩
  := by
  have hle := h.length_le
  have hm : s.slice s.r s.w = m := by
    rw [h.w_eq]
    exact slice_first h.data.left (by omega)
  have ht : s.slice s.w s.e = t := by
    rw [h.w_eq, h.e_eq]
    exact slice_eq h.data h.length_le
  rw [view, hm, ht]

theorem w_eq_iff :
  s.r = s.w ↔ m = []
  := by
  rw [← List.length_eq_zero_iff, ← h.sub_w, toNat_sub_eq_zero, eq_comm]

theorem e_eq_iff :
  s.e = s.w ↔ t = []
  := by
  rw [← List.length_eq_zero_iff, ← h.sub_e_w, toNat_sub_eq_zero]

omit h in
/-- The last character of the line. -/
theorem char_last (h : s.Holds m (t ++ [c])) :
  s.char (s.e - 1) = c ∧ { s with e := s.e - 1 }.Holds m t
  := by
  have he : s.e - 1 = s.r + .ofNat (m.length + t.length) := by
    rw [h.e_eq, List.length_append, List.length_singleton, ← Nat.add_assoc, UInt32.ofNat_add,
      ← UInt32.add_assoc]
    exact UInt32.add_sub_cancel _ _
  have hdata : Ring.Holds s.buf s.r.toNat (m ++ t ++ [c]) := by
    rw [List.append_assoc]
    exact h.data
  have hle := h.length_le
  rw [List.length_append, List.length_singleton] at hle
  constructor
  · rw [char, he, ofNat_toNat_add, ← List.length_append]
    exact hdata.right.pop.1
  · refine ⟨by omega, h.w_eq, he, hdata.left, ?_⟩
    intro hmem
    exact h.editing (List.mem_append_left _ hmem)

/-- Backspace removes the last character of the line. -/
theorem backspace :
  s.backspace.Holds m t.dropLast
  := by
  rw [Input.backspace]
  rcases List.eq_nil_or_concat t with rfl | ⟨t, c, rfl⟩
  · rw [if_neg (not_not.mpr (h.e_eq_iff.mpr rfl))]
    exact h
  · rw [if_pos (by rw [ne_eq, h.e_eq_iff]; simp), List.concat_eq_append, List.dropLast_concat]
    rw [List.concat_eq_append] at h
    exact h.char_last.2

theorem killLoop {n : Nat} (hn : t.length ≤ n) :
  (killLoop n s).Holds m []
  := by
  induction n generalizing s t with
  | zero =>
    obtain rfl := List.length_eq_zero_iff.mp (Nat.le_zero.mp hn)
    exact h
  | succ n ih =>
    rw [Input.killLoop]
    rcases List.eq_nil_or_concat t with rfl | ⟨t, c, rfl⟩
    · rw [if_neg (fun hne => hne.1 (h.e_eq_iff.mpr rfl))]
      exact h
    · rw [List.concat_eq_append] at h hn
      obtain ⟨hlast, hinit⟩ := h.char_last
      have hc : c ≠ newline := by
        rintro rfl
        exact h.editing (List.mem_append_right _ List.mem_cons_self)
      have hne : s.e ≠ s.w := by
        rw [ne_eq, h.e_eq_iff]
        simp
      rw [if_pos ⟨hne, by rwa [hlast]⟩]
      apply ih hinit
      rw [List.length_append, List.length_singleton] at hn
      omega

theorem room_iff :
  s.e - s.r < .ofNat INPUT_BUF ↔ m.length + t.length < INPUT_BUF
  := by
  rw [UInt32.lt_iff_toNat_lt, h.sub_e]
  rfl

theorem append_e (c : UInt8) :
  (s.append c).e = s.r + .ofNat (m.length + t.length + 1)
  := by
  rw [append, h.e_eq, UInt32.ofNat_add (m.length + t.length), ← UInt32.add_assoc]
  rfl

section

variable (hroom : m.length + t.length < INPUT_BUF)

include hroom

theorem append_data (c : UInt8) :
  Ring.Holds (s.append c).buf s.r.toNat (m ++ (t ++ [c]))
  := by
  rw [append, h.e_eq, ofNat_toNat_add, ← List.length_append, ← List.append_assoc]
  apply h.data.push
  rw [List.length_append]
  exact hroom

/-- The character goes to the line. -/
theorem append (hc : c ≠ newline) :
  (s.append c).Holds m (t ++ [c])
  := by
  have hlen : m.length + (t ++ [c]).length = m.length + t.length + 1 := by
    rw [List.length_append, List.length_singleton, Nat.add_assoc]
  refine ⟨by omega, h.w_eq, ?_, h.append_data hroom c, ?_⟩
  · rw [hlen]
    exact h.append_e c
  · intro hmem
    rcases List.mem_append.mp hmem with hmem | hmem
    · exact h.editing hmem
    · exact hc (List.mem_singleton.mp hmem).symm

/-- The character finishes the line. -/
theorem commit (c : UInt8) :
  { s.append c with w := (s.append c).e }.Holds (m ++ (t ++ [c])) []
  := by
  have hlen : (m ++ (t ++ [c])).length = m.length + t.length + 1 := by
    rw [List.length_append, List.length_append, List.length_singleton, Nat.add_assoc]
  refine ⟨?_, ?_, ?_, ?_, List.not_mem_nil⟩
  · rw [hlen]
    exact hroom
  · rw [hlen]
    exact h.append_e c
  · rw [List.length_nil, Nat.add_zero, hlen]
    exact h.append_e c
  · rw [List.append_nil]
    exact h.append_data hroom c

end

end

end Holds

/-- The buffer holds the bytes that a user sees. -/
def Shows (s : Input) (l : Line) : Prop := s.Holds l.committed l.editing

namespace Shows

variable {s : Input} {l : Line} {c : UInt8}

/-- A character that is not `0` is typed. -/
theorem put (h : s.Shows l) (hc : c ≠ 0) :
  (s.put c).Shows (l.type (if c = 13 then newline else c))
  := by
  rw [Input.put, Line.type]
  by_cases hroom : l.length < INPUT_BUF
  · rw [if_pos hroom, if_pos ⟨hc, h.room_iff.mpr hroom⟩]
    generalize (if c = 13 then newline else c) = c
    have hfull : (s.append c).e = (s.append c).r + .ofNat INPUT_BUF ↔ l.length + 1 = INPUT_BUF := by
      rw [h.append_e]
      exact add_ofNat_eq_iff s.r hroom
    simp only [hfull]
    split_ifs with hends
    · exact h.commit hroom c
    · exact h.append hroom fun heq => hends (.inl heq)
  · rw [if_neg hroom, if_neg (fun hpos => hroom (h.room_iff.mp hpos.2))]
    exact h

/-- A key is pressed. -/
theorem key (h : s.Shows l) (c : UInt8) :
  (s.key c).Shows (l.key (.ofCode c))
  := by
  rw [Input.key, Key.ofCode]
  by_cases hnone : c = C 'P' ∨ c = C 'S' ∨ c = C 'F'
  · rw [if_pos hnone, if_pos (.inr hnone)]
    exact h
  rw [if_neg hnone]
  by_cases hzero : c = 0
  · subst hzero
    have hput : s.put 0 = s := if_neg (fun hpos => hpos.1 rfl)
    rw [if_neg (by decide), if_neg (by decide), hput, if_pos (.inl rfl)]
    exact h
  rw [if_neg (not_or.mpr ⟨hzero, hnone⟩)]
  by_cases hkill : c = C 'R' ∨ c = C 'Z' ∨ c = C 'U'
  · rw [if_pos hkill, if_pos hkill, Input.killLine, h.sub_e_w]
    exact h.killLoop (Nat.le_refl _)
  rw [if_neg hkill, if_neg hkill]
  by_cases herase : c = C 'H' ∨ c = 0x7f
  · rw [if_pos herase, if_pos herase]
    exact h.backspace
  rw [if_neg herase, if_neg herase]
  have hput := h.put hzero
  split_ifs at hput ⊢
  · exact hput
  · exact hput

/-- `consoleintr` is called. -/
theorem consoleintr (h : s.Shows l) (codes : List UInt8) :
  (consoleintr s codes).Shows (codes.foldl (fun l c => l.key (.ofCode c)) l)
  := by
  induction codes generalizing s l with
  | nil => exact h
  | cons c codes ih => exact ih (h.key c)

end Shows

end Input

/-! ### Reading -/

/-- What a part of `consoleread` with `n` bytes left of `target` does with the bytes `m` of finished
lines: it takes the bytes `taken` and leaves `rest`, stores `bytes`, and ends with `e`. -/
structure ReadPart (target n : Nat) (m taken rest bytes : List UInt8) (e : ReadEnd) : Prop where
  split : m = taken ++ rest
  bytes_eq : bytes = taken.filter (· ≠ C 'D')
  length_le : bytes.length ≤ n
  line : newline ∉ bytes.dropLast
  /-- It takes a control-`D` only as the first byte of all, and then returns. -/
  eof : C 'D' ∈ taken → taken = [C 'D'] ∧ e = .done ∧ 0 < n ∧ target ≤ n
  /-- It goes to sleep, or is killed, only with all bytes taken. -/
  pending : e ≠ .done → rest = [] ∧ bytes.length < n ∧ newline ∉ bytes
  /-- It returns with all bytes it wants, after a newline, or at a control-`D`, which it takes only
  as the first byte. -/
  done : e = .done → bytes.length = n ∨ bytes.getLast? = some newline ∨
    if n - bytes.length < target then rest.head? = some (C 'D') else taken = bytes ++ [C 'D']

/-- A control-`D` after other bytes stays. -/
theorem ReadPart.stays {target n : Nat} (m : List UInt8) (h : n < target) :
  ReadPart target n (C 'D' :: m) [] (C 'D' :: m) [] .done
  := by
  refine ⟨rfl, rfl, Nat.zero_le _, List.not_mem_nil, nofun, fun he => absurd rfl he, ?_⟩
  intro _
  right
  right
  rw [List.length_nil, Nat.sub_zero, if_pos h]
  rfl

/-- A control-`D` as the first byte is taken. -/
theorem ReadPart.first {target n : Nat} (m : List UInt8) (h : ¬ n + 1 < target) :
  ReadPart target (n + 1) (C 'D' :: m) [C 'D'] m [] .done
  := by
  refine ⟨rfl, rfl, Nat.zero_le _, List.not_mem_nil, ?_, fun he => absurd rfl he, ?_⟩
  · exact fun _ => ⟨rfl, rfl, Nat.succ_pos n, Nat.le_of_not_lt h⟩
  · intro _
    right
    right
    rw [List.length_nil, Nat.sub_zero, if_neg h]
    rfl

theorem ReadPart.lineEnd (target n : Nat) (m : List UInt8) :
  ReadPart target (n + 1) (newline :: m) [newline] m [newline] .done
  := by
  refine ⟨rfl, rfl, Nat.succ_pos n, List.not_mem_nil, ?_, fun he => absurd rfl he, ?_⟩
  · exact fun hmem => absurd hmem (by decide)
  · intro _
    exact .inr (.inl rfl)

/-- A part that stores another byte first. -/
theorem ReadPart.cons
    {target n : Nat} {m taken rest bytes : List UInt8} {e : ReadEnd} {c : UInt8}
    (h : ReadPart target n m taken rest bytes e) (hlt : n < target) (hD : c ≠ C 'D')
    (hnl : c ≠ newline) :
  ReadPart target (n + 1) (c :: m) (c :: taken) rest (c :: bytes) e
  := by
  constructor
  · rw [h.split]
    rfl
  · rw [List.filter_cons_of_pos, ← h.bytes_eq]
    exact decide_eq_true hD
  · exact Nat.succ_le_succ h.length_le
  · cases hbytes : bytes with
    | nil => exact List.not_mem_nil
    | cons b bytes' =>
      have hline := h.line
      rw [hbytes] at hline
      rw [List.dropLast_cons_cons, List.mem_cons, not_or]
      exact ⟨hnl.symm, hline⟩
  · intro hmem
    rcases List.mem_cons.mp hmem with heq | hmem
    · exact absurd heq.symm hD
    · exact absurd hlt (Nat.not_lt.mpr (h.eof hmem).2.2.2)
  · intro he
    obtain ⟨hrest, hlen, hmem⟩ := h.pending he
    refine ⟨hrest, Nat.succ_lt_succ hlen, ?_⟩
    rw [List.mem_cons, not_or]
    exact ⟨hnl.symm, hmem⟩
  · intro he
    rcases h.done he with hlen | hlast | hend
    · exact .inl (congrArg Nat.succ hlen)
    · right
      left
      rw [List.getLast?_cons, hlast]
      rfl
    · right
      right
      rw [List.length_cons, Nat.add_sub_add_right]
      split
      · rw [if_pos ‹_›] at hend
        exact hend
      · rw [if_neg ‹_›] at hend
        rw [hend]
        rfl

namespace Input.Holds

variable {s : Input} {m t : List UInt8} {c : UInt8}

/-- The first byte. -/
theorem char_first (h : s.Holds (c :: m) t) :
  s.char s.r = c ∧ { s with r := s.r + 1 }.Holds m t
  := by
  obtain ⟨hfirst, hrest⟩ := h.data.pop
  have hle := h.length_le
  rw [List.length_cons] at hle
  refine ⟨hfirst, by omega, ?_, ?_, hrest.congr (Ring.toNat_add_mod (by decide) s.r 1), h.editing⟩
  · rw [h.w_eq, List.length_cons, Nat.add_comm, UInt32.ofNat_add, ← UInt32.add_assoc]
    rfl
  · rw [h.e_eq, List.length_cons, Nat.add_right_comm, Nat.add_comm, UInt32.ofNat_add,
      ← UInt32.add_assoc]
    rfl

/-- The loop of `consoleread` takes bytes from the front. -/
theorem readLoop {target n : Nat} (killed : Bool) (h : s.Holds m t) (hle : n ≤ target) :
  ∃ taken rest, (Console.readLoop killed target n s).1.Holds rest t ∧
    (Console.readLoop killed target n s).1.r = s.r + .ofNat taken.length ∧
    ReadPart target n m taken rest (Console.readLoop killed target n s).2.1
      (Console.readLoop killed target n s).2.2
  := by
  induction n generalizing s m with
  | zero =>
    refine ⟨[], m, h, (UInt32.add_zero _).symm, rfl, rfl, Nat.le_refl _, List.not_mem_nil, nofun,
      ?_, ?_⟩
    · intro he
      cases he rfl
    · intro _
      exact .inl rfl
  | succ n ih =>
    rw [Console.readLoop]
    cases m with
    | nil =>
      rw [if_pos (h.w_eq_iff.mpr rfl)]
      refine ⟨[], [], h, (UInt32.add_zero _).symm, rfl, rfl, Nat.zero_le _, List.not_mem_nil, nofun,
        ?_, ?_⟩
      · intro _
        exact ⟨rfl, Nat.succ_pos _, List.not_mem_nil⟩
      · cases killed <;> nofun
    | cons c m =>
      obtain ⟨hc, hrest⟩ := h.char_first
      rw [if_neg (fun heq => nomatch h.w_eq_iff.mp heq), hc]
      dsimp only
      by_cases hD : c = C 'D'
      · subst hD
        rw [if_pos rfl]
        by_cases hstay : n + 1 < target
        · rw [if_pos hstay, UInt32.add_sub_cancel]
          exact ⟨[], C 'D' :: m, h, (UInt32.add_zero _).symm, .stays m hstay⟩
        · rw [if_neg hstay]
          exact ⟨[C 'D'], m, hrest, rfl, .first m hstay⟩
      rw [if_neg hD]
      by_cases hnl : c = newline
      · subst hnl
        rw [if_pos rfl]
        exact ⟨[newline], m, hrest, rfl, .lineEnd target n m⟩
      rw [if_neg hnl]
      obtain ⟨taken, rest, hholds, hr, hpart⟩ := ih hrest (Nat.le_of_succ_le hle)
      refine ⟨c :: taken, rest, hholds, ?_, hpart.cons hle hD hnl⟩
      rw [hr, List.length_cons, Nat.add_comm, UInt32.ofNat_add, ← UInt32.add_assoc]
      rfl

end Input.Holds

/-! ### Keys and readers -/

/-- What a process does with the console. -/
inductive Phase where
  | idle
  /-- Asleep in `consoleread` for `n` bytes, with these bytes stored. -/
  | reading (n : Int) (got : List UInt8)
  /-- `consoleread` for `n` bytes has stored these bytes and returned a value. -/
  | returned (n : Int) (got : List UInt8) (value : Int)
  deriving DecidableEq, Repr

/-- The console and the processes that read from it, with all bytes of the lines that were finished,
all bytes that `consoleread` took from the buffer, and all that it stored. -/
structure ConsoleSys (P : Type) where
  input : Input
  phase : P → Phase
  killed : P → Bool
  committed : List UInt8
  consumed : List UInt8
  delivered : List UInt8

inductive Label (P : Type) where
  /-- `consoleintr` with the codes that `getc` returns. -/
  | intr (codes : List UInt8)
  | read (p : P) (n : Int)
  /-- A process that sleeps goes on. -/
  | resume (p : P)
  | kill (p : P)

/-- The process whose `consoleread` takes a step. -/
def Label.reader {P : Type} : Label P → Option P
  | .read p _ | .resume p => some p
  | .intr _ | .kill _ => none

/-- Where a process is after a part of `consoleread`. -/
def ReadEnd.phase (n : Int) (got : List UInt8) : ReadEnd → Phase
  | .done => .returned n got got.length
  | .fail => .returned n got (-1)
  | .asleep => .reading n got

namespace ConsoleSys

variable {P : Type} [DecidableEq P]

/-- A call of `consoleintr`. -/
def intr (s : ConsoleSys P) (codes : List UInt8) : ConsoleSys P :=
  let input := consoleintr s.input codes
  { s with input := input, committed := s.committed ++ input.slice s.input.w input.w }

/-- A part of `consoleread` of the process `p`. -/
def read (s : ConsoleSys P) (p : P) (n : Int) (got : List UInt8) : ConsoleSys P :=
  let x := readLoop (s.killed p) n.toNat (n.toNat - got.length) s.input
  { s with
    input := x.1
    phase := Function.update s.phase p (x.2.2.phase n (got ++ x.2.1))
    consumed := s.consumed ++ s.input.slice s.input.r x.1.r
    delivered := s.delivered ++ x.2.1 }

/-- One step. -/
def step (s : ConsoleSys P) : Label P → Option (Except Empty (ConsoleSys P))
  | .intr codes => some (.ok (s.intr codes))
  | .read p n =>
      match s.phase p with
      | .reading _ _ => none
      | _ => some (.ok (s.read p n []))
  | .resume p =>
      match s.phase p with
      | .reading n got => some (.ok (s.read p n got))
      | _ => none
  | .kill p => some (.ok { s with killed := Function.update s.killed p true })

end ConsoleSys

/-- Any number of processes use a console without input, whose indices start anywhere. -/
def consoleSystem (P : Type) [DecidableEq P] : System (ConsoleSys P) (Label P) Empty where
  init s := s.input.w = s.input.r ∧ s.input.e = s.input.r ∧ (∀ p, s.phase p = .idle) ∧
    s.committed = [] ∧ s.consumed = [] ∧ s.delivered = []
  step := ConsoleSys.step

/-- What a part of `consoleread` of the process `p` takes from the front of the finished lines. -/
structure ConsoleSys.Takes {P : Type} (s s' : ConsoleSys P) (p : P) (taken : List UInt8) :
    Prop where
  consumed : s'.consumed = s.consumed ++ taken
  split : s.input.view.committed = taken ++ s'.input.view.committed
  /-- A control-`D` is taken only as the first byte of the read, which then returns 0. -/
  eof : C 'D' ∈ taken → taken = [C 'D'] ∧ ∃ n, s'.phase p = .returned n [] 0
  /-- A read that leaves something, such as a control-`D` after its bytes, returns. -/
  returns : s'.input.view.committed ≠ [] → ∃ n got, s'.phase p = .returned n got got.length
  /-- A read that returns early and not after a newline has met a control-`D`. -/
  early : ∀ n got, s'.phase p = .returned n got got.length → got.length < n.toNat →
    got.getLast? ≠ some newline →
    if got = [] then s'.consumed = s.consumed ++ [C 'D']
      else s'.input.view.committed.head? = some (C 'D')

/-- The bytes of one `consoleread` are from one line. -/
def Phase.Ok : Phase → Prop
  | .idle => True
  | .reading n got => newline ∉ got ∧ C 'D' ∉ got ∧ got.length < n.toNat
  | .returned _ got _ => newline ∉ got.dropLast ∧ C 'D' ∉ got

/-- The bytes that were stored are those of the finished lines, in order, and the others are in the
buffer. -/
structure ConsoleSys.Ordered {P : Type} (s : ConsoleSys P) (l : Line) : Prop where
  shows : s.input.Shows l
  committed : s.committed = s.consumed ++ l.committed
  delivered : s.delivered = s.consumed.filter (· ≠ C 'D')
  phase : ∀ p, (s.phase p).Ok

theorem Line.key_committed (l : Line) (k : Key) :
  ∃ added, (l.key k).committed = l.committed ++ added
  := by
  cases k with
  | ignored | kill | erase => exact ⟨[], (List.append_nil _).symm⟩
  | char c =>
    rw [Line.key, Line.type]
    split
    · split
      · exact ⟨_, rfl⟩
      · exact ⟨[], (List.append_nil _).symm⟩
    · exact ⟨[], (List.append_nil _).symm⟩

/-- Keys only add to the finished lines. -/
theorem Line.keys_committed (l : Line) (codes : List UInt8) :
  ∃ added, (codes.foldl (fun l c => l.key (.ofCode c)) l).committed = l.committed ++ added
  := by
  induction codes generalizing l with
  | nil => exact ⟨[], (List.append_nil _).symm⟩
  | cons c codes ih =>
    obtain ⟨added, hadded⟩ := l.key_committed (.ofCode c)
    obtain ⟨added', hadded'⟩ := ih (l.key (.ofCode c))
    use added ++ added'
    rw [List.foldl_cons, hadded', hadded, List.append_assoc]

theorem Input.killLoop_r (n : Nat) (s : Input) :
  (killLoop n s).r = s.r
  := by
  induction n generalizing s with
  | zero => rfl
  | succ n ih =>
    rw [killLoop]
    split
    · exact ih _
    · rfl

/-- Keys do not read. -/
theorem Input.key_r (s : Input) (c : UInt8) :
  (s.key c).r = s.r
  := by
  unfold key backspace put killLine
  dsimp only
  split_ifs <;> first | rfl | exact killLoop_r _ _

theorem Input.consoleintr_r (s : Input) (codes : List UInt8) :
  (consoleintr s codes).r = s.r
  := by
  induction codes generalizing s with
  | nil => rfl
  | cons c codes ih => exact (ih (s.key c)).trans (s.key_r c)

namespace ConsoleSys.Ordered

variable {P : Type} {s : ConsoleSys P} {l : Line}

theorem intr (h : s.Ordered l) (codes : List UInt8) :
  (s.intr codes).Ordered (codes.foldl (fun l c => l.key (.ofCode c)) l)
  := by
  have hshows := h.shows.consoleintr codes
  obtain ⟨added, hadded⟩ := l.keys_committed codes
  have hle : l.committed.length + added.length ≤ INPUT_BUF := by
    have := hshows.length_le
    rw [hadded, List.length_append] at this
    omega
  have hslice : (consoleintr s.input codes).slice s.input.w (consoleintr s.input codes).w
      = added := by
    have hdata := hshows.data.left
    rw [hadded] at hdata
    have hslice := Input.slice_eq hdata hle
    rw [← List.length_append, ← hadded, ← hshows.w_eq, s.input.consoleintr_r,
      ← h.shows.w_eq] at hslice
    exact hslice
  refine ⟨hshows, ?_, h.delivered, h.phase⟩
  change s.committed ++ _ = s.consumed ++ _
  rw [hslice, h.committed, hadded, List.append_assoc]

variable [DecidableEq P]

section

variable (h : s.Ordered l)

include h

/-- What a part of `consoleread` takes, and what it leaves. -/
theorem read_part (p : P) (n : Int) (got : List UInt8) :
  ∃ taken rest, (s.read p n got).input.Shows ⟨rest, l.editing⟩ ∧
    (s.read p n got).consumed = s.consumed ++ taken ∧
    ReadPart n.toNat (n.toNat - got.length) l.committed taken rest
      (readLoop (s.killed p) n.toNat (n.toNat - got.length) s.input).2.1
      (readLoop (s.killed p) n.toNat (n.toNat - got.length) s.input).2.2
  := by
  obtain ⟨taken, rest, hholds, hr, hpart⟩ :=
    h.shows.readLoop (s.killed p) (Nat.sub_le n.toNat got.length)
  refine ⟨taken, rest, hholds, ?_, hpart⟩
  have hle : taken.length ≤ INPUT_BUF := by
    have := h.shows.length_le
    rw [hpart.split, List.length_append] at this
    omega
  have hslice : s.input.slice s.input.r (s.input.r + .ofNat taken.length) = taken := by
    have hdata := h.shows.data.left
    rw [hpart.split] at hdata
    exact Input.slice_first hdata.left hle
  change s.consumed ++ s.input.slice s.input.r _ = _
  rw [hr, hslice]

/-- A part of `consoleread` keeps the order. -/
theorem read {got : List UInt8} (p : P) (n : Int) (hnl : newline ∉ got) (hD : C 'D' ∉ got) :
  ∃ l', (s.read p n got).Ordered l'
  := by
  obtain ⟨taken, rest, hshows, hconsumed, hpart⟩ := h.read_part p n got
  refine ⟨⟨rest, l.editing⟩, hshows, ?_, ?_, ?_⟩
  · rw [hconsumed, List.append_assoc, ← hpart.split]
    exact h.committed
  · rw [hconsumed, List.filter_append, ← hpart.bytes_eq, ← h.delivered]
    rfl
  · intro q
    rcases eq_or_ne q p with rfl | hq
    · rw [show (s.read q n got).phase q = _ from Function.update_self ..]
      generalize (readLoop (s.killed q) n.toNat (n.toNat - got.length) s.input).2.1 = bytes at *
      generalize (readLoop (s.killed q) n.toNat (n.toNat - got.length) s.input).2.2 = e at *
      have hD' : C 'D' ∉ got ++ bytes := by
        intro hmem
        rcases List.mem_append.mp hmem with hmem | hmem
        · exact hD hmem
        · rw [hpart.bytes_eq, List.mem_filter] at hmem
          exact absurd rfl (of_decide_eq_true hmem.2)
      have hline : newline ∉ (got ++ bytes).dropLast := by
        rw [List.dropLast_append]
        split
        · exact fun hmem => hnl (List.dropLast_subset _ hmem)
        · exact List.not_mem_append hnl hpart.line
      cases e with
      | done | fail => exact ⟨hline, hD'⟩
      | asleep =>
        obtain ⟨-, hlen, hmem⟩ := hpart.pending nofun
        refine ⟨List.not_mem_append hnl hmem, hD', ?_⟩
        rw [List.length_append]
        omega
    · rw [show (s.read p n got).phase q = s.phase q from Function.update_of_ne hq ..]
      exact h.phase q

/-- A part of `consoleread` takes a control-`D` only if it has stored no byte, and it returns at any
other. -/
theorem read_takes (p : P) (n : Int) (got : List UInt8) :
  ∃ taken, s.Takes (s.read p n got) p taken
  := by
  obtain ⟨taken, rest, hshows, hconsumed, hpart⟩ := h.read_part p n got
  use taken
  have hself : (s.read p n got).phase p = _ := Function.update_self ..
  generalize (readLoop (s.killed p) n.toNat (n.toNat - got.length) s.input).2.1 = bytes at *
  generalize (readLoop (s.killed p) n.toNat (n.toNat - got.length) s.input).2.2 = e at *
  constructor
  · exact hconsumed
  · rw [h.shows.view_eq, hshows.view_eq]
    exact hpart.split
  · intro hmem
    obtain ⟨rfl, rfl, hpos, hle⟩ := hpart.eof hmem
    obtain rfl : got = [] := List.length_eq_zero_iff.mp (by omega)
    exact ⟨rfl, n, by rw [hself, hpart.bytes_eq]; rfl⟩
  · intro hne
    rw [hshows.view_eq] at hne
    cases e with
    | done => exact ⟨n, _, hself⟩
    | fail | asleep => exact absurd (hpart.pending nofun).1 hne
  · intro n' got' hphase hlt hnl
    rw [hconsumed, hshows.view_eq]
    rw [hself] at hphase
    obtain ⟨rfl, rfl, rfl⟩ : e = .done ∧ n = n' ∧ got ++ bytes = got' := by
      cases e with
      | done =>
        cases hphase
        exact ⟨rfl, rfl, rfl⟩
      | fail | asleep => cases hphase
    rw [List.length_append] at hlt
    rcases hpart.done rfl with hlen | hlast | hend
    · omega
    · rw [List.getLast?_append, hlast] at hnl
      cases hnl rfl
    · by_cases hempty : got ++ bytes = []
      · obtain ⟨rfl, rfl⟩ := List.append_eq_nil_iff.mp hempty
        rw [List.length_nil, Nat.sub_zero, Nat.sub_zero, if_neg (Nat.lt_irrefl _)] at hend
        rw [if_pos hempty, hend]
        rfl
      · have hpos : 0 < (got ++ bytes).length := List.length_pos_iff.mpr hempty
        rw [List.length_append] at hpos
        rw [if_pos (by omega)] at hend
        rw [if_neg hempty]
        exact hend

/-- Every step keeps the order. -/
theorem step {label : Label P} {s' : ConsoleSys P} (hstep : s.step label = some (.ok s')) :
  ∃ l', s'.Ordered l'
  := by
  cases label with
  | intr codes =>
    cases hstep
    exact ⟨_, h.intr codes⟩
  | read p n =>
    rw [ConsoleSys.step] at hstep
    split at hstep
    · cases hstep
    · cases hstep
      exact h.read p n List.not_mem_nil List.not_mem_nil
  | resume p =>
    rw [ConsoleSys.step] at hstep
    split at hstep
    · rename_i n got hphase
      cases hstep
      have hok := h.phase p
      rw [hphase] at hok
      exact h.read p n hok.1 hok.2.1
    · cases hstep
  | kill p =>
    cases hstep
    exact ⟨l, h.shows, h.committed, h.delivered, h.phase⟩

end

end ConsoleSys.Ordered

theorem ordered_of_reachable
    {P : Type} [DecidableEq P] {s : ConsoleSys P} (h : (consoleSystem P).Reachable s) :
  ∃ l, s.Ordered l
  := by
  apply h.invariant
  · rintro s ⟨hw, he, hphase, hcommitted, hconsumed, hdelivered⟩
    refine ⟨⟨[], []⟩, ⟨Nat.zero_le _, ?_, ?_, Ring.Holds.nil, List.not_mem_nil⟩, ?_, ?_, ?_⟩
    · rw [hw]
      exact (UInt32.add_zero _).symm
    · rw [he]
      exact (UInt32.add_zero _).symm
    · rw [hcommitted, hconsumed]
      rfl
    · rw [hdelivered, hconsumed]
      rfl
    · intro p
      rw [hphase]
      trivial
  · rintro s label s' ⟨l, hs⟩ - hstep
    exact hs.step hstep

/-- The indices are in order, and at most `INPUT_BUF` apart.  Keys act on the buffer as on lines.
The bytes that were stored are those of the finished lines in order, up to those that are still in
the buffer and without the control-`D`s.  No read stores bytes of two lines.  A read takes a
control-`D` only as its first byte, and returns 0 then; at any other control-`D` it returns and
leaves it in the buffer. -/
theorem console_line_discipline
    {P : Type} [DecidableEq P] {s : ConsoleSys P} (h : (consoleSystem P).Reachable s) :
  ((s.input.w - s.input.r).toNat + (s.input.e - s.input.w).toNat = (s.input.e - s.input.r).toNat ∧
    (s.input.e - s.input.r).toNat ≤ INPUT_BUF) ∧
  (∀ codes, (consoleintr s.input codes).view =
    codes.foldl (fun l c => l.key (.ofCode c)) s.input.view) ∧
  (s.committed = s.consumed ++ s.input.view.committed ∧
    s.delivered = s.consumed.filter (· ≠ C 'D')) ∧
  (∀ p n got, s.phase p = .reading n got → newline ∉ got ∧ C 'D' ∉ got) ∧
  (∀ p n got value, s.phase p = .returned n got value → newline ∉ got.dropLast ∧ C 'D' ∉ got) ∧
  ∀ label s', (consoleSystem P).step s label = some (.ok s') → ∀ p, label.reader = some p →
    ∃ taken, s.Takes s' p taken
  := by
  obtain ⟨l, hs⟩ := ordered_of_reachable h
  have hview := hs.shows.view_eq
  refine ⟨⟨?_, ?_⟩, ?_, ⟨?_, hs.delivered⟩, ?_, ?_, ?_⟩
  · rw [hs.shows.sub_w, hs.shows.sub_e_w, hs.shows.sub_e]
  · rw [hs.shows.sub_e]
    exact hs.shows.length_le
  · intro codes
    rw [hview]
    exact (hs.shows.consoleintr codes).view_eq
  · rw [hview]
    exact hs.committed
  · intro p n got hphase
    have hok := hs.phase p
    rw [hphase] at hok
    exact ⟨hok.1, hok.2.1⟩
  · intro p n got value hphase
    have hok := hs.phase p
    rw [hphase] at hok
    exact hok
  · intro label s' hstep p hp
    cases label with
    | intr codes | kill q => cases hp
    | read q m =>
      cases hp
      simp only [consoleSystem, ConsoleSys.step] at hstep
      split at hstep
      · cases hstep
      · cases hstep
        exact hs.read_takes ..
    | resume q =>
      cases hp
      simp only [consoleSystem, ConsoleSys.step] at hstep
      split at hstep
      · cases hstep
        exact hs.read_takes ..
      · cases hstep

/-- A console whose indices are about to wrap around. -/
def firstConsole : ConsoleSys Unit where
  input := { buf := fun _ => 0, r := 0xffffffff, w := 0xffffffff, e := 0xffffffff }
  phase _ := .idle
  killed _ := false
  committed := []
  consumed := []
  delivered := []

/-- `a` is typed and erased, and then `b`, control-`D` and `c` are typed.  A read takes `b` and
leaves the control-`D`. -/
theorem console_line_discipline_eof :
  ∃ s, (consoleSystem Unit).Reachable s ∧ s.phase () = .returned 10 [98] 1 ∧
    s.input.view = ⟨[C 'D'], [99]⟩ ∧ s.committed = s.consumed ++ [C 'D'] ∧
    s.delivered = s.consumed.filter (· ≠ C 'D')
  := by
  obtain ⟨s, -, hreach, hphase, hview⟩ := System.exists_of_run (consoleSystem Unit)
    (show (consoleSystem Unit).init firstConsole from ⟨rfl, rfl, fun _ => rfl, rfl, rfl, rfl⟩)
    [.intr [97, C 'H', 98], .read () 10, .intr [C 'D', 99], .resume ()]
    (fun s => s.phase () = .returned 10 [98] 1 ∧ s.input.view = ⟨[C 'D'], [99]⟩)
    (by decide +kernel)
  obtain ⟨-, -, ⟨hcommitted, hdelivered⟩, -⟩ := console_line_discipline hreach
  rw [hview] at hcommitted
  exact ⟨s, hreach, hphase, hview, hcommitted, hdelivered⟩

/-! ### Hot keys -/

/-- What happens to the input: a key is pressed, or a reader with `n` bytes left of `target`
runs. -/
inductive Event where
  | key (c : UInt8)
  | read (killed : Bool) (target n : Nat)
  deriving DecidableEq, Repr

namespace Event

/-- The input after an event, and the bytes that it gives to a reader. -/
def run (s : Input) : Event → Input × List UInt8
  | .key c => (s.key c, [])
  | .read killed target n => ((readLoop killed target n s).1, (readLoop killed target n s).2.1)

/-- The input after some events, and the bytes that readers get. -/
def runAll : Input → List Event → Input × List UInt8
  | s, [] => (s, [])
  | s, ev :: evs => ((runAll (ev.run s).1 evs).1, (ev.run s).2 ++ (runAll (ev.run s).1 evs).2)

/-- A key that asks for a listing. -/
def isHot : Event → Bool
  | .key c => c ∈ [C 'P', C 'S', C 'F', C 'R', C 'Z']
  | .read .. => false

/-- Control-`R` or control-`Z` is pressed while there is something to kill. -/
def Kills (s : Input) (ev : Event) : Prop :=
  (ev = .key (C 'R') ∨ ev = .key (C 'Z')) ∧ s.e ≠ s.w ∧ s.char (s.e - 1) ≠ newline

/-- No hot key kills anything in a run. -/
def Quiet : Input → List Event → Prop
  | _, [] => True
  | s, ev :: evs => ¬ ev.Kills s ∧ Quiet (ev.run s).1 evs

end Event

/-- The same indices and the same bytes between `r` and `e`. -/
def Input.Same (s s' : Input) : Prop :=
  s.r = s'.r ∧ s.w = s'.w ∧ s.e = s'.e ∧ s.slice s.r s.e = s'.slice s'.r s'.e

section

variable {s : Input} {ev : Event} {evs : List Event}

theorem Input.killLoop_e (n : Nat) (s : Input) :
  ∃ j ≤ n, (killLoop n s).e = s.e - .ofNat j
  := by
  induction n generalizing s with
  | zero => exact ⟨0, Nat.le_refl 0, (UInt32.sub_zero s.e).symm⟩
  | succ n ih =>
    rw [killLoop]
    split
    · obtain ⟨j, hj, he⟩ := ih { s with e := s.e - 1 }
      refine ⟨j + 1, by omega, ?_⟩
      rw [he, Nat.add_comm, UInt32.ofNat_add]
      change s.e - 1 - .ofNat j = s.e - (1 + .ofNat j)
      grind
    · exact ⟨0, Nat.zero_le _, (UInt32.sub_zero s.e).symm⟩

/-- A line that is not empty gets shorter. -/
theorem Input.killLine_e_ne (he : s.e ≠ s.w) (hc : s.char (s.e - 1) ≠ newline) :
  s.killLine.e ≠ s.e
  := by
  obtain ⟨n, hn⟩ : ∃ n, (s.e - s.w).toNat = n + 1 := by
    apply Nat.exists_eq_succ_of_ne_zero
    rw [ne_eq, toNat_sub_eq_zero]
    exact he
  have hlt := (s.e - s.w).toNat_lt
  rw [killLine, hn, killLoop, if_pos ⟨he, hc⟩]
  obtain ⟨j, hj, hkill⟩ := killLoop_e n { s with e := s.e - 1 }
  rw [hkill]
  intro heq
  have hsub := congrArg UInt32.toNat heq
  have := s.e.toNat_lt
  simp only [UInt32.toNat_sub, UInt32.toNat_ofNat', UInt32.toNat_one] at hsub
  omega

namespace Event

/-- A hot key that kills nothing changes nothing. -/
theorem run_of_hot (hot : ev.isHot = true) (h : ¬ ev.Kills s) :
  ev.run s = (s, [])
  := by
  cases ev with
  | read => cases hot
  | key c =>
    simp only [isHot, List.mem_cons, List.not_mem_nil, or_false, decide_eq_true_eq] at hot
    have hkill : c = C 'R' ∨ c = C 'Z' → s.killLine = s := by
      intro hc
      have hnot : ¬ (s.e ≠ s.w ∧ s.char (s.e - 1) ≠ newline) := by
        intro hne
        apply h
        rcases hc with rfl | rfl
        · exact ⟨.inl rfl, hne⟩
        · exact ⟨.inr rfl, hne⟩
      rw [Input.killLine]
      cases (s.e - s.w).toNat with
      | zero => rfl
      | succ n => rw [Input.killLoop, if_neg hnot]
    rw [run]
    congr 1
    rcases hot with rfl | rfl | rfl | rfl | rfl
    · rfl
    · rfl
    · rfl
    · exact hkill (.inl rfl)
    · exact hkill (.inr rfl)

theorem isHot_of_kills (h : ev.Kills s) :
  ev.isHot = true
  := by
  rcases h with ⟨rfl | rfl, -⟩
  · decide
  · decide

theorem Quiet.runAll_filter (h : Quiet s evs) :
  runAll s (evs.filter (!·.isHot)) = runAll s evs
  := by
  induction evs generalizing s with
  | nil => rfl
  | cons ev evs ih =>
    have hrest := ih h.2
    by_cases hot : ev.isHot = true
    · rw [List.filter_cons_of_neg (by simp [hot]), runAll, run_of_hot hot h.1]
      rw [run_of_hot hot h.1] at hrest
      exact hrest
    · rw [List.filter_cons_of_pos (by simp [hot]), runAll, runAll, hrest]

theorem Quiet.of_prefix {evs' : List Event} (h : Quiet s evs) (hp : evs' <+: evs) :
  Quiet s evs'
  := by
  induction evs' generalizing s evs with
  | nil => trivial
  | cons ev evs' ih =>
    obtain ⟨r, rfl⟩ := hp
    exact ⟨h.1, ih h.2 (List.prefix_append evs' r)⟩

end Event

/-- For every state of the input and all sequences of keys and reads: in every part of the sequence
the hot keys make no difference, to the input or to the bytes that readers get, if and only if
control-`R` and control-`Z` are pressed only when there is nothing on the line to kill. -/
theorem hot_keys_quiet_iff (s : Input) (evs : List Event) :
  (∀ evs', evs' <+: evs →
    (Event.runAll s evs').1.Same (Event.runAll s (evs'.filter (!·.isHot))).1 ∧
    (Event.runAll s evs').2 = (Event.runAll s (evs'.filter (!·.isHot))).2) ↔
  Event.Quiet s evs
  := by
  constructor
  · intro h
    induction evs generalizing s with
    | nil => trivial
    | cons ev evs ih =>
      have hkills : ¬ ev.Kills s := by
        intro hk
        have hfirst := (h [ev] (List.prefix_append [ev] evs)).1.2.2.1
        rw [List.filter_cons_of_neg (by simp [Event.isHot_of_kills hk])] at hfirst
        obtain ⟨rfl | rfl, he, hc⟩ := hk
        · exact Input.killLine_e_ne he hc hfirst
        · exact Input.killLine_e_ne he hc hfirst
      refine ⟨hkills, ih _ ?_⟩
      intro evs' hp
      have hrest := h (ev :: evs') ((List.prefix_cons_inj ev).mpr hp)
      by_cases hot : ev.isHot = true
      · rw [List.filter_cons_of_neg (by simp [hot]), Event.runAll, Event.run_of_hot hot hkills]
          at hrest
        rw [Event.run_of_hot hot hkills]
        exact hrest
      · rw [List.filter_cons_of_pos (by simp [hot]), Event.runAll, Event.runAll] at hrest
        exact ⟨hrest.1, List.append_cancel_left hrest.2⟩
  · intro h evs' hp
    rw [(h.of_prefix hp).runAll_filter]
    exact ⟨⟨rfl, rfl, rfl, rfl⟩, rfl⟩

/-- `a` and control-`R` are typed. -/
theorem hot_key_kills :
  (Event.runAll firstConsole.input [.key 97, .key (C 'R')]).1.e = 0xffffffff ∧
    (Event.runAll firstConsole.input ([.key 97, .key (C 'R')].filter (!·.isHot))).1.e = 0
  := by
  decide +kernel

end

end Xv6.Console
