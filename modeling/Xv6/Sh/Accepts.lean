import Xv6.Sh.Complete

/-!
# The parser accepts the grammar

`nulterminate` writes NUL only behind words, so that every argument of the command is a string with
the characters of its word.  `parsecmd` returns a command for exactly the lines of the grammar.
-/

namespace Xv6.Sh

variable {line buf : List UInt8} {c : Cmd} {t : Tree}

/-- The string at an offset of a buffer. -/
def cstr (buf : List UInt8) (i : Nat) : Word :=
  (buf.drop i).takeWhile (· ≠ 0)

/-- The string that a pointer into a line of `len` characters points to. -/
def string (len : Nat) (buf : List UInt8) (p : Ptr) : Word :=
  cstr buf (len - p.length)

/-- The tree of a command, with the strings that its pointers point to. -/
def Cmd.tree (len : Nat) (buf : List UInt8) : Cmd → Tree
  | .exec argv => .exec (argv.map fun arg => string len buf arg.1)
  | .redir cmd file _ mode fd => .redir (cmd.tree len buf) (string len buf file) mode fd
  | .pipe left right => .pipe (left.tree len buf) (right.tree len buf)
  | .list left right => .list (left.tree len buf) (right.tree len buf)
  | .back cmd => .back (cmd.tree len buf)

/-! ### Terminating the words -/

/-- The buffer holds the line, except for NULs in the place of characters that are in no word. -/
structure Marked (line buf : List UInt8) : Prop where
  length : buf.length = line.length + 1
  word : ∀ (i : Nat) (c : UInt8), (line)[i]? = some c → isWord c → buf[i]? = some c

/-- `buf'` has NULs wherever `buf` has. -/
def KeepsNul (buf buf' : List UInt8) : Prop :=
  ∀ i : Nat, buf[i]? = some 0 → buf'[i]? = some 0

/-- There is a NUL where the pointer points to. -/
def EndsAt (line buf : List UInt8) (p : Ptr) : Prop :=
  buf[line.length - p.length]? = some 0

/-- The words of the command are followed by NULs. -/
def Cmd.Ended (line buf : List UInt8) : Cmd → Prop
  | .exec argv => ∀ arg ∈ argv, EndsAt line buf arg.2
  | .redir cmd _ efile _ _ => cmd.Ended line buf ∧ EndsAt line buf efile
  | .pipe left right => left.Ended line buf ∧ right.Ended line buf
  | .list left right => left.Ended line buf ∧ right.Ended line buf
  | .back cmd => cmd.Ended line buf

theorem Cmd.Ended.mono {buf' : List UInt8} (h : c.Ended line buf) (hbuf : KeepsNul buf buf') :
  c.Ended line buf'
  := by
  induction c with
  | exec argv => exact fun arg harg => hbuf _ (h arg harg)
  | redir c file efile mode fd ih => exact ⟨ih h.1, hbuf _ h.2⟩
  | pipe c d ihc ihd | list c d ihc ihd => exact ⟨ihc h.1, ihd h.2⟩
  | back c ih => exact ih h

/-- The characters of the line behind a pointer. -/
theorem getElem?_of_suffix {q : Ptr} (h : q <:+ line) (i : Nat) :
  (line)[line.length - q.length + i]? = q[i]?
  := by
  obtain ⟨l, rfl⟩ := h
  rw [List.length_append, Nat.add_sub_cancel, List.getElem?_append_right (Nat.le_add_right ..),
    Nat.add_sub_cancel_left]

theorem Slice.suffix_eq {q eq : Ptr} {w : Word} (h : Slice line q eq w) : eq <:+ line
  := (h.split ▸ List.suffix_append w eq).trans h.suffix

/-- Writing a NUL behind a word. -/
theorem Marked.setNul
    {q eq : Ptr} {w : Word} (h : Marked line buf) (hw : Slice line q eq w) :
  Marked line (setNul line.length buf eq) ∧ KeepsNul buf (setNul line.length buf eq) ∧
    EndsAt line (setNul line.length buf eq) eq
  := by
  have hlen := hw.suffix_eq.length_le
  have hbuf := h.length
  use ?_, ?_, ?_
  · constructor
    · rw [Sh.setNul, List.length_set, hbuf]
    · intro i c hi hc
      rw [Sh.setNul, List.getElem?_set_ne, h.word i c hi hc]
      rintro rfl
      -- The character behind the word is in no word.
      have hat := getElem?_of_suffix hw.suffix_eq 0
      rw [Nat.add_zero, hi] at hat
      have := hw.stop c (by rw [List.head?_eq_getElem?]; exact hat.symm)
      rw [this] at hc
      cases hc
  · intro i hi
    rw [Sh.setNul, List.getElem?_set]
    split
    · split
      · rfl
      · omega
    · exact hi
  · rw [EndsAt, Sh.setNul, List.getElem?_set_self]
    omega

theorem nulterminate_argv
    {argv : List (Ptr × Ptr)} {ws : List Word}
    (hc : List.Forall₂ (fun arg w => Slice line arg.1 arg.2 w) argv ws) (h : Marked line buf) :
  Marked line (nulterminate line.length (.exec argv) buf) ∧
    KeepsNul buf (nulterminate line.length (.exec argv) buf) ∧
    (Cmd.exec argv).Ended line (nulterminate line.length (.exec argv) buf)
  := by
  induction hc generalizing buf with
  | nil => exact ⟨h, fun _ => id, nofun⟩
  | @cons arg w argv ws hw _ ih =>
    obtain ⟨hmarked, hkeeps, hends⟩ := h.setNul hw
    obtain ⟨hmarked', hkeeps', hended⟩ := ih hmarked
    use hmarked', fun i hi => hkeeps' i (hkeeps i hi)
    intro a ha
    obtain rfl | ha := List.mem_cons.mp ha
    · exact hkeeps' _ hends
    · exact hended a ha

theorem nulterminate_spec (hc : c.Reads line t) (h : Marked line buf) :
  Marked line (nulterminate line.length c buf) ∧
    KeepsNul buf (nulterminate line.length c buf) ∧
    c.Ended line (nulterminate line.length c buf)
  := by
  induction hc generalizing buf with
  | exec hargv => exact nulterminate_argv hargv h
  | redir _ hw ih =>
    obtain ⟨hmarked, hkeeps, hended⟩ := ih h
    obtain ⟨hmarked', hkeeps', hends⟩ := hmarked.setNul hw
    exact ⟨hmarked', fun i hi => hkeeps' i (hkeeps i hi), hended.mono hkeeps', hends⟩
  | pipe _ _ ih ih' | list _ _ ih ih' =>
    obtain ⟨hmarked, hkeeps, hended⟩ := ih h
    obtain ⟨hmarked', hkeeps', hended'⟩ := ih' hmarked
    exact ⟨hmarked', fun i hi => hkeeps' i (hkeeps i hi), hended.mono hkeeps', hended'⟩
  | back _ ih => exact ih h

/-- A word that is followed by a NUL is the string at its start. -/
theorem Slice.string_eq
    {q eq : Ptr} {w : Word} (hw : Slice line q eq w) (h0 : 0 ∉ line) (h : Marked line buf)
    (hend : EndsAt line buf eq) :
  string line.length buf q = w
  := by
  have hlen := hw.suffix.length_le
  have hsplit := congrArg List.length hw.split
  rw [List.length_append] at hsplit
  have hdrop : buf.drop (line.length - q.length)
      = w ++ buf.drop (line.length - q.length + w.length) := by
    apply List.ext_getElem?
    intro i
    rw [List.getElem?_drop]
    by_cases hi : i < w.length
    · rw [List.getElem?_append_left hi, List.getElem?_eq_getElem hi]
      apply h.word
      · rw [getElem?_of_suffix hw.suffix, hw.split, List.getElem?_append_left hi,
          List.getElem?_eq_getElem hi]
      · exact hw.word _ (List.getElem_mem hi)
    · rw [List.getElem?_append_right (by omega), List.getElem?_drop]
      congr 1
      omega
  have hstop : line.length - q.length + w.length = line.length - eq.length := by
    omega
  rw [string, cstr, hdrop, List.takeWhile_append_of_pos, hstop]
  · have hhead : (buf.drop (line.length - eq.length)).head? = some 0 := by
      rw [List.head?_drop]
      exact hend
    cases hbuf : buf.drop (line.length - eq.length) with
    | nil => rw [List.takeWhile_nil, List.append_nil]
    | cons b r =>
      rw [hbuf] at hhead
      cases hhead
      rw [List.takeWhile_cons_of_neg (by decide), List.append_nil]
  · intro c hc
    rw [decide_eq_true_iff]
    rintro rfl
    apply h0
    apply hw.suffix.subset
    rw [hw.split]
    exact List.mem_append_left _ hc

theorem Cmd.Reads.tree_eq
    (hc : c.Reads line t) (h0 : 0 ∉ line) (h : Marked line buf) (hend : c.Ended line buf) :
  c.tree line.length buf = t
  := by
  induction hc with
  | @exec argv ws hargv =>
    rw [Cmd.tree]
    congr 1
    induction hargv with
    | nil => rfl
    | cons hw _ ih =>
      rw [List.map_cons, hw.string_eq h0 h (hend _ List.mem_cons_self)]
      rw [ih fun arg harg => hend arg (List.mem_cons_of_mem _ harg)]
  | redir _ hw ih => rw [Cmd.tree, ih hend.1, hw.string_eq h0 h hend.2]
  | pipe _ _ ih ih' | list _ _ ih ih' => rw [Cmd.tree, ih hend.1, ih' hend.2]
  | back _ ih => rw [Cmd.tree, ih hend]

theorem marked_line (line : List UInt8) : Marked line (line ++ [0])
  := by
  constructor
  · rw [List.length_append]
    rfl
  · intro i c hi _
    rw [List.getElem?_append_left, hi]
    exact (List.getElem?_eq_some_iff.mp hi).1

/-- The strings of the command that `parsecmd` returns. -/
theorem Cmd.Reads.parsed (hc : c.Reads line t) (h0 : 0 ∉ line) :
  c.tree line.length (nulterminate line.length c (line ++ [0])) = t
  := by
  obtain ⟨hmarked, -, hended⟩ := nulterminate_spec hc (marked_line line)
  exact hc.tree_eq h0 hmarked hended

/-! ### Lines -/

/-- The line of a command that `parsecmd` returns, and the buffer after it. -/
theorem parsecmd_reads {s : List UInt8} (h0 : 0 ∉ s) (h : parsecmd s = .ok (c, buf)) :
  ∃ t, Line (tokens s) t ∧ c.Reads s t ∧ buf = nulterminate s.length c (s ++ [0])
  := by
  have hsound := (parse_sound s (4 * s.length + 4)).1 s
    (by have := length_tokens_le s; omega) ⟨List.suffix_refl s, h0⟩
  rw [parsecmd] at h
  cases hline : parseline (4 * s.length + 4) s with
  | error e =>
    rw [hline] at h
    cases h
  | ok r =>
    obtain ⟨c', s'⟩ := r
    rw [hline] at h hsound
    obtain ⟨-, ts, t, hts, hder, hc⟩ := hsound
    change (if (peek s' []).2 ≠ [] then _ else _) = _ at h
    split at h
    · cases h
    · rename_i hend
      cases h
      rw [tokens_eq_nil_iff.mpr (not_not.mp hend), List.append_nil] at hts
      exact ⟨t, hts ▸ hder, hc, rfl⟩

/-- `parsecmd` returns a command if and only if the grammar derives the tokens of the line, and the
command is the tree of the derivation.  In every other case it panics. -/
theorem parsecmd_accepts (s : List UInt8) (h0 : 0 ∉ s) :
  (∀ t, Line (tokens s) t ↔ ∃ c buf, parsecmd s = .ok (c, buf) ∧ c.tree s.length buf = t) ∧
    ((∃ r, parsecmd s = .ok r) ∨ ∃ p, parsecmd s = .error (.panic p))
  := by
  have hs : Within s s := ⟨List.suffix_refl s, h0⟩
  have hlen := length_tokens_le s
  have hsound := (parse_sound s (4 * s.length + 4)).1 s (by omega) hs
  constructor
  · intro t
    constructor
    · intro hder
      obtain ⟨c, s', hline, -, hrest, hc⟩ :=
        (parse_complete s (4 * s.length + 4)).1 s (tokens s) [] t
        (List.append_nil _).symm hder nofun (by omega) hs
      have hend : (peek s' []).2 = [] := tokens_eq_nil_iff.mp hrest
      use c, nulterminate s.length c (s ++ [0])
      use ?_, hc.parsed h0
      rw [parsecmd, hline]
      exact if_neg (not_not.mpr hend)
    · rintro ⟨c, buf, hparse, rfl⟩
      obtain ⟨t, hder, hc, rfl⟩ := parsecmd_reads h0 hparse
      rw [hc.parsed h0]
      exact hder
  · rw [parsecmd]
    cases hline : parseline (4 * s.length + 4) s with
    | error e =>
      cases e with
      | panic p => exact .inr ⟨p, rfl⟩
      | fuel =>
        rw [hline] at hsound
        exact hsound.elim
    | ok r =>
      change (∃ x, (if (peek r.2 []).2 ≠ [] then _ else _) = _) ∨ _
      by_cases hend : (peek r.2 []).2 ≠ []
      · exact .inr ⟨.leftovers, if_pos hend⟩
      · exact .inl ⟨_, if_neg hend⟩

/-- The tree of `a<f|(b;c)&`. -/
theorem parsecmd_accepts_block :
  Line (tokens (['a', '<', 'f', '|', '(', 'b', ';', 'c', ')', '&'].map chr))
    (.back (.pipe (.redir (.exec [[chr 'a']]) [chr 'f'] O_RDONLY 0)
      (.list (.exec [[chr 'b']]) (.exec [[chr 'c']]))))
  := ((parsecmd_accepts _ (by decide)).1 _).mpr ⟨_, _, rfl, rfl⟩

/-! ### The words of a command -/

/-- The words of the tree are tokens, and there are fewer than `MAXARGS` arguments. -/
def Tree.Uses (ts : List Token) : Tree → Prop
  | .exec argv => argv.length < MAXARGS ∧ ∀ w ∈ argv, .word w ∈ ts
  | .redir t file _ _ => t.Uses ts ∧ .word file ∈ ts
  | .pipe left right | .list left right => left.Uses ts ∧ right.Uses ts
  | .back t => t.Uses ts

theorem Tree.Uses.mono {ts ts' : List Token} (h : t.Uses ts) (hsub : ts ⊆ ts') : t.Uses ts'
  := by
  induction t with
  | exec argv => exact ⟨h.1, fun w hw => hsub (h.2 w hw)⟩
  | redir t file mode fd ih => exact ⟨ih h.1, hsub h.2⟩
  | pipe t u iht ihu | list t u iht ihu => exact ⟨iht h.1, ihu h.2⟩
  | back t ih => exact ih h

theorem Tree.Uses.redirect
    {ts : List Token} (h : t.Uses ts) {rs : List Redir} (hrs : redirTokens rs ⊆ ts) :
  (t.redirect rs).Uses ts
  := by
  induction rs generalizing t with
  | nil => exact h
  | cons r rs ih =>
    rw [redirTokens, List.flatMap_cons] at hrs
    have hr : Token.word r.file ∈ ts := hrs (List.mem_append_left _ (by simp))
    apply ih (t := .redir t r.file r.op.mode r.op.fd) ⟨h, hr⟩
    exact fun tok htok => hrs (List.mem_append_right _ htok)

theorem Tree.Uses.background {ts : List Token} (h : t.Uses ts) (k : Nat) : (t.background k).Uses ts
  := by
  induction k generalizing t with
  | zero => exact h
  | succ k ih => exact ih (t := .back t) h

theorem redirTokens_flatMap_subset (args : List (Word × List Redir)) :
  redirTokens (args.flatMap Prod.snd) ⊆ argTokens args
  := by
  intro tok htok
  simp only [redirTokens, argTokens, List.mem_flatMap] at htok ⊢
  obtain ⟨r, ⟨a, ha, hr⟩, htok⟩ := htok
  exact ⟨a, ha, List.mem_cons_of_mem _ (List.mem_flatMap.mpr ⟨r, hr, htok⟩)⟩

mutual

/-- The words of a line are its tokens. -/
theorem Line.uses {ts : List Token} {t : Tree} : Line ts t → t.Uses ts
  | .pipe h k => (h.uses.background k).mono (List.subset_append_left ..)
  | .list h k h' =>
      ⟨(h.uses.background k).mono
        (List.Subset.trans (List.subset_append_left ..) (List.subset_append_left ..)),
        h'.uses.mono (List.Subset.trans (List.subset_cons_self ..) (List.subset_append_right ..))⟩

theorem Pipe.uses {ts : List Token} {t : Tree} : Pipe ts t → t.Uses ts
  | .cmd h => h.uses
  | .pipe h h' =>
      ⟨h.uses.mono (List.subset_append_left ..),
        h'.uses.mono (List.Subset.trans (List.subset_cons_self ..) (List.subset_append_right ..))⟩

theorem Command.uses {ts : List Token} {t : Tree} : Command ts t → t.Uses ts
  | .block h rs =>
      (h.uses.mono
        (List.Subset.trans (List.subset_cons_self ..) (List.subset_append_left ..))).redirect
        (List.Subset.trans (List.subset_cons_self ..) (List.subset_append_right ..))
  | .exec rs args hlt => by
      apply Tree.Uses.redirect
      · refine ⟨by rwa [List.length_map], ?_⟩
        intro w hw
        obtain ⟨a, ha, rfl⟩ := List.mem_map.mp hw
        exact List.mem_append_right _ (List.mem_flatMap.mpr ⟨a, ha, List.mem_cons_self⟩)
      · rw [redirTokens, List.flatMap_append]
        exact List.append_subset.mpr ⟨List.subset_append_left ..,
          List.Subset.trans (redirTokens_flatMap_subset args) (List.subset_append_right ..)⟩

end

/-- `argv[i]` of an `execcmd`. -/
def argvAt (argv : List (Ptr × Ptr)) (i : Fin MAXARGS) : Option Ptr :=
  (argv[i.val]?).map Prod.fst

/-- The pointers mark a word token of the line, and it is the string in the buffer. -/
def WordAt (line buf : List UInt8) (q eq : Ptr) : Prop :=
  ∃ w, Slice line q eq w ∧ .word w ∈ tokens line ∧ string line.length buf q = w

/-- All strings of the command are the words that they were parsed from, and `argv` ends with a null
pointer. -/
def Cmd.Intact (line buf : List UInt8) : Cmd → Prop
  | .exec argv => (∃ argc : Fin MAXARGS, argc = argv.length ∧ argvAt argv argc = none) ∧
      ∀ arg ∈ argv, WordAt line buf arg.1 arg.2
  | .redir cmd file efile _ _ => cmd.Intact line buf ∧ WordAt line buf file efile
  | .pipe left right | .list left right => left.Intact line buf ∧ right.Intact line buf
  | .back cmd => cmd.Intact line buf

theorem Cmd.Reads.intact
    (hc : c.Reads line t) (h0 : 0 ∉ line) (h : Marked line buf) (hend : c.Ended line buf)
    (huses : t.Uses (tokens line)) :
  c.Intact line buf
  := by
  induction hc with
  | @exec argv ws hargv =>
    obtain ⟨hlt, hmem⟩ := huses
    refine ⟨⟨⟨argv.length, hargv.length_eq ▸ hlt⟩, rfl, ?_⟩, ?_⟩
    · rw [argvAt, List.getElem?_eq_none (Nat.le_refl _)]
      rfl
    · intro arg harg
      obtain ⟨i, hi, rfl⟩ := List.mem_iff_getElem.mp harg
      have hi' := hargv.length_eq ▸ hi
      have hw := hargv.get hi hi'
      exact ⟨_, hw, hmem _ (List.getElem_mem hi'), hw.string_eq h0 h (hend _ harg)⟩
  | redir _ hw ih => exact ⟨ih hend.1 huses.1, _, hw, huses.2, hw.string_eq h0 h hend.2⟩
  | pipe _ _ ih ih' | list _ _ ih ih' => exact ⟨ih hend.1 huses.1, ih' hend.2 huses.2⟩
  | back _ ih => exact ih hend huses

/-- In the command that `parsecmd` returns, every argument and every file name is the string of the
word token that it was parsed from, and every `argv` ends with a null pointer. -/
theorem nulterminate_keeps_words (s : List UInt8) (h0 : 0 ∉ s) (h : parsecmd s = .ok (c, buf)) :
  c.Intact s buf
  := by
  obtain ⟨t, hder, hc, rfl⟩ := parsecmd_reads h0 h
  obtain ⟨hmarked, -, hended⟩ := nulterminate_spec hc (marked_line s)
  exact hc.intact h0 hmarked hended hder.uses

/-- The words of `a>b`, which have no space between them. -/
theorem nulterminate_keeps_words_adjacent :
  ∃ c buf, parsecmd (['a', '>', 'b'].map chr) = .ok (c, buf) ∧
    c.Intact (['a', '>', 'b'].map chr) buf
  := ⟨_, _, rfl, nulterminate_keeps_words _ (by decide) rfl⟩

end Xv6.Sh
