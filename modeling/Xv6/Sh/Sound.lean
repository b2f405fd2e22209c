import Mathlib.Data.List.Forall2
import Xv6.Sh.Lexer

/-!
# The parser returns what the grammar derives

With enough fuel for the tokens of its input every function of the parser ends.  If it returns a
command then the tokens it has consumed are derived from its nonterminal, with the tree that the
command stands for.
-/

namespace Xv6.Sh

variable {line s s' : List UInt8} {c c' : Cmd} {t : Tree}

/-! ### Commands and trees -/

/-- The command stands for the tree, with words of the line. -/
inductive Cmd.Reads (line : List UInt8) : Cmd → Tree → Prop where
  | exec {argv : List (Ptr × Ptr)} {ws : List Word}
      (h : List.Forall₂ (fun arg w => Slice line arg.1 arg.2 w) argv ws) :
      Reads line (.exec argv) (.exec ws)
  | redir {c : Cmd} {t : Tree} {file efile : Ptr} {w : Word} {mode fd : Nat}
      (h : Reads line c t) (hw : Slice line file efile w) :
      Reads line (.redir c file efile mode fd) (.redir t w mode fd)
  | pipe {c d : Cmd} {t u : Tree} (h : Reads line c t) (h' : Reads line d u) :
      Reads line (.pipe c d) (.pipe t u)
  | list {c d : Cmd} {t u : Tree} (h : Reads line c t) (h' : Reads line d u) :
      Reads line (.list c d) (.list t u)
  | back {c : Cmd} {t : Tree} (h : Reads line c t) : Reads line (.back c) (.back t)

theorem Tree.redirect_append (t : Tree) (rs rs' : List Redir) :
  t.redirect (rs ++ rs') = (t.redirect rs).redirect rs'
  := List.foldl_append

/-- An argument goes to the command that the redirections wrap. -/
theorem Cmd.Reads.addArg
    {ws : List Word} {rs : List Redir} {q eq : Ptr} {w : Word}
    (h : c.Reads line ((Tree.exec ws).redirect rs)) (hw : Slice line q eq w) :
  (c.addArg q eq).Reads line ((Tree.exec (ws ++ [w])).redirect rs)
  := by
  induction rs using List.reverseRecOn generalizing c with
  | nil =>
    cases h with
    | exec h =>
      apply Reads.exec
      exact List.rel_append h (.cons hw .nil)
  | append_singleton rs r ih =>
    rw [Tree.redirect_append] at h ⊢
    cases h with
    | redir h hr => exact .redir (ih h) hr

/-! ### Ways to end -/

/-- The parser ends, and if it returns then its result satisfies `Q`. -/
def Ends (Q : Cmd → Ptr → Prop) : Except Stop (Cmd × Ptr) → Prop
  | .ok (c, s) => Q c s
  | .error (.panic _) => True
  | .error .fuel => False

theorem Ends.bind
    {Q R : Cmd → Ptr → Prop} {x : Except Stop (Cmd × Ptr)}
    {f : Cmd × Ptr → Except Stop (Cmd × Ptr)} (h : Ends Q x)
    (hf : ∀ c s, Q c s → Ends R (f (c, s))) :
  Ends R (x >>= f)
  := by
  match x with
  | .ok (c, s) => exact hf c s h
  | .error (.panic _) => trivial
  | .error .fuel => exact h.elim

theorem Ends.mono
    {Q R : Cmd → Ptr → Prop} {x : Except Stop (Cmd × Ptr)} (h : Ends Q x)
    (hQ : ∀ c s, Q c s → R c s) :
  Ends R x
  := by
  match x with
  | .ok (c, s) => exact hQ c s h
  | .error (.panic _) => trivial
  | .error .fuel => exact h

/-- A function of the parser that started at `s` returned a command and arrived at `s'`: the tokens
between them are derived as `P`. -/
structure Parsed (line : List UInt8) (P : List Token → Tree → Prop) (s : Ptr) (c : Cmd) (s' : Ptr) :
    Prop where
  suffix : s' <:+ s
  derived : ∃ ts t, tokens s = ts ++ tokens s' ∧ P ts t ∧ c.Reads line t

/-- A pointer into a line. -/
structure Within (line : List UInt8) (s : Ptr) : Prop where
  suffix : s <:+ line
  nonzero : 0 ∉ s

theorem Within.mono (h : Within line s) (hs : s' <:+ s) : Within line s'
  := ⟨hs.trans h.suffix, fun h0 => h.nonzero (hs.subset h0)⟩

/-! ### Redirections -/

theorem redircmd_reads
    {op : RedirOp} {q eq : Ptr} {w : Word} (h : c.Reads line t) (hw : Slice line q eq w) :
  (redircmd op.token.code c q eq).Reads line (.redir t w op.mode op.fd)
  := by
  cases op with
  | lt | gt | app => exact .redir h hw

/-- `peek` for a redirection. -/
theorem exists_redirOp {t : Token} (h : t.isIn [chr '<', chr '>'] = true) :
  ∃ op : RedirOp, t = op.token
  := by
  cases t with
  | lt => exact ⟨.lt, rfl⟩
  | gt => exact ⟨.gt, rfl⟩
  | app => exact ⟨.app, rfl⟩
  | word w => cases h
  | _ => exact absurd h (by decide)

theorem Token.exists_word {t : Token} (h : t.code = chr 'a') : ∃ w, t = .word w
  := by
  cases t with
  | word w => exact ⟨w, rfl⟩
  | _ => exact absurd h (by decide)

theorem Token.code_ne_zero (t : Token) : t.code ≠ 0
  := by
  cases t with
  | word w => exact (by decide : chr 'a' ≠ 0)
  | _ => decide

theorem peek_cases (hs : Within line s) (toks : List UInt8) (htoks : ∀ c ∈ toks, c ∈ symbols) :
  ((peek s toks).1 = true ∧
    ∃ tok ts, tokens s = tok :: ts ∧ tokens (peek s toks).2 = tok :: ts ∧ tok.isIn toks = true) ∨
  ((peek s toks).1 = false ∧ ∀ tok ∈ (tokens s).head?, tok.isIn toks = false)
  := by
  have hpeek := peek_eq hs.nonzero htoks
  have htokens := tokens_peek s toks
  cases hts : tokens s with
  | nil =>
    right
    rw [hts] at hpeek
    exact ⟨hpeek, nofun⟩
  | cons tok ts =>
    rw [hts] at hpeek htokens
    cases htok : tok.isIn toks with
    | true => exact .inl ⟨hpeek.trans htok, tok, ts, rfl, htokens, htok⟩
    | false =>
      right
      use hpeek.trans htok
      rintro _ ⟨⟩
      exact htok

/-- The file of a redirection. -/
theorem gettoken_word
    (hs : Within line s) (h : (gettoken s).ret = chr 'a') :
  ∃ w, tokens s = .word w :: tokens (gettoken s).ps ∧ (gettoken s).ps <:+ s ∧
    Slice line (gettoken s).q (gettoken s).eq w
  := by
  cases hts : tokens s with
  | nil =>
    rw [gettoken_of_nil hts] at h
    exact absurd h (by decide)
  | cons tok ts =>
    obtain ⟨hret, hps, hle, hslice⟩ := gettoken_of_cons line hs.nonzero hts
    obtain ⟨w, rfl⟩ := Token.exists_word (hret.symm.trans h)
    exact ⟨w, by rw [hps], hle, hslice w rfl hs.suffix⟩

theorem parseredirs_ends
    {n : Nat} (hn : (tokens s).length < n) (hs : Within line s) (hc : c.Reads line t) :
  Ends (fun c' s' => s' <:+ s ∧ ∃ rs, tokens s = redirTokens rs ++ tokens s' ∧
    c'.Reads line (t.redirect rs)) (parseredirs n c s)
  := by
  induction n generalizing s c t with
  | zero => omega
  | succ n ih =>
    rw [parseredirs]
    have hsuffix := peek_suffix s [chr '<', chr '>']
    obtain ⟨hp, tok, ts, hts, hps, htok⟩ | ⟨hp, -⟩ :=
      peek_cases hs [chr '<', chr '>'] (by simp [symbols])
    · rw [if_pos hp]
      obtain ⟨op, rfl⟩ := exists_redirOp htok
      obtain ⟨hret, hrest, hle, -⟩ :=
        gettoken_of_cons line (hs.mono hsuffix).nonzero hps
      have hs₁ := hs.mono (hle.trans hsuffix)
      dsimp only
      split
      · trivial
      · rename_i hfile
        obtain ⟨w, hw, hle', hslice⟩ := gettoken_word hs₁ (not_not.mp hfile)
        rw [hret]
        have hlen : _ = _ + 1 := congrArg List.length hts
        have hlen' : _ = _ + 1 := congrArg List.length (hrest.symm.trans hw)
        apply (ih (by omega) (hs₁.mono hle') (redircmd_reads hc hslice)).mono
        rintro c' s' ⟨hs', rs, hrs, hreads⟩
        use ((hs'.trans hle').trans hle).trans hsuffix, ⟨op, w⟩ :: rs
        rw [hts, ← hrest, hw, hrs]
        exact ⟨rfl, hreads⟩
    · rw [if_neg (Bool.eq_false_iff.mp hp)]
      use hsuffix, []
      exact ⟨(tokens_peek ..).symm, hc⟩

/-! ### Words -/

theorem parseargs_ends
    {n argc : Nat} {ws : List Word} {rs : List Redir} (hn : (tokens s).length < n)
    (hargc : argc < MAXARGS) (hs : Within line s)
    (hc : c.Reads line ((Tree.exec ws).redirect rs)) :
  Ends (fun c' s' => s' <:+ s ∧ ∃ args : List (Word × List Redir),
    tokens s = argTokens args ++ tokens s' ∧ argc + args.length < MAXARGS ∧
    c'.Reads line ((Tree.exec (ws ++ args.map Prod.fst)).redirect (rs ++ args.flatMap Prod.snd)))
    (parseargs n argc c s)
  := by
  induction n generalizing s c ws rs argc with
  | zero => omega
  | succ n ih =>
    rw [parseargs]
    have hsuffix := peek_suffix s [chr '|', chr ')', chr '&', chr ';']
    have htokens := tokens_peek s [chr '|', chr ')', chr '&', chr ';']
    generalize peek s [chr '|', chr ')', chr '&', chr ';'] = p at *
    have hs₁ := hs.mono hsuffix
    have hstop : c.Reads line
        ((Tree.exec (ws ++ ([] : List (Word × List Redir)).map Prod.fst)).redirect
        (rs ++ ([] : List (Word × List Redir)).flatMap Prod.snd)) := by
      simpa using hc
    dsimp only
    split
    · exact ⟨hsuffix, [], htokens.symm, hargc, hstop⟩
    · split
      · rename_i hret
        -- The result 0 is the end of the line.
        have hts : tokens p.2 = [] := by
          by_contra hne
          obtain ⟨tok, ts, hts⟩ := List.exists_cons_of_ne_nil hne
          obtain ⟨hcode, -⟩ := gettoken_of_cons line hs₁.nonzero hts
          exact tok.code_ne_zero (hcode.symm.trans hret)
        rw [gettoken_of_nil hts]
        refine ⟨List.nil_suffix, [], ?_, hargc, hstop⟩
        rw [← htokens, hts]
        exact (tokens_eq_nil_iff.mpr rfl).symm
      · split
        · trivial
        · rename_i hword
          obtain ⟨w, hw, hle, hslice⟩ := gettoken_word hs₁ (not_not.mp hword)
          have hs₂ := hs₁.mono hle
          have hlen : _ = _ + 1 := congrArg List.length (htokens.symm.trans hw)
          split
          · trivial
          · apply (parseredirs_ends (by omega) hs₂ (hc.addArg hslice)).bind
            rintro c₁ s₁ ⟨hs₁', rs₁, hrs₁, hc₁⟩
            have hlen₁ := (congrArg List.length hrs₁).trans List.length_append
            rw [← Tree.redirect_append] at hc₁
            apply (ih (by omega) (by omega) (hs₂.mono hs₁') hc₁).mono
            rintro c' s' ⟨hs', args, hargs, hlt, hc'⟩
            refine ⟨((hs'.trans hs₁').trans hle).trans hsuffix, (w, rs₁) :: args, ?_, ?_, ?_⟩
            · rw [← htokens, hw, hrs₁, hargs]
              simp [argTokens]
            · rw [List.length_cons]
              omega
            · simpa [List.append_assoc] using hc'

/-! ### Symbols -/

/-- The symbols that the parser looks for one by one. -/
def separators : List Token :=
  [.bar, .amp, .semi, .lpar, .rpar]

theorem Token.eq_of_isIn {t t' : Token} (ht' : t' ∈ separators) (h : t.isIn [t'.code] = true) :
  t = t'
  := by
  cases t with
  | word w => cases h
  | _ =>
    revert h
    revert t'
    decide

theorem separators_symbols : ∀ t ∈ separators, ∀ c ∈ [t.code], c ∈ symbols
  := by simp [separators, Token.code, symbols]

theorem separators_isIn : ∀ t ∈ separators, t.isIn [t.code] = true
  := by decide

/-- `peek` for a symbol, and `gettoken` if it is there. -/
theorem peek_symbol
    (hs : Within line s) (tok : Token) {c : UInt8} (htok : tok ∈ separators) (hc : tok.code = c) :
  ((peek s [c]).1 = true ∧ tokens s = tok :: tokens (gettoken (peek s [c]).2).ps ∧
    (gettoken (peek s [c]).2).ps <:+ s) ∨
  ((peek s [c]).1 = false ∧ (tokens s).head? ≠ some tok)
  := by
  subst hc
  have hsuffix := peek_suffix s [tok.code]
  obtain ⟨hp, tok', ts, hts, hps, hin⟩ | ⟨hp, hnot⟩ :=
    peek_cases hs [tok.code] (separators_symbols tok htok)
  · left
    obtain rfl := Token.eq_of_isIn htok hin
    obtain ⟨-, hrest, hle, -⟩ := gettoken_of_cons line (hs.mono hsuffix).nonzero hps
    exact ⟨hp, by rw [hts, hrest], hle.trans hsuffix⟩
  · right
    use hp
    intro hhead
    cases (hnot tok hhead).symm.trans (separators_isIn tok htok)

theorem parseback_ends
    {n : Nat} (hn : (tokens s).length < n) (hs : Within line s) (hc : c.Reads line t) :
  Ends (fun c' s' => s' <:+ s ∧ ∃ k, tokens s = List.replicate k .amp ++ tokens s' ∧
    c'.Reads line (t.background k)) (parseback n c s)
  := by
  induction n generalizing s c t with
  | zero => omega
  | succ n ih =>
    rw [parseback]
    obtain ⟨hp, hts, hle⟩ | ⟨hp, -⟩ := peek_symbol hs .amp (c := chr '&') (by decide) rfl
    · rw [if_pos hp]
      have hlen : _ = _ + 1 := congrArg List.length hts
      apply (ih (by omega) (hs.mono hle) hc.back).mono
      rintro c' s' ⟨hs', k, hk, hc'⟩
      use hs'.trans hle, k + 1
      rw [hts, hk]
      exact ⟨rfl, hc'⟩
    · rw [if_neg (Bool.eq_false_iff.mp hp)]
      exact ⟨peek_suffix .., 0, (tokens_peek ..).symm, hc⟩

/-! ### The recursive functions -/

/-- With fuel `4 * m + k` for `m` tokens a function ends, and it returns what `P` derives. -/
def Sound (line : List UInt8) (k : Nat) (P : List Token → Tree → Prop)
    (f : Ptr → Except Stop (Cmd × Ptr)) (n : Nat) : Prop :=
  ∀ s, 4 * (tokens s).length + k ≤ n → Within line s → Ends (Parsed line P s) (f s)

theorem parseline_sound
    {n : Nat} (hpipe : Sound line 3 Pipe (parsepipe n) n)
    (hline : Sound line 4 Line (parseline n) n) :
  Sound line 4 Line (parseline (n + 1)) (n + 1)
  := by
  intro s hn hs
  rw [parseline]
  apply (hpipe s (by omega) hs).bind
  rintro c₁ s₁ ⟨hs₁, ts₁, t₁, hts₁, hder₁, hc₁⟩
  have hlen₁ := (congrArg List.length hts₁).trans List.length_append
  apply (parseback_ends (by omega) (hs.mono hs₁) hc₁).bind
  rintro c₂ s₂ ⟨hs₂, k, hk, hc₂⟩
  have hlen₂ := (congrArg List.length hk).trans List.length_append
  have hw₂ := (hs.mono hs₁).mono hs₂
  dsimp only
  obtain ⟨hp, hts, hle⟩ | ⟨hp, -⟩ := peek_symbol hw₂ .semi (c := chr ';') (by decide) rfl
  · rw [if_pos hp]
    have hlen : _ = _ + 1 := congrArg List.length hts
    apply (hline _ (by omega) (hw₂.mono hle)).bind
    rintro c₃ s₃ ⟨hs₃, us, u, hus, hder₃, hc₃⟩
    constructor
    · exact ((hs₃.trans hle).trans hs₂).trans hs₁
    · use ts₁ ++ List.replicate k .amp ++ .semi :: us, .list (t₁.background k) u
      use ?_, .list hder₁ k hder₃, .list hc₂ hc₃
      rw [hts₁, hk, hts, hus]
      simp
  · rw [if_neg (Bool.eq_false_iff.mp hp)]
    constructor
    · exact ((peek_suffix ..).trans hs₂).trans hs₁
    · use ts₁ ++ List.replicate k .amp, t₁.background k
      use ?_, .pipe hder₁ k, hc₂
      rw [hts₁, hk, tokens_peek, List.append_assoc]

theorem parsepipe_sound
    {n : Nat} (hexec : Sound line 2 Command (parseexec n) n)
    (hpipe : Sound line 3 Pipe (parsepipe n) n) :
  Sound line 3 Pipe (parsepipe (n + 1)) (n + 1)
  := by
  intro s hn hs
  rw [parsepipe]
  apply (hexec s (by omega) hs).bind
  rintro c₁ s₁ ⟨hs₁, ts₁, t₁, hts₁, hder₁, hc₁⟩
  have hlen₁ := (congrArg List.length hts₁).trans List.length_append
  have hw₁ := hs.mono hs₁
  dsimp only
  obtain ⟨hp, hts, hle⟩ | ⟨hp, -⟩ := peek_symbol hw₁ .bar (c := chr '|') (by decide) rfl
  · rw [if_pos hp]
    have hlen : _ = _ + 1 := congrArg List.length hts
    apply (hpipe _ (by omega) (hw₁.mono hle)).bind
    rintro c₂ s₂ ⟨hs₂, us, u, hus, hder₂, hc₂⟩
    constructor
    · exact (hs₂.trans hle).trans hs₁
    · use ts₁ ++ .bar :: us, .pipe t₁ u
      use ?_, .pipe hder₁ hder₂, .pipe hc₁ hc₂
      rw [hts₁, hts, hus]
      simp
  · rw [if_neg (Bool.eq_false_iff.mp hp)]
    constructor
    · exact (peek_suffix ..).trans hs₁
    · use ts₁, t₁
      use ?_, .cmd hder₁, hc₁
      rw [hts₁, tokens_peek]

theorem parseblock_sound
    {n : Nat} (hline : Sound line 4 Line (parseline n) n) :
  Sound line 1 Command (parseblock (n + 1)) (n + 1)
  := by
  intro s hn hs
  rw [parseblock]
  dsimp only
  obtain ⟨hp, hts, hle⟩ | ⟨hp, -⟩ := peek_symbol hs .lpar (c := chr '(') (by decide) rfl
  · rw [hp, if_neg (by decide)]
    have hlen : _ = _ + 1 := congrArg List.length hts
    apply (hline _ (by omega) (hs.mono hle)).bind
    rintro c₁ s₁ ⟨hs₁, ts₁, t₁, hts₁, hder₁, hc₁⟩
    have hlen₁ := (congrArg List.length hts₁).trans List.length_append
    have hw₁ := (hs.mono hle).mono hs₁
    dsimp only
    obtain ⟨hp', hts', hle'⟩ | ⟨hp', -⟩ := peek_symbol hw₁ .rpar (c := chr ')') (by decide) rfl
    · rw [hp', if_neg (by decide)]
      have hlen' : _ = _ + 1 := congrArg List.length hts'
      apply (parseredirs_ends (by omega) (hw₁.mono hle') hc₁).mono
      rintro c₂ s₂ ⟨hs₂, rs, hrs, hc₂⟩
      constructor
      · exact ((hs₂.trans hle').trans hs₁).trans hle
      · use .lpar :: ts₁ ++ .rpar :: redirTokens rs, t₁.redirect rs
        use ?_, .block hder₁ rs, hc₂
        rw [hts, hts₁, hts', hrs]
        simp
    · rw [hp']
      trivial
  · rw [hp]
    trivial

theorem parseexec_sound
    {n : Nat} (hblock : Sound line 1 Command (parseblock n) n) :
  Sound line 2 Command (parseexec (n + 1)) (n + 1)
  := by
  intro s hn hs
  rw [parseexec]
  have hsuffix := peek_suffix s [chr '(']
  have htokens := tokens_peek s [chr '(']
  generalize peek s [chr '('] = p at *
  have hs₁ := hs.mono hsuffix
  rw [← htokens] at hn
  dsimp only
  split
  · apply (hblock p.2 (by omega) hs₁).mono
    rintro c₁ s₁ ⟨hs₁', hder⟩
    rw [htokens] at hder
    exact ⟨hs₁'.trans hsuffix, hder⟩
  · have hempty : (Cmd.exec []).Reads line (.exec []) := .exec .nil
    apply (parseredirs_ends (by omega) hs₁ hempty).bind
    rintro c₁ s₁ ⟨hs₁', rs, hrs, hc₁⟩
    have hlen := (congrArg List.length hrs).trans List.length_append
    apply (parseargs_ends (by omega) (by decide) (hs₁.mono hs₁') hc₁).mono
    rintro c₂ s₂ ⟨hs₂, args, hargs, hlt, hc₂⟩
    constructor
    · exact (hs₂.trans hs₁').trans hsuffix
    · use redirTokens rs ++ argTokens args
      use (Tree.exec (args.map Prod.fst)).redirect (rs ++ args.flatMap Prod.snd)
      use ?_, .exec rs args (by omega), hc₂
      rw [← htokens, hrs, hargs, List.append_assoc]

/-- Every function of the parser is sound. -/
theorem parse_sound (line : List UInt8) (n : Nat) :
  Sound line 4 Line (parseline n) n ∧ Sound line 3 Pipe (parsepipe n) n ∧
    Sound line 1 Command (parseblock n) n ∧ Sound line 2 Command (parseexec n) n
  := by
  induction n with
  | zero =>
    have hzero {k : Nat} (hk : 0 < k) {P : List Token → Tree → Prop}
        {f : Ptr → Except Stop (Cmd × Ptr)} : Sound line k P f 0 := by
      intro s hn
      omega
    exact ⟨hzero (by omega), hzero (by omega), hzero (by omega), hzero (by omega)⟩
  | succ n ih =>
    obtain ⟨hline, hpipe, hblock, hexec⟩ := ih
    exact ⟨parseline_sound hpipe hline, parsepipe_sound hexec hpipe, parseblock_sound hline,
      parseexec_sound hblock⟩

end Xv6.Sh
