import Xv6.Sh.Sound

/-!
# The parser returns a command for every line of the grammar

If the tokens at a pointer start with what a nonterminal derives, and a token follows that may
follow it, then the function for the nonterminal returns the tree and leaves the tokens that follow.
-/

namespace Xv6.Sh

variable {line s s' : List UInt8} {c : Cmd} {t : Tree} {rest : List Token}

/-- The first of the tokens is one of the given ones. -/
def Follow (allowed rest : List Token) : Prop :=
  ∀ tok ∈ rest.head?, tok ∈ allowed

theorem Follow.mono {allowed allowed' : List Token} (h : Follow allowed rest)
    (hsub : allowed ⊆ allowed') :
  Follow allowed' rest
  := fun tok htok => hsub (h tok htok)

theorem Follow.cons {allowed : List Token} {tok : Token} (h : tok ∈ allowed) :
  Follow allowed (tok :: rest)
  := by
  rintro _ ⟨⟩
  exact h

/-- The function returns, with a command for the tree, and leaves the tokens `rest`. -/
def Returns (line : List UInt8) (s : Ptr) (t : Tree) (rest : List Token)
    (x : Except Stop (Cmd × Ptr)) : Prop :=
  ∃ c s', x = .ok (c, s') ∧ s' <:+ s ∧ tokens s' = rest ∧ c.Reads line t

theorem Returns.bind
    {t u : Tree} {mid : List Token} {x : Except Stop (Cmd × Ptr)}
    {f : Cmd × Ptr → Except Stop (Cmd × Ptr)} (h : Returns line s t mid x)
    (hf : ∀ c s', s' <:+ s → tokens s' = mid → c.Reads line t →
      Returns line s' u rest (f (c, s'))) :
  Returns line s u rest (x >>= f)
  := by
  obtain ⟨c, s', rfl, hs', hmid, hc⟩ := h
  obtain ⟨c', s'', hx, hs'', hrest, hc'⟩ := hf c s' hs' hmid hc
  exact ⟨c', s'', hx, hs''.trans hs', hrest, hc'⟩

theorem Returns.mono {x : Except Stop (Cmd × Ptr)} (h : Returns line s' t rest x) (hs : s' <:+ s) :
  Returns line s t rest x
  := by
  obtain ⟨c, s₁, hx, hs₁, hrest, hc⟩ := h
  exact ⟨c, s₁, hx, hs₁.trans hs, hrest, hc⟩

/-! ### Looking ahead -/

section

variable {c : UInt8} (hs : Within line s) (tok : Token) (htok : tok ∈ separators)
  (hc : tok.code = c)

include hs tok htok hc

/-- `peek` and `gettoken` for a symbol that is there. -/
theorem peek_there {ts : List Token} (h : tokens s = tok :: ts) :
  (peek s [c]).1 = true ∧ tokens (gettoken (peek s [c]).2).ps = ts ∧
    (gettoken (peek s [c]).2).ps <:+ s
  := by
  obtain ⟨hp, hts, hle⟩ | ⟨-, hne⟩ := peek_symbol hs tok htok hc
  · rw [h] at hts
    cases hts
    exact ⟨hp, rfl, hle⟩
  · rw [h] at hne
    exact absurd rfl hne

/-- `peek` for a symbol that is not there. -/
theorem peek_absent (h : (tokens s).head? ≠ some tok) :
  (peek s [c]).1 = false
  := by
  obtain ⟨-, hts, -⟩ | ⟨hp, -⟩ := peek_symbol hs tok htok hc
  · rw [hts] at h
    exact absurd rfl h
  · exact hp

end

theorem Follow.head?_ne {allowed : List Token} {tok : Token} (h : Follow allowed rest)
    (htok : tok ∉ allowed) :
  rest.head? ≠ some tok
  := fun hhead => htok (h tok hhead)

/-! ### Loops -/

theorem parseredirs_returns
    {n : Nat} {rs : List Redir} (hs : Within line s) (hts : tokens s = redirTokens rs ++ rest)
    (hrest : ∀ tok ∈ rest.head?, tok.isIn [chr '<', chr '>'] = false) (hn : rs.length < n)
    (hc : c.Reads line t) :
  Returns line s (t.redirect rs) rest (parseredirs n c s)
  := by
  induction n generalizing s c t rs with
  | zero => omega
  | succ n ih =>
    rw [parseredirs]
    have hsuffix := peek_suffix s [chr '<', chr '>']
    have hs₁ := hs.mono hsuffix
    obtain ⟨hp, tok, ts, htok, hps, hin⟩ | ⟨hp, hnot⟩ :=
      peek_cases hs [chr '<', chr '>'] (by simp [symbols])
    · rw [if_pos hp]
      cases rs with
      | nil =>
        rw [hts] at htok
        cases (hrest tok (by rw [show rest = _ from htok]; rfl)).symm.trans hin
      | cons r rs =>
        rw [hts] at htok
        cases htok
        obtain ⟨hret, hps₁, hle₁, -⟩ := gettoken_of_cons line hs₁.nonzero hps
        have hs₂ := hs₁.mono hle₁
        obtain ⟨hret', hps₂, hle₂, hslice⟩ := gettoken_of_cons line hs₂.nonzero hps₁
        have hword : (gettoken (gettoken (peek s [chr '<', chr '>']).2).ps).ret = chr 'a' := hret'
        dsimp only
        rw [if_neg (not_not.mpr hword), hret]
        apply (ih (hs₂.mono hle₂) hps₂ (by rw [List.length_cons] at hn; omega)
          (redircmd_reads hc (hslice r.file rfl hs₂.suffix))).mono
        exact (hle₂.trans hle₁).trans hsuffix
    · rw [if_neg (Bool.eq_false_iff.mp hp)]
      cases rs with
      | nil => exact ⟨c, _, rfl, hsuffix, (tokens_peek ..).trans hts, hc⟩
      | cons r rs =>
        have := hnot r.op.token (by rw [hts]; rfl)
        cases hop : r.op with
        | lt | gt | app => exact absurd this (by rw [hop]; decide)

theorem parseback_returns
    {n k : Nat} (hs : Within line s) (hts : tokens s = List.replicate k .amp ++ rest)
    (hrest : rest.head? ≠ some .amp) (hn : k < n) (hc : c.Reads line t) :
  Returns line s (t.background k) rest (parseback n c s)
  := by
  induction n generalizing s c t k with
  | zero => omega
  | succ n ih =>
    rw [parseback]
    cases k with
    | zero =>
      rw [List.replicate_zero, List.nil_append] at hts
      have hp := peek_absent hs .amp (c := chr '&') (by decide) rfl (by rwa [hts])
      rw [if_neg (Bool.eq_false_iff.mp hp)]
      exact ⟨c, _, rfl, peek_suffix .., (tokens_peek ..).trans hts, hc⟩
    | succ k =>
      obtain ⟨hp, hps, hle⟩ := peek_there hs .amp (c := chr '&') (by decide) rfl hts
      rw [if_pos hp]
      exact (ih (hs.mono hle) hps (by omega) hc.back).mono hle

/-- The tokens after a word are no part of it. -/
theorem isIn_argTokens
    {args : List (Word × List Redir)} (hrest : Follow [.bar, .amp, .semi, .rpar] rest) :
  ∀ tok ∈ (argTokens args ++ rest).head?, tok.isIn [chr '<', chr '>'] = false
  := by
  have hnot : ∀ tok ∈ [Token.bar, .amp, .semi, .rpar], tok.isIn [chr '<', chr '>'] = false := by
    decide
  intro tok htok
  cases args with
  | nil => exact hnot tok (hrest tok htok)
  | cons a args =>
    cases htok
    rfl

theorem parseargs_returns
    {n argc : Nat} {args : List (Word × List Redir)} {ws : List Word} {rs : List Redir}
    (hs : Within line s) (hts : tokens s = argTokens args ++ rest)
    (hrest : Follow [.bar, .amp, .semi, .rpar] rest) (hn : (argTokens args).length < n)
    (hargc : argc + args.length < MAXARGS) (hc : c.Reads line ((Tree.exec ws).redirect rs)) :
  Returns line s
    ((Tree.exec (ws ++ args.map Prod.fst)).redirect (rs ++ args.flatMap Prod.snd)) rest
    (parseargs n argc c s)
  := by
  induction n generalizing s c ws rs argc args with
  | zero => omega
  | succ n ih =>
    rw [parseargs]
    have hsuffix := peek_suffix s [chr '|', chr ')', chr '&', chr ';']
    have htokens := tokens_peek s [chr '|', chr ')', chr '&', chr ';']
    have hs₁ := hs.mono hsuffix
    obtain ⟨hp, tok, ts, htok, hps, hin⟩ | ⟨hp, hnot⟩ :=
      peek_cases hs [chr '|', chr ')', chr '&', chr ';'] (by simp [symbols])
    · rw [if_pos hp]
      cases args with
      | nil =>
        have hc' : c.Reads line ((Tree.exec (ws ++ [])).redirect (rs ++ [])) := by
          simpa using hc
        exact ⟨c, _, rfl, hsuffix, htokens.trans hts, hc'⟩
      | cons a args =>
        rw [hts] at htok
        cases htok
        cases hin
    · rw [if_neg (Bool.eq_false_iff.mp hp)]
      cases args with
      | nil =>
        have hnil : rest = [] := by
          cases hr : rest with
          | nil => rfl
          | cons tok ts =>
            rw [hr] at hts hrest
            have := hnot tok (by rw [hts]; rfl)
            have := hrest tok rfl
            simp only [List.mem_cons, List.not_mem_nil, or_false] at this
            rcases this with rfl | rfl | rfl | rfl <;> contradiction
        have hend : tokens (peek s [chr '|', chr ')', chr '&', chr ';']).2 = [] := by
          rw [htokens, hts, hnil]
          rfl
        rw [gettoken_of_nil hend]
        have hc' : c.Reads line ((Tree.exec (ws ++ [])).redirect (rs ++ [])) := by
          simpa using hc
        refine ⟨c, [], if_pos rfl, List.nil_suffix, ?_, hc'⟩
        rw [hnil, tokens_eq_nil_iff]
        rfl
      | cons a args =>
        obtain ⟨w, rs₁⟩ := a
        have hword : tokens (peek s [chr '|', chr ')', chr '&', chr ';']).2
            = .word w :: (redirTokens rs₁ ++ (argTokens args ++ rest)) := by
          rw [htokens, hts]
          simp [argTokens]
        obtain ⟨hret, hps, hle, hslice⟩ := gettoken_of_cons line hs₁.nonzero hword
        have hs₂ := hs₁.mono hle
        have hlen : (argTokens ((w, rs₁) :: args)).length
            = 1 + 2 * rs₁.length + (argTokens args).length := by
          simp [argTokens, redirTokens]
          omega
        rw [List.length_cons] at hargc
        dsimp only
        have hcode : (Token.word w).code = chr 'a' := rfl
        rw [hret, hcode, if_neg (by decide : chr 'a' ≠ 0),
          if_neg (not_not.mpr (rfl : chr 'a' = chr 'a')), if_neg (by omega)]
        have hredirs := parseredirs_returns (n := n) hs₂ hps (isIn_argTokens hrest) (by omega)
          (hc.addArg (hslice w rfl hs₁.suffix))
        rw [← Tree.redirect_append] at hredirs
        apply Returns.mono _ (hle.trans hsuffix)
        apply hredirs.bind
        intro c₁ s₁ hs₁' hts₁ hc₁
        have hnext : argc + 1 + args.length < MAXARGS := by
          omega
        simpa [List.append_assoc] using ih (hs₂.mono hs₁') hts₁ (by omega) hnext hc₁

/-! ### The recursive functions -/

/-- With fuel `4 * m + k` a function returns the tree that `P` derives from `m` tokens. -/
def Complete (line : List UInt8) (k : Nat) (P : List Token → Tree → Prop) (allowed : List Token)
    (f : Ptr → Except Stop (Cmd × Ptr)) (n : Nat) : Prop :=
  ∀ s ts rest t, tokens s = ts ++ rest → P ts t → Follow allowed rest → 4 * ts.length + k ≤ n →
    Within line s → Returns line s t rest (f s)

theorem parseline_complete
    {n : Nat} (hpipe : Complete line 3 Pipe [.amp, .semi, .rpar] (parsepipe n) n)
    (hline : Complete line 4 Line [.rpar] (parseline n) n) :
  Complete line 4 Line [.rpar] (parseline (n + 1)) (n + 1)
  := by
  intro s ts rest t hts hder hrest hn hs
  rw [parseline]
  cases hder with
  | @pipe ts t hder k =>
    rw [List.append_assoc] at hts
    rw [List.length_append, List.length_replicate] at hn
    have hfollow : Follow [.amp, .semi, .rpar] (List.replicate k .amp ++ rest) := by
      cases k with
      | zero => exact hrest.mono (by decide)
      | succ k => exact .cons (by decide)
    apply (hpipe s ts _ t hts hder hfollow (by omega) hs).bind
    intro c₁ s₁ hs₁ hts₁ hc₁
    have hw₁ := hs.mono hs₁
    have hback := parseback_returns (n := n) hw₁ hts₁ (hrest.head?_ne (by decide)) (by omega) hc₁
    apply hback.bind
    intro c₂ s₂ hs₂ hts₂ hc₂
    have hp : (peek s₂ [chr ';']).1 = false := by
      apply peek_absent (hw₁.mono hs₂) .semi (by decide) rfl
      rw [hts₂]
      exact hrest.head?_ne (by decide)
    dsimp only
    rw [if_neg (Bool.eq_false_iff.mp hp)]
    exact ⟨c₂, _, rfl, peek_suffix .., (tokens_peek ..).trans hts₂, hc₂⟩
  | @list ts us t u hder k hder' =>
    rw [List.append_assoc, List.append_assoc, List.cons_append] at hts
    rw [List.length_append, List.length_append, List.length_replicate, List.length_cons] at hn
    have hfollow :
        Follow [.amp, .semi, .rpar] (List.replicate k .amp ++ .semi :: (us ++ rest)) := by
      cases k with
      | zero | succ k => exact .cons (by decide)
    apply (hpipe s ts _ t hts hder hfollow (by omega) hs).bind
    intro c₁ s₁ hs₁ hts₁ hc₁
    have hw₁ := hs.mono hs₁
    have hback := parseback_returns (n := n) hw₁ hts₁ (by simp) (by omega) hc₁
    apply hback.bind
    intro c₂ s₂ hs₂ hts₂ hc₂
    have hw₂ := hw₁.mono hs₂
    obtain ⟨hp, hps, hle⟩ := peek_there hw₂ .semi (c := chr ';') (by decide) rfl hts₂
    dsimp only
    rw [if_pos hp]
    apply Returns.mono _ hle
    apply (hline _ us rest u hps hder' hrest (by omega) (hw₂.mono hle)).bind
    intro c₃ s₃ _ hts₃ hc₃
    exact ⟨_, _, rfl, List.suffix_refl _, hts₃, .list hc₂ hc₃⟩

theorem parsepipe_complete
    {n : Nat} (hexec : Complete line 2 Command [.bar, .amp, .semi, .rpar] (parseexec n) n)
    (hpipe : Complete line 3 Pipe [.amp, .semi, .rpar] (parsepipe n) n) :
  Complete line 3 Pipe [.amp, .semi, .rpar] (parsepipe (n + 1)) (n + 1)
  := by
  intro s ts rest t hts hder hrest hn hs
  rw [parsepipe]
  cases hder with
  | cmd hder =>
    apply (hexec s ts rest t hts hder (hrest.mono (by decide)) (by omega) hs).bind
    intro c₁ s₁ hs₁ hts₁ hc₁
    have hp : (peek s₁ [chr '|']).1 = false := by
      apply peek_absent (hs.mono hs₁) .bar (by decide) rfl
      rw [hts₁]
      exact hrest.head?_ne (by decide)
    dsimp only
    rw [if_neg (Bool.eq_false_iff.mp hp)]
    exact ⟨c₁, _, rfl, peek_suffix .., (tokens_peek ..).trans hts₁, hc₁⟩
  | @pipe ts us t u hder hder' =>
    rw [List.append_assoc, List.cons_append] at hts
    rw [List.length_append, List.length_cons] at hn
    apply (hexec s ts _ t hts hder (.cons (by decide)) (by omega) hs).bind
    intro c₁ s₁ hs₁ hts₁ hc₁
    have hw₁ := hs.mono hs₁
    obtain ⟨hp, hps, hle⟩ := peek_there hw₁ .bar (c := chr '|') (by decide) rfl hts₁
    dsimp only
    rw [if_pos hp]
    apply Returns.mono _ hle
    apply (hpipe _ us rest u hps hder' hrest (by omega) (hw₁.mono hle)).bind
    intro c₂ s₂ _ hts₂ hc₂
    exact ⟨_, _, rfl, List.suffix_refl _, hts₂, .pipe hc₁ hc₂⟩

/-- A command without parentheses does not start with one. -/
theorem head?_exec_ne
    (rs : List Redir) (args : List (Word × List Redir))
    (hrest : Follow [.bar, .amp, .semi, .rpar] rest) :
  (redirTokens rs ++ (argTokens args ++ rest)).head? ≠ some .lpar
  := by
  cases rs with
  | nil =>
    cases args with
    | nil => exact hrest.head?_ne (by decide)
    | cons a args => exact nofun
  | cons r rs =>
    cases hop : r.op <;> simp [redirTokens, hop, RedirOp.token]

/-- `'(' line ')' redir*` -/
def Block (ts : List Token) (t : Tree) : Prop :=
  Command ts t ∧ ts.head? = some .lpar

theorem parseblock_complete
    {n : Nat} (hline : Complete line 4 Line [.rpar] (parseline n) n) :
  Complete line 1 Block [.bar, .amp, .semi, .rpar] (parseblock (n + 1)) (n + 1)
  := by
  intro s ts rest t hts hder hrest hn hs
  rw [parseblock]
  obtain ⟨hder, hhead⟩ := hder
  cases hder with
  | exec rs args =>
    have hne := head?_exec_ne rs args hrest
    rw [← List.append_assoc, List.head?_append, hhead] at hne
    exact absurd rfl hne
  | block hder rs =>
    rw [List.cons_append, List.cons_append, List.append_assoc, List.cons_append] at hts
    rw [List.length_append, List.length_cons, List.length_cons] at hn
    obtain ⟨hp, hps, hle⟩ := peek_there hs .lpar (c := chr '(') (by decide) rfl hts
    have hw := hs.mono hle
    dsimp only
    rw [hp, if_neg (by decide)]
    apply Returns.mono _ hle
    apply (hline _ _ _ _ hps hder (.cons (by decide)) (by omega) hw).bind
    intro c₁ s₁ hs₁ hts₁ hc₁
    have hw₁ := hw.mono hs₁
    obtain ⟨hp', hps', hle'⟩ := peek_there hw₁ .rpar (c := chr ')') (by decide) rfl hts₁
    dsimp only
    rw [hp', if_neg (by decide)]
    have hlen : (redirTokens rs).length = 2 * rs.length := by
      simp [redirTokens]
      omega
    have hfollow : ∀ tok ∈ (argTokens [] ++ rest).head?, tok.isIn [chr '<', chr '>'] = false :=
      isIn_argTokens hrest
    exact (parseredirs_returns (hw₁.mono hle') hps' hfollow (by omega) hc₁).mono hle'

theorem parseexec_complete
    {n : Nat} (hblock : Complete line 1 Block [.bar, .amp, .semi, .rpar] (parseblock n) n) :
  Complete line 2 Command [.bar, .amp, .semi, .rpar] (parseexec (n + 1)) (n + 1)
  := by
  intro s ts rest t hts hder hrest hn hs
  rw [parseexec]
  have hsuffix := peek_suffix s [chr '(']
  have htokens := (tokens_peek s [chr '(']).trans hts
  have hs₁ := hs.mono hsuffix
  cases hder with
  | block hder rs =>
    obtain ⟨hp, -⟩ := peek_there hs .lpar (c := chr '(') (by decide) rfl hts
    dsimp only
    rw [if_pos hp]
    exact (hblock _ _ rest _ htokens ⟨.block hder rs, rfl⟩ hrest (by omega) hs₁).mono hsuffix
  | exec rs args hlt =>
    rw [List.append_assoc] at hts htokens
    rw [List.length_append] at hn
    have hp : (peek s [chr '(']).1 = false := by
      apply peek_absent hs .lpar (by decide) rfl
      rw [hts]
      exact head?_exec_ne rs args hrest
    have hlen : (redirTokens rs).length = 2 * rs.length := by
      simp [redirTokens]
      omega
    dsimp only
    rw [if_neg (Bool.eq_false_iff.mp hp)]
    have hempty : (Cmd.exec []).Reads line (.exec []) := .exec .nil
    apply Returns.mono _ hsuffix
    apply (parseredirs_returns hs₁ htokens (isIn_argTokens hrest) (by omega) hempty).bind
    intro c₁ s₁ hs₁' hts₁ hc₁
    exact parseargs_returns (hs₁.mono hs₁') hts₁ hrest (by omega) (by omega) hc₁

/-- Every function of the parser is complete. -/
theorem parse_complete (line : List UInt8) (n : Nat) :
  Complete line 4 Line [.rpar] (parseline n) n ∧
    Complete line 3 Pipe [.amp, .semi, .rpar] (parsepipe n) n ∧
    Complete line 1 Block [.bar, .amp, .semi, .rpar] (parseblock n) n ∧
    Complete line 2 Command [.bar, .amp, .semi, .rpar] (parseexec n) n
  := by
  induction n with
  | zero =>
    have hzero {k : Nat} (hk : 0 < k) {P : List Token → Tree → Prop} {allowed : List Token}
        {f : Ptr → Except Stop (Cmd × Ptr)} : Complete line k P allowed f 0 := by
      intro s ts rest t _ _ _ hn
      omega
    exact ⟨hzero (by omega), hzero (by omega), hzero (by omega), hzero (by omega)⟩
  | succ n ih =>
    obtain ⟨hline, hpipe, hblock, hexec⟩ := ih
    exact ⟨parseline_complete hpipe hline, parsepipe_complete hexec hpipe,
      parseblock_complete hline, parseexec_complete hblock⟩

end Xv6.Sh
