import Mathlib.Logic.Function.Iterate
import Xv6.Sh.Parser

/-!
# The grammar of the shell

The tokens of a line, and the trees that the grammar

    line  ::= pipe '&'* [';' line]
    pipe  ::= cmd ['|' pipe]
    cmd   ::= '(' line ')' redir* | redir* (word redir*)*
    redir ::= ('<' | '>' | '>>') word

derives from a sequence of tokens.
-/

namespace Xv6.Sh

/-! ### Tokens -/

/-- A word: the characters of it. -/
abbrev Word : Type := List UInt8

inductive Token where
  | lt | gt | app | bar | amp | semi | lpar | rpar
  | word (w : Word)
  deriving DecidableEq, Repr

/-- The token that consists of one symbol. -/
def Token.ofSymbol (c : UInt8) : Token :=
  if c = chr '<' then .lt
  else if c = chr '|' then .bar
  else if c = chr '>' then .gt
  else if c = chr '&' then .amp
  else if c = chr ';' then .semi
  else if c = chr '(' then .lpar
  else .rpar

/-- The first token of a line and the rest of the line. -/
def scan (s : List UInt8) : Option (Token × List UInt8) :=
  match s.dropWhile isWhite with
  | [] => none
  | c :: r =>
      if isWord c then some (.word ((c :: r).takeWhile isWord), (c :: r).dropWhile isWord)
      else if c = chr '>' ∧ r.head? = some (chr '>') then some (.app, r.tail)
      else some (.ofSymbol c, r)

theorem length_dropWhile_le (p : UInt8 → Bool) (s : List UInt8) :
  (s.dropWhile p).length ≤ s.length
  := (List.dropWhile_suffix p).length_le

theorem length_of_scan {s r : List UInt8} {t : Token} (h : scan s = some (t, r)) :
  r.length < s.length
  := by
  have hle := length_dropWhile_le isWhite s
  rw [scan] at h
  split at h
  · cases h
  · rename_i c r' hs
    rw [hs] at hle
    rw [List.length_cons] at hle
    split at h
    · rename_i hc
      cases h
      rw [List.dropWhile_cons_of_pos hc]
      have := length_dropWhile_le isWord r'
      omega
    · split at h
      · cases h
        rw [List.length_tail]
        omega
      · cases h
        omega

/-- The tokens of a line. -/
def tokens (s : List UInt8) : List Token :=
  match h : scan s with
  | none => []
  | some (t, r) =>
      have := length_of_scan h
      t :: tokens r
termination_by s.length

theorem tokens_of_none {s : List UInt8} (h : scan s = none) : tokens s = []
  := by
  rw [tokens]
  split
  · rfl
  · rename_i h'
    rw [h] at h'
    cases h'

theorem tokens_of_some {s r : List UInt8} {t : Token} (h : scan s = some (t, r)) :
  tokens s = t :: tokens r
  := by
  rw [tokens]
  split
  · rename_i h'
    rw [h] at h'
    cases h'
  · rename_i h'
    rw [h] at h'
    cases h'
    rfl

/-! ### Trees -/

/-- What a line means. -/
inductive Tree where
  | exec (argv : List Word)
  | redir (t : Tree) (file : Word) (mode fd : Nat)
  | pipe (left right : Tree)
  | list (left right : Tree)
  | back (t : Tree)
  deriving DecidableEq, Repr

/-- The symbols of redirections. -/
inductive RedirOp where
  | lt | gt | app
  deriving DecidableEq, Repr

def RedirOp.token : RedirOp → Token
  | .lt => .lt
  | .gt => .gt
  | .app => .app

def RedirOp.mode : RedirOp → Nat
  | .lt => O_RDONLY
  | .gt | .app => O_WRONLY_CREATE

/-- The descriptor that is redirected. -/
def RedirOp.fd : RedirOp → Nat
  | .lt => 0
  | .gt | .app => 1

/-- A redirection. -/
structure Redir where
  op : RedirOp
  file : Word
  deriving DecidableEq, Repr

/-- The tokens of a sequence of redirections. -/
def redirTokens (rs : List Redir) : List Token :=
  rs.flatMap fun r => [r.op.token, .word r.file]

/-- The command with redirections, the last one outermost. -/
def Tree.redirect (t : Tree) (rs : List Redir) : Tree :=
  rs.foldl (fun t r => .redir t r.file r.op.mode r.op.fd) t

/-- The command in the background, `k` times. -/
def Tree.background (t : Tree) (k : Nat) : Tree :=
  Tree.back^[k] t

/-- The tokens of words with their redirections. -/
def argTokens (args : List (Word × List Redir)) : List Token :=
  args.flatMap fun a => .word a.1 :: redirTokens a.2

mutual

/-- `line ::= pipe '&'* [';' line]` -/
inductive Line : List Token → Tree → Prop where
  | pipe {ts : List Token} {t : Tree} (h : Pipe ts t) (k : Nat) :
      Line (ts ++ List.replicate k .amp) (t.background k)
  | list {ts us : List Token} {t u : Tree} (h : Pipe ts t) (k : Nat) (h' : Line us u) :
      Line (ts ++ List.replicate k .amp ++ .semi :: us) (.list (t.background k) u)

/-- `pipe ::= cmd ['|' pipe]` -/
inductive Pipe : List Token → Tree → Prop where
  | cmd {ts : List Token} {t : Tree} (h : Command ts t) : Pipe ts t
  | pipe {ts us : List Token} {t u : Tree} (h : Command ts t) (h' : Pipe us u) :
      Pipe (ts ++ .bar :: us) (.pipe t u)

/-- `cmd ::= '(' line ')' redir* | redir* (word redir*)*`, with fewer than `MAXARGS` words -/
inductive Command : List Token → Tree → Prop where
  | block {ts : List Token} {t : Tree} (h : Line ts t) (rs : List Redir) :
      Command (.lpar :: ts ++ .rpar :: redirTokens rs) (t.redirect rs)
  | exec (rs : List Redir) (args : List (Word × List Redir)) (h : args.length < MAXARGS) :
      Command (redirTokens rs ++ argTokens args)
        ((Tree.exec (args.map Prod.fst)).redirect (rs ++ args.flatMap Prod.snd))

end

end Xv6.Sh
