/-!
# The parser of the shell

`gettoken`, `peek`, `nulterminate` and the recursive functions of `sh.c` that parse a line.  A
pointer into the line is the list of the characters from it up to the terminating NUL, so `s < es`
says that the list is not empty.  Every call and every iteration of a loop uses up one unit of fuel.
-/

namespace Xv6.Sh

/-- `MAXARGS`. -/
abbrev MAXARGS : Nat := 10

/-- A pointer into the line: the characters from it up to the terminating NUL. -/
abbrev Ptr : Type := List UInt8

/-- The code of a character. -/
abbrev chr (c : Char) : UInt8 := .ofNat c.toNat

/-- `*s` -/
def deref (s : Ptr) : UInt8 :=
  s.headD 0

/-- `strchr`, as a test. -/
def strchr (s : List UInt8) (c : UInt8) : Bool :=
  s.contains c

def whitespace : List UInt8 :=
  [chr ' ', chr '\t', chr '\r', chr '\n', chr '\x0b']

def symbols : List UInt8 :=
  [chr '<', chr '|', chr '>', chr '&', chr ';', chr '(', chr ')']

/-- The loops of `gettoken` and `peek` over white space continue. -/
def isWhite (c : UInt8) : Bool :=
  strchr whitespace c

/-- The loop of `gettoken` over a word continues. -/
def isWord (c : UInt8) : Bool :=
  !strchr whitespace c && !strchr symbols c

/-- What `gettoken` returns: its result, `*q`, `*eq` and `*ps`. -/
structure Lexeme where
  ret : UInt8
  q : Ptr
  eq : Ptr
  ps : Ptr

/-- The `switch` of `gettoken`: the result and the end of the token. -/
def gettokenSwitch (q : Ptr) : UInt8 × Ptr :=
  if deref q = 0 then (0, q)
  else if deref q ∈ [chr '|', chr '(', chr ')', chr ';', chr '&', chr '<'] then (deref q, q.tail)
  else if deref q = chr '>' then
    if deref q.tail = chr '>' then (chr '+', q.tail.tail) else (deref q, q.tail)
  else (chr 'a', q.dropWhile isWord)

def gettoken (ps : Ptr) : Lexeme :=
  let q := ps.dropWhile isWhite
  let (ret, eq) := gettokenSwitch q
  ⟨ret, q, eq, eq.dropWhile isWhite⟩

/-- `peek`: its result and `*ps`. -/
def peek (ps : Ptr) (toks : List UInt8) : Bool × Ptr :=
  let s := ps.dropWhile isWhite
  (deref s ≠ 0 ∧ strchr toks (deref s), s)

/-- `O_RDONLY`. -/
abbrev O_RDONLY : Nat := 0x000

/-- `O_WRONLY | O_CREATE`. -/
abbrev O_WRONLY_CREATE : Nat := 0x001 ||| 0x200

/-- `struct cmd`. -/
inductive Cmd where
  /-- `argv` and `eargv`, up to the null pointer. -/
  | exec (argv : List (Ptr × Ptr))
  | redir (cmd : Cmd) (file efile : Ptr) (mode fd : Nat)
  | pipe (left right : Cmd)
  | list (left right : Cmd)
  | back (cmd : Cmd)
  deriving DecidableEq

/-- Store an argument in the `execcmd` that the redirections of a command wrap. -/
def Cmd.addArg (q eq : Ptr) : Cmd → Cmd
  | .exec argv => .exec (argv ++ [(q, eq)])
  | .redir cmd file efile mode fd => .redir (cmd.addArg q eq) file efile mode fd
  | c => c

/-- The calls of `panic`. -/
inductive Panic where
  /-- `"missing file for redirection"` -/
  | missingFile
  /-- `"parseblock"` -/
  | parseblock
  /-- `"syntax - missing )"` -/
  | missingParen
  /-- `"syntax"` -/
  | leftovers
  /-- `"too many args"` -/
  | tooManyArgs
  deriving DecidableEq

/-- Why there is no result. -/
inductive Stop where
  | panic (p : Panic)
  /-- The parser has not returned yet. -/
  | fuel
  deriving DecidableEq

/-- The `switch` of `parseredirs`. -/
def redircmd (tok : UInt8) (cmd : Cmd) (q eq : Ptr) : Cmd :=
  if tok = chr '<' then .redir cmd q eq O_RDONLY 0
  else if tok = chr '>' then .redir cmd q eq O_WRONLY_CREATE 1
  else if tok = chr '+' then .redir cmd q eq O_WRONLY_CREATE 1
  else cmd

def parseredirs : Nat → Cmd → Ptr → Except Stop (Cmd × Ptr)
  | 0, _, _ => .error .fuel
  | n + 1, cmd, s =>
      let p := peek s [chr '<', chr '>']
      if p.1 then
        let tok := gettoken p.2
        let file := gettoken tok.ps
        if file.ret ≠ chr 'a' then .error (.panic .missingFile)
        else parseredirs n (redircmd tok.ret cmd file.q file.eq) file.ps
      else .ok (cmd, p.2)

/-- The loop of `parseexec`. -/
def parseargs : Nat → Nat → Cmd → Ptr → Except Stop (Cmd × Ptr)
  | 0, _, _, _ => .error .fuel
  | n + 1, argc, ret, s =>
      let p := peek s [chr '|', chr ')', chr '&', chr ';']
      if p.1 then .ok (ret, p.2)
      else
        let tok := gettoken p.2
        if tok.ret = 0 then .ok (ret, tok.ps)
        else if tok.ret ≠ chr 'a' then .error (.panic .leftovers)
        else if argc + 1 ≥ MAXARGS then .error (.panic .tooManyArgs)
        else do
          let (ret, s) ← parseredirs n (ret.addArg tok.q tok.eq) tok.ps
          parseargs n (argc + 1) ret s

/-- The loop of `parseline`. -/
def parseback : Nat → Cmd → Ptr → Except Stop (Cmd × Ptr)
  | 0, _, _ => .error .fuel
  | n + 1, cmd, s =>
      let p := peek s [chr '&']
      if p.1 then parseback n (.back cmd) (gettoken p.2).ps else .ok (cmd, p.2)

mutual

def parseline : Nat → Ptr → Except Stop (Cmd × Ptr)
  | 0, _ => .error .fuel
  | n + 1, s => do
      let (cmd, s) ← parsepipe n s
      let (cmd, s) ← parseback n cmd s
      let p := peek s [chr ';']
      if p.1 then
        let (right, s) ← parseline n (gettoken p.2).ps
        .ok (.list cmd right, s)
      else .ok (cmd, p.2)

def parsepipe : Nat → Ptr → Except Stop (Cmd × Ptr)
  | 0, _ => .error .fuel
  | n + 1, s => do
      let (cmd, s) ← parseexec n s
      let p := peek s [chr '|']
      if p.1 then
        let (right, s) ← parsepipe n (gettoken p.2).ps
        .ok (.pipe cmd right, s)
      else .ok (cmd, p.2)

def parseblock : Nat → Ptr → Except Stop (Cmd × Ptr)
  | 0, _ => .error .fuel
  | n + 1, s =>
      let p := peek s [chr '(']
      if !p.1 then .error (.panic .parseblock)
      else do
        let (cmd, s) ← parseline n (gettoken p.2).ps
        let p := peek s [chr ')']
        if !p.1 then .error (.panic .missingParen)
        else parseredirs n cmd (gettoken p.2).ps

def parseexec : Nat → Ptr → Except Stop (Cmd × Ptr)
  | 0, _ => .error .fuel
  | n + 1, s =>
      let p := peek s [chr '(']
      if p.1 then parseblock n p.2
      else do
        let (ret, s) ← parseredirs n (.exec []) p.2
        parseargs n 0 ret s

end

/-- `*p = 0` in the buffer of a line of `len` characters. -/
def setNul (len : Nat) (buf : List UInt8) (p : Ptr) : List UInt8 :=
  buf.set (len - p.length) 0

/-- `nulterminate`: the buffer of the line after it. -/
def nulterminate (len : Nat) : Cmd → List UInt8 → List UInt8
  | .exec argv, buf => argv.foldl (fun buf arg => setNul len buf arg.2) buf
  | .redir cmd _ efile _ _, buf => setNul len (nulterminate len cmd buf) efile
  | .pipe left right, buf => nulterminate len right (nulterminate len left buf)
  | .list left right, buf => nulterminate len right (nulterminate len left buf)
  | .back cmd, buf => nulterminate len cmd buf

/-- `parsecmd`: the command, and the buffer of the line after it. -/
def parsecmd (s : Ptr) : Except Stop (Cmd × List UInt8) := do
  let (cmd, s') ← parseline (4 * s.length + 4) s
  let p := peek s' []
  if p.2 ≠ [] then .error (.panic .leftovers)
  else .ok (cmd, nulterminate s.length cmd (s ++ [0]))

end Xv6.Sh
