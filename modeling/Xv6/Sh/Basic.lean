import Xv6.Lib.Fuel

/-!
# The parser of the shell

`sh.c` parses a line by recursive descent. A variable of type `char*` is an offset in the line, and a
`char**` argument is passed to a function and returned from it. The line `s` has no NUL; the one behind its
end is at offset `s.length`, which is `es`.

The parse functions call each other, and nothing in their text bounds the depth of the calls, so they take an
amount of fuel; that they return for every line is part of `Xv6.Sh.Grammar`. Memory for the tree and for the
stack is not modelled.
-/

namespace Xv6

namespace Sh

/-- `MAXARGS`. -/
def MAXARGS : ℕ := 10

/-- `O_RDONLY`. -/
def O_RDONLY : ℕ := 0x000

/-- `O_WRONLY`. -/
def O_WRONLY : ℕ := 0x001

/-- `O_CREATE`. -/
def O_CREATE : ℕ := 0x200

/-- A character constant. -/
def ch (c : Char) : UInt8 := c.toUInt8

/-- `char whitespace[]`. -/
def whitespace : List UInt8 := [' ', '\t', '\r', '\n', '\x0b'].map ch

/-- `char symbols[]`. -/
def symbols : List UInt8 := ['<', '|', '>', '&', ';', '(', ')'].map ch

/-- `strchr(l, c) != 0`. -/
def strchr (l : List UInt8) (c : UInt8) : Bool := l.contains c

/-- A string in the line: the characters from `q` up to `eq`. -/
structure Slice where
  /-- The first character. -/
  q : ℕ
  /-- Behind the last character. -/
  eq : ℕ
  deriving DecidableEq

/-- A command. The strings in it have type `α`. -/
inductive Cmd (α : Type) where
  /-- `struct execcmd`. -/
  | exec (argv : List α)
  /-- `struct redircmd`. -/
  | redir (cmd : Cmd α) (file : α) (mode fd : ℕ)
  /-- `struct pipecmd`. -/
  | pipe (left right : Cmd α)
  /-- `struct listcmd`. -/
  | list (left right : Cmd α)
  /-- `struct backcmd`. -/
  | back (cmd : Cmd α)
  deriving DecidableEq

/-- The panics of the parser. -/
inductive SyntaxError where
  /-- "missing file for redirection". -/
  | missingFile
  /-- "parseblock". -/
  | parseblock
  /-- "syntax - missing )". -/
  | missingParen
  /-- "syntax", in `parseexec`. -/
  | unexpected
  /-- "too many args". -/
  | tooManyArgs
  /-- "leftovers: ", with the rest of the line, and "syntax". -/
  | leftovers (rest : List UInt8)
  deriving DecidableEq

/-- The parse functions: they may need more fuel, or panic. -/
abbrev Parse (α : Type) : Type := ExceptT SyntaxError Option α

/-! ### Tokens -/

/-- `while(s < es && p(*s)) s++;` -/
def skip (p : UInt8 → Bool) (s : List UInt8) (i : ℕ) : ℕ := i + ((s.drop i).takeWhile p).length

/-- `*s`. -/
def charAt (s : List UInt8) (i : ℕ) : UInt8 := s.getD i 0

/-- The characters that words are made of. -/
def wordChar (c : UInt8) : Bool := !strchr whitespace c && !strchr symbols c

/-- What `gettoken` returns. -/
structure Token where
  /-- The result. -/
  ret : UInt8
  /-- `q` and `eq`. -/
  text : Slice
  /-- `*ps`. -/
  ps : ℕ

/-- The `switch` of `gettoken`: `ret` and `s` after it. -/
def scan (s : List UInt8) (q : ℕ) : UInt8 × ℕ :=
  let c := charAt s q
  if c = 0 then
    (c, q)
  else if c = ch '|' ∨ c = ch '(' ∨ c = ch ')' ∨ c = ch ';' ∨ c = ch '&' ∨ c = ch '<' then
    (c, q + 1)
  else if c = ch '>' then
    if charAt s (q + 1) = ch '>' then (ch '+', q + 2) else (c, q + 1)
  else
    (ch 'a', skip wordChar s q)

/-- `gettoken`. -/
def gettoken (s : List UInt8) (ps : ℕ) : Token :=
  let q := skip (strchr whitespace) s ps
  let r := scan s q
  ⟨r.1, ⟨q, r.2⟩, skip (strchr whitespace) s r.2⟩

/-- `peek`, and `*ps` afterwards. -/
def peek (s : List UInt8) (ps : ℕ) (toks : List Char) : Bool × ℕ :=
  let q := skip (strchr whitespace) s ps
  (charAt s q ≠ 0 && strchr (toks.map ch) (charAt s q), q)

/-! ### The parse functions -/

/-- `parseredirs`. -/
def parseredirs (s : List UInt8) : ℕ → Cmd Slice → ℕ → Parse (Cmd Slice × ℕ)
  | 0, _, _ => none
  | n + 1, cmd, ps => do
    let (redirected, ps) := peek s ps ['<', '>']
    if redirected then
      let tok := gettoken s ps
      let file := gettoken s tok.ps
      if file.ret ≠ ch 'a' then
        throw .missingFile
      else
        let cmd :=
          if tok.ret = ch '<' then
            .redir cmd file.text O_RDONLY 0
          else if tok.ret = ch '>' then
            .redir cmd file.text (O_WRONLY ||| O_CREATE) 1
          else if tok.ret = ch '+' then -- >>
            .redir cmd file.text (O_WRONLY ||| O_CREATE) 1
          else
            cmd
        parseredirs s n cmd file.ps
    else
      return (cmd, ps)

/-- Store an argument. In `parseexec`, `cmd` points to the command that `ret` has around it. -/
def Cmd.addArg {α : Type} (w : α) : Cmd α → Cmd α
  | .exec argv => .exec (argv ++ [w])
  | .redir cmd file mode fd => .redir (cmd.addArg w) file mode fd
  | cmd => cmd

/-- The loop of `parseexec`. -/
def parseargs (s : List UInt8) : ℕ → ℕ → Cmd Slice → ℕ → Parse (Cmd Slice × ℕ)
  | 0, _, _, _ => none
  | n + 1, argc, ret, ps => do
    let (stop, ps) := peek s ps ['|', ')', '&', ';']
    if stop then
      return (ret, ps)
    else
      let tok := gettoken s ps
      if tok.ret = 0 then
        return (ret, tok.ps)
      else if tok.ret ≠ ch 'a' then
        throw .unexpected
      else if argc + 1 ≥ MAXARGS then
        throw .tooManyArgs
      else
        let (ret, ps) ← parseredirs s n (ret.addArg tok.text) tok.ps
        parseargs s n (argc + 1) ret ps

/-- The loop of `parseline`. -/
def parsebacks (s : List UInt8) : ℕ → Cmd Slice → ℕ → Parse (Cmd Slice × ℕ)
  | 0, _, _ => none
  | n + 1, cmd, ps => do
    let (back, ps) := peek s ps ['&']
    if back then
      parsebacks s n (.back cmd) (gettoken s ps).ps
    else
      return (cmd, ps)

mutual

/-- `parseline`. -/
def parseline (s : List UInt8) : ℕ → ℕ → Parse (Cmd Slice × ℕ)
  | 0, _ => none
  | n + 1, ps => do
    let (cmd, ps) ← parsepipe s n ps
    let (cmd, ps) ← parsebacks s n cmd ps
    let (more, ps) := peek s ps [';']
    if more then
      let (right, ps) ← parseline s n (gettoken s ps).ps
      return (.list cmd right, ps)
    else
      return (cmd, ps)
termination_by structural n => n

/-- `parsepipe`. -/
def parsepipe (s : List UInt8) : ℕ → ℕ → Parse (Cmd Slice × ℕ)
  | 0, _ => none
  | n + 1, ps => do
    let (cmd, ps) ← parseexec s n ps
    let (more, ps) := peek s ps ['|']
    if more then
      let (right, ps) ← parsepipe s n (gettoken s ps).ps
      return (.pipe cmd right, ps)
    else
      return (cmd, ps)
termination_by structural n => n

/-- `parseblock`. -/
def parseblock (s : List UInt8) : ℕ → ℕ → Parse (Cmd Slice × ℕ)
  | 0, _ => none
  | n + 1, ps => do
    let (opened, ps) := peek s ps ['(']
    if !opened then
      throw .parseblock
    else
      let (cmd, ps) ← parseline s n (gettoken s ps).ps
      let (closed, ps) := peek s ps [')']
      if !closed then
        throw .missingParen
      else
        parseredirs s n cmd (gettoken s ps).ps
termination_by structural n => n

/-- `parseexec`. -/
def parseexec (s : List UInt8) : ℕ → ℕ → Parse (Cmd Slice × ℕ)
  | 0, _ => none
  | n + 1, ps => do
    let (block, ps) := peek s ps ['(']
    if block then
      parseblock s n ps
    else
      let (ret, ps) ← parseredirs s n (.exec []) ps
      parseargs s n 0 ret ps
termination_by structural n => n

end

/-- `nulterminate`. The line is `buf`, with the NUL at its end. -/
def nulterminate (buf : List UInt8) : Cmd Slice → List UInt8
  | .exec argv => argv.foldl (fun buf w ↦ buf.set w.eq 0) buf
  | .redir cmd file _ _ => (nulterminate buf cmd).set file.eq 0
  | .pipe left right | .list left right => nulterminate (nulterminate buf left) right
  | .back cmd => nulterminate buf cmd

/-- `parsecmd`: the tree, and what has become of the line. -/
def parsecmd (s : List UInt8) (n : ℕ) : Parse (Cmd Slice × List UInt8) := do
  let (cmd, ps) ← parseline s n 0
  let (_, ps) := peek s ps []
  if ps ≠ s.length then
    throw (.leftovers (s.drop ps))
  else
    return (cmd, nulterminate (s ++ [0]) cmd)

/-- The string that a pointer into the line points to. -/
def cstring (buf : List UInt8) (w : Slice) : List UInt8 := (buf.drop w.q).takeWhile (· ≠ 0)

/-- The tree with its strings. -/
def Cmd.map {α β : Type} (f : α → β) : Cmd α → Cmd β
  | .exec argv => .exec (argv.map f)
  | .redir cmd file mode fd => .redir (cmd.map f) (f file) mode fd
  | .pipe left right => .pipe (left.map f) (right.map f)
  | .list left right => .list (left.map f) (right.map f)
  | .back cmd => .back (cmd.map f)

end Sh

end Xv6
