import Xv6.Lib.Str

/-!
# The parser of the shell

The part of `sh.c` that turns a line into a command: `gettoken`, `peek`, and the functions for the
parts of a line, `parseline`, `parsepipe`, `parseexec`, `parseblock` and `parseredirs`.

The functions share a pointer into the line that only moves to the right, and they read the line from
there up to the byte zero behind it. So a pointer is the rest of the line (`Xv6.Lib.CStr`). A word of
the line is a pair of pointers, to its first byte and behind its last one (`Slice`).

The functions call each other, and nothing in them says that they end. They have a number of rounds
that they may take here. Memory for the commands is always there.
-/

namespace Xv6.Sh

open Lib

/-- A word: `[q, eq)`. -/
structure Slice where
  q : CStr
  eq : CStr
  deriving DecidableEq

/-- `struct cmd`, with words of any kind. -/
inductive Cmd (W : Type) where
  /-- `struct execcmd`, with `argv` and `eargv` up to the null pointer. -/
  | exec (argv : List W)
  /-- `struct redircmd` -/
  | redir (cmd : Cmd W) (file : W) (mode fd : ℕ)
  /-- `struct pipecmd` -/
  | pipe (left right : Cmd W)
  /-- `struct listcmd` -/
  | list (left right : Cmd W)
  /-- `struct backcmd` -/
  | back (cmd : Cmd W)
  deriving DecidableEq

/-- The command that is not finished yet gets another argument. It is the one that
the redirections so far have been put round. -/
def Cmd.push {W : Type} : Cmd W → W → Cmd W
  | .exec argv, w => .exec (argv ++ [w])
  | .redir cmd file mode fd, w => .redir (cmd.push w) file mode fd
  | cmd, _ => cmd

/-- `O_RDONLY` -/
def rdonly : ℕ := 0

/-- `O_WRONLY|O_CREATE` -/
def wronlyCreate : ℕ := 0x001 ||| 0x200

/-- `MAXARGS` -/
def maxargs : ℕ := 10

/-- `strchr`, as a test -/
def strchr (toks : List Char) (c : UInt8) : Bool := toks.any fun x => x.toUInt8 == c

/-- `whitespace` -/
def whitespace : List Char := [' ', '\t', '\r', '\n', '\x0b']

/-- `symbols` -/
def symbols : List Char := ['<', '|', '>', '&', ';', '(', ')']

/-- A byte of a word. -/
def isWord (c : UInt8) : Bool := !strchr whitespace c && !strchr symbols c

/-! ### Tokens -/

/-- What `gettoken` returns: the kind of the token, where it lies, and where the line goes on. -/
structure Tok where
  ret : UInt8
  word : Slice
  next : CStr

/-- **`gettoken`** -/
def gettoken (s : CStr) : Tok :=
  let q := s.skip (strchr whitespace)
  let r : UInt8 × CStr :=
    if q.head = 0 then (0, q)
    else if strchr ['|', '(', ')', ';', '&', '<'] q.head then (q.head, q.tail)
    else if q.head = '>'.toUInt8 then
      if q.tail.head = '>'.toUInt8 then ('+'.toUInt8, q.tail.tail) else (q.head, q.tail)
    else ('a'.toUInt8, q.skip isWord)
  ⟨r.1, ⟨q, r.2⟩, r.2.skip (strchr whitespace)⟩

/-- **`peek`**, with the pointer moved. -/
def peek (s : CStr) (toks : List Char) : CStr × Bool :=
  let s := s.skip (strchr whitespace)
  (s, s.head ≠ 0 ∧ strchr toks s.head)

/-! ### Commands -/

/-- The parser may stop with a message, or it may not have enough rounds. -/
inductive Fail where
  | panic (msg : String)
  | rounds
  deriving DecidableEq

/-- A command and where the line goes on. -/
abbrev Parsed := Except Fail (Cmd Slice × CStr)

/-- `redircmd` for the token `tok`. -/
def redirect (cmd : Cmd Slice) (tok : UInt8) (w : Slice) : Cmd Slice :=
  if tok = '<'.toUInt8 then .redir cmd w rdonly 0
  else if tok = '>'.toUInt8 then .redir cmd w wronlyCreate 1
  else if tok = '+'.toUInt8 then .redir cmd w wronlyCreate 1
  else cmd

/-- **`parseredirs`** -/
def parseredirs : (fuel : ℕ) → Cmd Slice → CStr → Parsed
  | 0, _, _ => .error .rounds
  | fuel + 1, cmd, s =>
    let (s, more) := peek s ['<', '>']
    if more then
      let tok := gettoken s
      let file := gettoken tok.next
      if file.ret ≠ 'a'.toUInt8 then .error (.panic "missing file for redirection")
      else parseredirs fuel (redirect cmd tok.ret file.word) file.next
    else .ok (cmd, s)

/-- The loop of `parseexec`. -/
def parseargs : (fuel : ℕ) → (ret : Cmd Slice) → (argc : ℕ) → CStr → Parsed
  | 0, _, _, _ => .error .rounds
  | fuel + 1, ret, argc, s =>
    let (s, stop) := peek s ['|', ')', '&', ';']
    if stop then .ok (ret, s)
    else
      let tok := gettoken s
      if tok.ret = 0 then .ok (ret, tok.next)
      else if tok.ret ≠ 'a'.toUInt8 then .error (.panic "syntax")
      else if argc + 1 ≥ maxargs then .error (.panic "too many args")
      else (parseredirs fuel (ret.push tok.word) tok.next).bind fun x =>
        parseargs fuel x.1 (argc + 1) x.2

/-- The loop of `parseline`. -/
def parsebacks : (fuel : ℕ) → Cmd Slice → CStr → Parsed
  | 0, _, _ => .error .rounds
  | fuel + 1, cmd, s =>
    let (s, more) := peek s ['&']
    if more then parsebacks fuel (.back cmd) (gettoken s).next else .ok (cmd, s)

mutual

/-- **`parseline`** -/
def parseline : (fuel : ℕ) → CStr → Parsed
  | 0, _ => .error .rounds
  | fuel + 1, s =>
    (parsepipe fuel s).bind fun x =>
      (parsebacks fuel x.1 x.2).bind fun x =>
        let (s, more) := peek x.2 [';']
        if more then
          (parseline fuel (gettoken s).next).bind fun y => .ok (.list x.1 y.1, y.2)
        else .ok (x.1, s)

/-- **`parsepipe`** -/
def parsepipe : (fuel : ℕ) → CStr → Parsed
  | 0, _ => .error .rounds
  | fuel + 1, s =>
    (parseexec fuel s).bind fun x =>
      let (s, more) := peek x.2 ['|']
      if more then
        (parsepipe fuel (gettoken s).next).bind fun y => .ok (.pipe x.1 y.1, y.2)
      else .ok (x.1, s)

/-- **`parseexec`** -/
def parseexec : (fuel : ℕ) → CStr → Parsed
  | 0, _ => .error .rounds
  | fuel + 1, s =>
    let (s, block) := peek s ['(']
    if block then parseblock fuel s
    else (parseredirs fuel (.exec []) s).bind fun x => parseargs fuel x.1 0 x.2

/-- **`parseblock`** -/
def parseblock : (fuel : ℕ) → CStr → Parsed
  | 0, _ => .error .rounds
  | fuel + 1, s =>
    let (s, block) := peek s ['(']
    if block then
      (parseline fuel (gettoken s).next).bind fun x =>
        let (s, close) := peek x.2 [')']
        if close then parseredirs fuel x.1 (gettoken s).next
        else .error (.panic "syntax - missing )")
    else .error (.panic "parseblock")

end

/-- **`parsecmd`**, before `nulterminate`. -/
def parsecmd (fuel : ℕ) (s : CStr) : Except Fail (Cmd Slice) :=
  (parseline fuel s).bind fun x =>
    let (s, _) := peek x.2 []
    if s.chars ≠ [] then .error (.panic "syntax") else .ok x.1

end Xv6.Sh
