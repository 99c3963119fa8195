import SyscallSched.Xv6.Files.Model

/-!
# The parser of the shell (`sh.c`)

The line lies in a buffer and is followed by a NUL; `s` is an offset into it and `es`
is the length of the line.  A `char *` of a command is an offset too.  The functions
that call themselves or loop take fuel, and the constructors do not run out of memory.
-/

namespace SyscallSched.Shell

open SyscallSched.Xv6

def maxargs : Nat := 10

inductive Stop where
  /-- `panic(s)` -/
  | panic (s : String)
  | outOfFuel
  deriving DecidableEq, Repr

/-- The state is `*ps`. -/
abbrev ParseM := StateT Nat (Except Stop)

/-! ## Commands -/

/-- `struct cmd`, with what it knows of each string. -/
inductive Cmd (α : Type) where
  | exec (argv : List α)
  | redir (cmd : Cmd α) (file : α) (mode fd : Nat)
  | pipe (left right : Cmd α)
  | list (left right : Cmd α)
  | back (cmd : Cmd α)
  deriving DecidableEq, Repr

structure Span where
  q : Nat
  eq : Nat
  deriving DecidableEq, Repr

/-- `cmd->argv[argc] = q; cmd->eargv[argc] = eq;` for the `execcmd` that the
redirections were put around. -/
def Cmd.addArg (arg : Span) : Cmd Span → Cmd Span
  | .exec argv => .exec (argv ++ [arg])
  | .redir cmd file mode fd => .redir (cmd.addArg arg) file mode fd
  | cmd => cmd

/-! ## Tokens -/

def whitespace : List Char := [' ', '\t', '\r', '\n', '\x0b']
def symbols : List Char := ['<', '|', '>', '&', ';', '(', ')']

inductive Kind where
  | eof
  | pipe
  | lparen
  | rparen
  | semi
  | amp
  | lt
  | gt
  /-- `'+'`, for `>>` -/
  | append
  /-- `'a'` -/
  | word
  deriving DecidableEq, Repr

/-- `*s` -/
def charAt (line : List Char) (s : Nat) : Char := line.getD s '\x00'

/-- `while(s < es && strchr(whitespace, *s)) s++;` -/
def skipBlanks (line : List Char) (s : Nat) : Nat :=
  s + ((line.drop s).takeWhile fun c => c ∈ whitespace).length

def isWordChar (c : Char) : Bool := c ∉ whitespace ∧ c ∉ symbols

/-- `while(s < es && !strchr(whitespace, *s) && !strchr(symbols, *s)) s++;` -/
def skipWord (line : List Char) (s : Nat) : Nat :=
  s + ((line.drop s).takeWhile isWordChar).length

/-- The `switch` of `gettoken` at `s`: what it returns and where the token ends. -/
def scan (line : List Char) (s : Nat) : Kind × Nat :=
  match charAt line s with
  | '\x00' => (.eof, s)
  | '|' => (.pipe, s + 1)
  | '(' => (.lparen, s + 1)
  | ')' => (.rparen, s + 1)
  | ';' => (.semi, s + 1)
  | '&' => (.amp, s + 1)
  | '<' => (.lt, s + 1)
  | '>' => if charAt line (s + 1) = '>' then (.append, s + 2) else (.gt, s + 1)
  | _ => (.word, skipWord line s)

def gettoken (line : List Char) : ParseM (Kind × Span) := do
  let s ← get
  let q := skipBlanks line s
  let (ret, eq) := scan line q
  set (skipBlanks line eq)
  pure (ret, ⟨q, eq⟩)

def peek (line : List Char) (toks : List Char) : ParseM Bool := do
  let s ← get
  let s := skipBlanks line s
  set s
  pure (charAt line s ≠ '\x00' ∧ charAt line s ∈ toks)

/-! ## Commands from tokens -/

/-- The loop of `parseline` over `&`. -/
def parsebacks (line : List Char) : Nat → Cmd Span → ParseM (Cmd Span)
  | 0, _ => throw .outOfFuel
  | fuel + 1, cmd => do
      if ← peek line ['&'] then do
        let _ ← gettoken line
        parsebacks line fuel (.back cmd)
      else
        pure cmd

/-- The `switch` of `parseredirs`. -/
def Cmd.redirected (cmd : Cmd Span) (tok : Kind) (file : Span) : Cmd Span :=
  match tok with
  | .lt => .redir cmd file oRdonly 0
  | .gt => .redir cmd file (oWronly ||| oCreate ||| oTrunc) 1
  | .append => .redir cmd file (oWronly ||| oCreate) 1
  | _ => cmd

def parseredirs (line : List Char) : Nat → Cmd Span → ParseM (Cmd Span)
  | 0, _ => throw .outOfFuel
  | fuel + 1, cmd => do
      if ← peek line ['<', '>'] then do
        let (tok, _) ← gettoken line
        let (ret, file) ← gettoken line
        if ret ≠ .word then
          throw (.panic "missing file for redirection")
        else
          parseredirs line fuel (cmd.redirected tok file)
      else
        pure cmd

def parseargs (line : List Char) : Nat → Nat → Cmd Span → ParseM (Cmd Span)
  | 0, _, _ => throw .outOfFuel
  | fuel + 1, argc, ret => do
      if ← peek line ['|', ')', '&', ';'] then
        pure ret
      else do
        let (tok, arg) ← gettoken line
        if tok = .eof then
          pure ret
        else if tok ≠ .word then
          throw (.panic "syntax")
        else if maxargs ≤ argc + 1 then
          throw (.panic "too many args")
        else do
          let ret ← parseredirs line fuel (ret.addArg arg)
          parseargs line fuel (argc + 1) ret

mutual

def parseline (line : List Char) : Nat → ParseM (Cmd Span)
  | 0 => throw .outOfFuel
  | fuel + 1 => do
      let cmd ← parsepipe line fuel
      let cmd ← parsebacks line fuel cmd
      if ← peek line [';'] then do
        let _ ← gettoken line
        let right ← parseline line fuel
        pure (.list cmd right)
      else
        pure cmd

def parsepipe (line : List Char) : Nat → ParseM (Cmd Span)
  | 0 => throw .outOfFuel
  | fuel + 1 => do
      let cmd ← parseexec line fuel
      if ← peek line ['|'] then do
        let _ ← gettoken line
        let right ← parsepipe line fuel
        pure (.pipe cmd right)
      else
        pure cmd

def parseblock (line : List Char) : Nat → ParseM (Cmd Span)
  | 0 => throw .outOfFuel
  | fuel + 1 => do
      if ← peek line ['('] then do
        let _ ← gettoken line
        let cmd ← parseline line fuel
        if ← peek line [')'] then do
          let _ ← gettoken line
          parseredirs line fuel cmd
        else
          throw (.panic "syntax - missing )")
      else
        throw (.panic "parseblock")

def parseexec (line : List Char) : Nat → ParseM (Cmd Span)
  | 0 => throw .outOfFuel
  | fuel + 1 => do
      if ← peek line ['('] then
        parseblock line fuel
      else do
        let ret ← parseredirs line fuel (.exec [])
        parseargs line fuel 0 ret

end

/-! ## Whole lines -/

/-- The buffer after `nulterminate`. -/
def nulterminate : Cmd Span → List Char → List Char
  | .exec argv, buf => argv.foldl (fun buf arg => buf.set arg.eq '\x00') buf
  | .redir cmd file _ _, buf => (nulterminate cmd buf).set file.eq '\x00'
  | .pipe left right, buf => nulterminate right (nulterminate left buf)
  | .list left right, buf => nulterminate right (nulterminate left buf)
  | .back cmd, buf => nulterminate cmd buf

/-- `parseline` and the check for leftovers. -/
def parseall (line : List Char) (fuel : Nat) : ParseM (Cmd Span) := do
  let cmd ← parseline line fuel
  let _ ← peek line []
  let s ← get
  if s ≠ line.length then
    throw (.panic "syntax")
  else
    pure cmd

/-- The command and the buffer that its strings lie in. -/
def parsecmd (fuel : Nat) (line : List Char) : Except Stop (Cmd Span × List Char) := do
  let (cmd, _) ← parseall line fuel 0
  pure (cmd, nulterminate cmd (line ++ ['\x00']))

def cstring (buf : List Char) (s : Nat) : List Char := (buf.drop s).takeWhile (· ≠ '\x00')

def Cmd.map {α β : Type} (f : α → β) : Cmd α → Cmd β
  | .exec argv => .exec (argv.map f)
  | .redir cmd file mode fd => .redir (cmd.map f) (f file) mode fd
  | .pipe left right => .pipe (left.map f) (right.map f)
  | .list left right => .list (left.map f) (right.map f)
  | .back cmd => .back (cmd.map f)

end SyscallSched.Shell
