import SyscallSched.Shell.Model

/-!
# The grammar of command lines

    line   := pipe '&'* [';' line]
    pipe   := exec ['|' pipe]
    exec   := '(' line ')' redirs | redirs (word redirs)*
    redirs := (('<' | '>' | '>>') word)*

A derivation determines a command; redirections are put around it from left to right.
-/

namespace SyscallSched.Shell

open SyscallSched.Xv6

inductive Token where
  | word (w : List Char)
  | pipe
  | lparen
  | rparen
  | semi
  | amp
  | lt
  | gt
  | append
  deriving DecidableEq, Repr

/-- The token that the symbol is by itself. -/
def symbolToken : Char → Option Token
  | '|' => some .pipe
  | '(' => some .lparen
  | ')' => some .rparen
  | ';' => some .semi
  | '&' => some .amp
  | '<' => some .lt
  | '>' => some .gt
  | _ => none

/-- The tokens of a line.  Two `>` in a row are one token, and words are as long as
possible. -/
def lex : List Char → List Token
  | [] => []
  | c :: cs =>
      if c ∈ whitespace then lex cs
      else if c = '>' ∧ cs.head? = some '>' then .append :: lex cs.tail
      else match symbolToken c with
        | some t => t :: lex cs
        | none => .word (c :: cs.takeWhile isWordChar) :: lex (cs.dropWhile isWordChar)
termination_by line => line.length
decreasing_by
  all_goals simp only [List.length_cons, List.length_tail]
  · omega
  · omega
  · omega
  · exact Nat.lt_succ_of_le (List.dropWhile_sublist _).length_le

/-! ## Derivations -/

inductive RedirOp where
  | input
  | output
  | append
  deriving DecidableEq, Repr

def RedirOp.token : RedirOp → Token
  | .input => .lt
  | .output => .gt
  | .append => .append

def RedirOp.mode : RedirOp → Nat
  | .input => oRdonly
  | .output => oWronly ||| oCreate ||| oTrunc
  | .append => oWronly ||| oCreate

def RedirOp.fd : RedirOp → Nat
  | .input => 0
  | .output => 1
  | .append => 1

structure Redirection where
  op : RedirOp
  file : List Char

/-- `redirs` -/
def redirTokens (rs : List Redirection) : List Token :=
  rs.flatMap fun r => [r.op.token, .word r.file]

/-- A word of a command and the redirections up to the next one. -/
structure Arg where
  word : List Char
  redirs : List Redirection

/-- `(word redirs)*` -/
def argTokens (args : List Arg) : List Token :=
  args.flatMap fun a => .word a.word :: redirTokens a.redirs

def Cmd.wrap (cmd : Cmd (List Char)) (r : Redirection) : Cmd (List Char) :=
  .redir cmd r.file r.op.mode r.op.fd

/-- `cmd` with `n` times `&` after it. -/
def backs {α : Type} : Nat → Cmd α → Cmd α
  | 0, cmd => cmd
  | n + 1, cmd => backs n (.back cmd)

inductive Phrase where
  | line
  | pipe
  | exec
  deriving DecidableEq, Repr

inductive Derives : Phrase → List Token → Cmd (List Char) → Prop where
  | line {ts : List Token} {c : Cmd (List Char)} (n : Nat) (h : Derives .pipe ts c) :
      Derives .line (ts ++ List.replicate n .amp) (backs n c)
  | lines {ts us : List Token} {c d : Cmd (List Char)} (n : Nat) (h : Derives .pipe ts c)
      (h' : Derives .line us d) :
      Derives .line (ts ++ (List.replicate n .amp ++ .semi :: us)) (.list (backs n c) d)
  | pipe {ts : List Token} {c : Cmd (List Char)} (h : Derives .exec ts c) : Derives .pipe ts c
  | pipes {ts us : List Token} {c d : Cmd (List Char)} (h : Derives .exec ts c)
      (h' : Derives .pipe us d) : Derives .pipe (ts ++ .pipe :: us) (.pipe c d)
  | block {ts : List Token} {c : Cmd (List Char)} (rs : List Redirection)
      (h : Derives .line ts c) :
      Derives .exec (.lparen :: (ts ++ .rparen :: redirTokens rs)) (rs.foldl Cmd.wrap c)
  | words (rs : List Redirection) (args : List Arg) (h : args.length ≤ maxargs - 1) :
      Derives .exec (redirTokens rs ++ argTokens args)
        ((rs ++ args.flatMap Arg.redirs).foldl Cmd.wrap (.exec (args.map Arg.word)))

/-! ## Tokens at the cursor -/

def Token.kind : Token → Kind
  | .word _ => .word
  | .pipe => .pipe
  | .lparen => .lparen
  | .rparen => .rparen
  | .semi => .semi
  | .amp => .amp
  | .lt => .lt
  | .gt => .gt
  | .append => .append

def Token.symbol : Token → Option Char
  | .word _ => none
  | .pipe => some '|'
  | .lparen => some '('
  | .rparen => some ')'
  | .semi => some ';'
  | .amp => some '&'
  | .lt => some '<'
  | .gt => some '>'
  | .append => some '>'

def Starts (toks : List Char) (ts : List Token) : Prop :=
  ∃ t ∈ ts.head?, ∃ c ∈ t.symbol, c ∈ toks

structure Rest (line : List Char) (s : Nat) (ts : List Token) : Prop where
  le : s ≤ line.length
  tokens : lex (line.drop s) = ts

structure IsWord (line : List Char) (span : Span) (w : List Char) : Prop where
  le : span.eq ≤ line.length
  ne : w ≠ []
  drop : line.drop span.q = w ++ line.drop span.eq
  word : ∀ c ∈ w, isWordChar c = true
  ends : ∀ c ∈ (line.drop span.eq).head?, isWordChar c = false

section

variable {line cs : List Char} {c : Char} {s : Nat} {ts : List Token}

theorem redirTokens_cons (r : Redirection) (rs : List Redirection) :
    redirTokens (r :: rs) = r.op.token :: .word r.file :: redirTokens rs := rfl

theorem argTokens_cons (a : Arg) (args : List Arg) :
    argTokens (a :: args) = .word a.word :: (redirTokens a.redirs ++ argTokens args) := rfl

theorem lex_nil : lex [] = [] := by rw [lex]

theorem lex_blank (h : c ∈ whitespace) : lex (c :: cs) = lex cs := by
  rw [lex, if_pos h]

theorem lex_append : lex ('>' :: '>' :: cs) = .append :: lex cs := by
  rw [lex, if_neg (by decide), if_pos ⟨rfl, rfl⟩, List.tail_cons]

theorem lex_symbol {t : Token} (h : symbolToken c = some t) (hblank : c ∉ whitespace)
    (happend : c = '>' → cs.head? ≠ some '>') : lex (c :: cs) = t :: lex cs := by
  rw [lex, if_neg hblank, if_neg fun hgt => happend hgt.1 hgt.2, h]

theorem lex_word (h : symbolToken c = none) (hblank : c ∉ whitespace) : lex (c :: cs) =
    .word (c :: cs.takeWhile isWordChar) :: lex (cs.dropWhile isWordChar) := by
  have hgt : c ≠ '>' := by
    rintro rfl
    cases h
  rw [lex, if_neg hblank, if_neg fun happend => hgt happend.1, h]

theorem lex_dropWhile (l : List Char) : lex (l.dropWhile (· ∈ whitespace)) = lex l := by
  induction l with
  | nil => rfl
  | cons c cs ih =>
      by_cases hc : c ∈ whitespace
      · rw [List.dropWhile_cons_of_pos (by simpa using hc), ih, lex_blank hc]
      · rw [List.dropWhile_cons_of_neg (by simpa using hc)]

end

end SyscallSched.Shell
