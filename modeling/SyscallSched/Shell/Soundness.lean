import SyscallSched.Shell.Lexer

/-!
# What the parser accepts

Each parsing function, started on tokens `ts` with enough fuel, takes some first part
of `ts` that derives from its phrase and returns the command of that derivation, or it
stops with one of the syntax panics.
-/

namespace SyscallSched.Shell

open SyscallSched.Foundation

/-! ## Commands and their words -/

/-- The command in the line is the command `tree`. -/
inductive Reads (line : List Char) : Cmd Span → Cmd (List Char) → Prop where
  | exec {argv : List Span} {words : List (List Char)}
      (h : List.Forall₂ (IsWord line) argv words) : Reads line (.exec argv) (.exec words)
  | redir {cmd : Cmd Span} {tree : Cmd (List Char)} {file : Span} {w : List Char}
      {mode fd : Nat} (h : Reads line cmd tree) (hfile : IsWord line file w) :
      Reads line (.redir cmd file mode fd) (.redir tree w mode fd)
  | pipe {left right : Cmd Span} {tree tree' : Cmd (List Char)} (h : Reads line left tree)
      (h' : Reads line right tree') : Reads line (.pipe left right) (.pipe tree tree')
  | list {left right : Cmd Span} {tree tree' : Cmd (List Char)} (h : Reads line left tree)
      (h' : Reads line right tree') : Reads line (.list left right) (.list tree tree')
  | back {cmd : Cmd Span} {tree : Cmd (List Char)} (h : Reads line cmd tree) :
      Reads line (.back cmd) (.back tree)

def syntaxPanics : List String :=
  ["syntax", "missing file for redirection", "syntax - missing )", "too many args"]

def SyntaxStop (e : Stop) : Prop := ∃ m ∈ syntaxPanics, e = .panic m

section

variable {line : List Char} {s : Nat} {ts : List Token} {cmd : Cmd Span}
  {tree : Cmd (List Char)}

theorem Reads.addArg {rs : List Redirection} {ws : List (List Char)} {arg : Span}
    {w : List Char} (h : Reads line cmd (rs.foldl Cmd.wrap (.exec ws)))
    (hw : IsWord line arg w) :
    Reads line (cmd.addArg arg) (rs.foldl Cmd.wrap (.exec (ws ++ [w]))) := by
  induction rs using List.reverseRecOn generalizing cmd with
  | nil =>
      cases h with
      | exec h => exact .exec (List.rel_append h (List.Forall₂.cons hw List.Forall₂.nil))
  | append_singleton rs r ih =>
      rw [List.foldl_append] at h ⊢
      rw [List.foldl_cons, List.foldl_nil, Cmd.wrap] at h
      cases h with
      | redir h hfile => exact (ih h).redir hfile

/-! ## Loops -/

/-- What a loop of the parser does: it takes the tokens `used` and builds on `cmd`. -/
structure Took (line : List Char) (ts used rest : List Token) (s' : Nat) (cmd : Cmd Span)
    (tree : Cmd (List Char)) : Prop where
  split : ts = used ++ rest
  rest : Rest line s' rest
  reads : Reads line cmd tree

theorem Starts.exists_cons {toks : List Char} (h : Starts toks ts) :
    ∃ t rest c, ts = t :: rest ∧ t.symbol = some c ∧ c ∈ toks := by
  obtain ⟨t, ht, c, hc, hmem⟩ := h
  obtain ⟨rest, rfl⟩ := List.head?_eq_some_iff.mp ht
  exact ⟨t, rest, c, rfl, hc, hmem⟩

theorem Starts.single {c : Char} {t : Token} (h : Starts [c] ts)
    (ht : ∀ t', t'.symbol = some c → t' = t) : ∃ rest, ts = t :: rest := by
  obtain ⟨t', rest, d, rfl, hd, hmem⟩ := h.exists_cons
  rw [List.mem_singleton] at hmem
  subst hmem
  rw [ht t' hd]
  exact ⟨rest, rfl⟩

theorem symbol_amp {t : Token} (h : t.symbol = some '&') : t = .amp := by
  cases t <;> first | rfl | cases h

theorem symbol_semi {t : Token} (h : t.symbol = some ';') : t = .semi := by
  cases t <;> first | rfl | cases h

theorem symbol_pipe {t : Token} (h : t.symbol = some '|') : t = .pipe := by
  cases t <;> first | rfl | cases h

theorem symbol_lparen {t : Token} (h : t.symbol = some '(') : t = .lparen := by
  cases t <;> first | rfl | cases h

theorem symbol_rparen {t : Token} (h : t.symbol = some ')') : t = .rparen := by
  cases t <;> first | rfl | cases h

theorem Starts.redir (h : Starts ['<', '>'] ts) :
    ∃ (op : RedirOp) (rest : List Token), ts = op.token :: rest := by
  obtain ⟨t, rest, c, rfl, hc, hmem⟩ := h.exists_cons
  have hop : ∃ op : RedirOp, t = op.token := by
    cases t with
    | lt => exact ⟨.input, rfl⟩
    | gt => exact ⟨.output, rfl⟩
    | append => exact ⟨.append, rfl⟩
    | word w => cases hc
    | _ =>
        cases hc
        simp at hmem
  obtain ⟨op, rfl⟩ := hop
  exact ⟨op, rest, rfl⟩

theorem parsebacks_sound {fuel : Nat} (hnul : '\x00' ∉ line) (h : Rest line s ts)
    (hreads : Reads line cmd tree) (hfuel : ts.length < fuel) :
    Ensures SyntaxStop (parsebacks line fuel cmd) s fun cmd' s' =>
      ∃ n rest, Took line ts (List.replicate n .amp) rest s' cmd' (backs n tree) := by
  induction fuel generalizing s ts cmd tree with
  | zero => exact absurd hfuel (Nat.not_lt_zero _)
  | succ fuel ih =>
      rw [parsebacks]
      by_cases hstarts : Starts ['&'] ts
      · obtain ⟨rest, rfl⟩ := hstarts.single fun _ => symbol_amp
        obtain ⟨s₁, hpeek, h₁⟩ := peek_true hnul (by decide) h hstarts
        obtain ⟨span, s₂, htoken, h₂, -⟩ := gettoken_cons hnul h₁
        have hback := Reads.back hreads
        apply Ensures.bind_eq hpeek
        apply Ensures.bind_eq htoken
        apply (ih h₂ hback (Nat.lt_of_succ_lt_succ hfuel)).imp
        rintro cmd' s' ⟨n, rest', htook⟩
        refine ⟨n + 1, rest', ?_, htook.rest, htook.reads⟩
        rw [htook.split, List.replicate_succ, List.cons_append]
      · obtain ⟨s₁, hpeek, h₁⟩ := peek_false hnul (by decide) h hstarts
        apply Ensures.bind_eq hpeek
        exact Ensures.pure ⟨0, ts, rfl, h₁, hreads⟩

theorem panics {α : Type} {Q : α → Nat → Prop} {m : String} (h : m ∈ syntaxPanics) :
    Ensures SyntaxStop (throw (.panic m) : ParseM α) s Q :=
  Ensures.of_error rfl ⟨m, h, rfl⟩

theorem gettoken_any (hnul : '\x00' ∉ line) (h : Rest line s ts) :
    ∃ kind span s', gettoken line s = .ok ((kind, span), s') ∧
      ((ts = [] ∧ kind = .eof ∧ Rest line s' []) ∨
        ∃ t rest, ts = t :: rest ∧ kind = t.kind ∧ Rest line s' rest ∧
          ∀ w, t = .word w → IsWord line span w) := by
  cases ts with
  | nil =>
      obtain ⟨span, s', hrun, hrest⟩ := gettoken_eof hnul h
      exact ⟨.eof, span, s', hrun, Or.inl ⟨rfl, rfl, hrest⟩⟩
  | cons t rest =>
      obtain ⟨span, s', hrun, hrest, hword⟩ := gettoken_cons hnul h
      exact ⟨t.kind, span, s', hrun, Or.inr ⟨t, rest, rfl, rfl, hrest, hword⟩⟩

theorem kind_eq_word {t : Token} (h : t.kind = .word) : ∃ w, t = .word w := by
  cases t with
  | word w => exact ⟨w, rfl⟩
  | _ => cases h

theorem redirected_op (cmd : Cmd Span) (op : RedirOp) (file : Span) :
    cmd.redirected op.token.kind file = .redir cmd file op.mode op.fd := by
  cases op <;> rfl

theorem parseredirs_sound {fuel : Nat} (hnul : '\x00' ∉ line) (h : Rest line s ts)
    (hreads : Reads line cmd tree) (hfuel : ts.length < fuel) :
    Ensures SyntaxStop (parseredirs line fuel cmd) s fun cmd' s' =>
      ∃ rs rest, Took line ts (redirTokens rs) rest s' cmd' (rs.foldl Cmd.wrap tree) := by
  induction fuel generalizing s ts cmd tree with
  | zero => exact absurd hfuel (Nat.not_lt_zero _)
  | succ fuel ih =>
      rw [parseredirs]
      by_cases hstarts : Starts ['<', '>'] ts
      · obtain ⟨op, rest, rfl⟩ := hstarts.redir
        obtain ⟨s₁, hpeek, h₁⟩ := peek_true hnul (by decide) h hstarts
        obtain ⟨span, s₂, htoken, h₂, -⟩ := gettoken_cons hnul h₁
        obtain ⟨kind, file, s₃, hfile, hnext⟩ := gettoken_any hnul h₂
        apply Ensures.bind_eq hpeek
        apply Ensures.bind_eq htoken
        apply Ensures.bind_eq hfile
        dsimp only
        by_cases hword : kind = .word
        · rw [if_neg (not_not_intro hword), redirected_op]
          rcases hnext with ⟨-, rfl, -⟩ | ⟨t, rest, rfl, rfl, h₃, hspan⟩
          · cases hword
          · obtain ⟨w, rfl⟩ := kind_eq_word hword
            have hwrap : Reads line (.redir cmd file op.mode op.fd) (tree.wrap ⟨op, w⟩) :=
              hreads.redir (hspan w rfl)
            have hless : rest.length < fuel := by
              simp only [List.length_cons] at hfuel
              omega
            apply (ih h₃ hwrap hless).imp
            rintro cmd' s' ⟨rs, rest', htook⟩
            refine ⟨⟨op, w⟩ :: rs, rest', ?_, htook.rest, htook.reads⟩
            rw [htook.split, redirTokens_cons, List.cons_append, List.cons_append]
        · rw [if_pos hword]
          exact panics (by decide)
      · obtain ⟨s₁, hpeek, h₁⟩ := peek_false hnul (by decide) h hstarts
        apply Ensures.bind_eq hpeek
        exact Ensures.pure ⟨[], ts, rfl, h₁, hreads⟩

theorem parseargs_sound {fuel : Nat} {rs : List Redirection} {ws : List (List Char)}
    (hnul : '\x00' ∉ line) (h : Rest line s ts)
    (hreads : Reads line cmd (rs.foldl Cmd.wrap (.exec ws))) (hws : ws.length ≤ maxargs - 1)
    (hfuel : ts.length < fuel) :
    Ensures SyntaxStop (parseargs line fuel ws.length cmd) s fun cmd' s' =>
      ∃ args rest, ws.length + args.length ≤ maxargs - 1 ∧
        Took line ts (argTokens args) rest s' cmd' ((rs ++ args.flatMap Arg.redirs).foldl
          Cmd.wrap (.exec (ws ++ args.map Arg.word))) := by
  induction fuel generalizing s ts cmd rs ws with
  | zero => exact absurd hfuel (Nat.not_lt_zero _)
  | succ fuel ih =>
      have hnone : ∀ s', Rest line s' ts → ∃ args rest, ws.length + args.length ≤ maxargs - 1 ∧
          Took line ts (argTokens args) rest s' cmd ((rs ++ args.flatMap Arg.redirs).foldl
            Cmd.wrap (.exec (ws ++ args.map Arg.word))) := by
        intro s' h'
        refine ⟨[], ts, hws, rfl, h', ?_⟩
        simpa using hreads
      rw [parseargs]
      by_cases hstarts : Starts ['|', ')', '&', ';'] ts
      · obtain ⟨s₁, hpeek, h₁⟩ := peek_true hnul (by decide) h hstarts
        apply Ensures.bind_eq hpeek
        exact Ensures.pure (hnone s₁ h₁)
      · obtain ⟨s₁, hpeek, h₁⟩ := peek_false hnul (by decide) h hstarts
        obtain ⟨kind, arg, s₂, htoken, hnext⟩ := gettoken_any hnul h₁
        apply Ensures.bind_eq hpeek
        apply Ensures.bind_eq htoken
        dsimp only
        rcases hnext with ⟨rfl, rfl, h₂⟩ | ⟨t, rest, rfl, rfl, h₂, hspan⟩
        · rw [if_pos rfl]
          exact Ensures.pure (hnone s₂ h₂)
        · have hsome : t.kind ≠ .eof := by
            cases t <;> exact nofun
          rw [if_neg hsome]
          by_cases hword : t.kind = .word
          · rw [if_neg (not_not_intro hword)]
            obtain ⟨w, rfl⟩ := kind_eq_word hword
            by_cases hmany : maxargs ≤ ws.length + 1
            · rw [if_pos hmany]
              exact panics (by decide)
            · rw [if_neg hmany]
              have hless : rest.length < fuel := Nat.lt_of_succ_lt_succ hfuel
              apply Ensures.bind (parseredirs_sound hnul h₂ (hreads.addArg (hspan w rfl)) hless)
              rintro cmd' s₃ ⟨rs', rest', htook⟩
              have hreads' := htook.reads
              rw [← List.foldl_append] at hreads'
              have hless' : rest'.length < fuel := by
                rw [htook.split, List.length_append] at hless
                omega
              have hws' : (ws ++ [w]).length ≤ maxargs - 1 := by
                rw [List.length_append, List.length_singleton]
                omega
              have hloop := ih htook.rest hreads' hws' hless'
              rw [List.length_append, List.length_singleton] at hloop
              apply hloop.imp
              rintro cmd'' s' ⟨args, rest'', hlen, htook'⟩
              refine ⟨⟨w, rs'⟩ :: args, rest'', ?_, ?_, htook'.rest, ?_⟩
              · rw [List.length_cons]
                omega
              · rw [htook.split, htook'.split, argTokens_cons, List.cons_append,
                  List.append_assoc]
              · have hread := htook'.reads
                simpa using hread
          · rw [if_pos hword]
            exact panics (by decide)

/-! ## The parsing functions -/

def Phrase.fuel : Phrase → Nat → Nat
  | .line, n => 4 * n + 4
  | .pipe, n => 4 * n + 3
  | .exec, n => 4 * n + 2

def parse (line : List Char) : Phrase → Nat → ParseM (Cmd Span)
  | .line => parseline line
  | .pipe => parsepipe line
  | .exec => parseexec line

def Parsed (line : List Char) (phrase : Phrase) (ts : List Token) (cmd : Cmd Span)
    (s' : Nat) : Prop :=
  ∃ used rest tree, Took line ts used rest s' cmd tree ∧ Derives phrase used tree

theorem Took.length_le {used rest : List Token} {s' : Nat}
    (h : Took line ts used rest s' cmd tree) :
    rest.length ≤ ts.length := by
  rw [h.split, List.length_append]
  omega

theorem parseblock_sound {fuel : Nat} {rest : List Token} (hnul : '\x00' ∉ line)
    (h : Rest line s (.lparen :: rest)) (hfuel : rest.length < fuel)
    (hline : ∀ s, Rest line s rest →
      Ensures SyntaxStop (parseline line fuel) s (Parsed line .line rest)) :
    Ensures SyntaxStop (parseblock line (fuel + 1)) s
      (Parsed line .exec (.lparen :: rest)) := by
  have hstarts : Starts ['('] (.lparen :: rest) := ⟨.lparen, rfl, '(', rfl, by decide⟩
  obtain ⟨s₁, hpeek, h₁⟩ := peek_true hnul (by decide) h hstarts
  obtain ⟨span, s₂, htoken, h₂, -⟩ := gettoken_cons hnul h₁
  rw [parseblock]
  apply Ensures.bind_eq hpeek
  apply Ensures.bind_eq htoken
  apply Ensures.bind (hline s₂ h₂)
  rintro cmd s₃ ⟨used, rest₁, tree, htook, hderives⟩
  have hless : rest₁.length < fuel := htook.length_le.trans_lt hfuel
  by_cases hclose : Starts [')'] rest₁
  · obtain ⟨rest₂, rfl⟩ := hclose.single fun _ => symbol_rparen
    obtain ⟨s₄, hpeek', h₄⟩ := peek_true hnul (by decide) htook.rest hclose
    obtain ⟨span', s₅, htoken', h₅, -⟩ := gettoken_cons hnul h₄
    apply Ensures.bind_eq hpeek'
    apply Ensures.bind_eq htoken'
    apply (parseredirs_sound hnul h₅ htook.reads (Nat.lt_of_succ_lt hless)).imp
    rintro cmd' s' ⟨rs, rest₃, htook'⟩
    refine ⟨_, rest₃, _, ⟨?_, htook'.rest, htook'.reads⟩, Derives.block rs hderives⟩
    rw [htook.split, htook'.split]
    simp
  · obtain ⟨s₄, hpeek', h₄⟩ := peek_false hnul (by decide) htook.rest hclose
    apply Ensures.bind_eq hpeek'
    exact panics (by decide)

theorem parseexec_sound {fuel : Nat} (hnul : '\x00' ∉ line) (h : Rest line s ts)
    (hfuel : ts.length < fuel)
    (hblock : ∀ s rest, ts = .lparen :: rest → Rest line s ts →
      Ensures SyntaxStop (parseblock line fuel) s (Parsed line .exec ts)) :
    Ensures SyntaxStop (parseexec line (fuel + 1)) s (Parsed line .exec ts) := by
  rw [parseexec]
  by_cases hopen : Starts ['('] ts
  · obtain ⟨rest, hts⟩ := hopen.single fun _ => symbol_lparen
    obtain ⟨s₁, hpeek, h₁⟩ := peek_true hnul (by decide) h hopen
    apply Ensures.bind_eq hpeek
    exact hblock s₁ rest hts h₁
  · obtain ⟨s₁, hpeek, h₁⟩ := peek_false hnul (by decide) h hopen
    have hempty : Reads line (.exec []) (.exec []) := .exec List.Forall₂.nil
    apply Ensures.bind_eq hpeek
    apply Ensures.bind (parseredirs_sound hnul h₁ hempty hfuel)
    rintro cmd s₂ ⟨rs, rest, htook⟩
    have hless : rest.length < fuel := htook.length_le.trans_lt hfuel
    have hfew : ([] : List (List Char)).length ≤ maxargs - 1 := Nat.zero_le _
    apply (parseargs_sound hnul htook.rest htook.reads hfew hless).imp
    rintro cmd' s' ⟨args, rest', hlen, htook'⟩
    have hmax : args.length ≤ maxargs - 1 := by simpa using hlen
    refine ⟨_, rest', _, ⟨?_, htook'.rest, htook'.reads⟩, Derives.words rs args hmax⟩
    rw [htook.split, htook'.split, List.append_assoc]

theorem parsepipe_sound {fuel : Nat} (hnul : '\x00' ∉ line)
    (hexec : Ensures SyntaxStop (parseexec line fuel) s (Parsed line .exec ts))
    (hpipe : ∀ s rest, rest.length < ts.length → Rest line s rest →
      Ensures SyntaxStop (parsepipe line fuel) s (Parsed line .pipe rest)) :
    Ensures SyntaxStop (parsepipe line (fuel + 1)) s (Parsed line .pipe ts) := by
  rw [parsepipe]
  apply Ensures.bind hexec
  rintro cmd s₁ ⟨used, rest, tree, htook, hderives⟩
  by_cases hbar : Starts ['|'] rest
  · obtain ⟨rest₁, rfl⟩ := hbar.single fun _ => symbol_pipe
    obtain ⟨s₂, hpeek, h₂⟩ := peek_true hnul (by decide) htook.rest hbar
    obtain ⟨span, s₃, htoken, h₃, -⟩ := gettoken_cons hnul h₂
    have hless : rest₁.length < ts.length := htook.length_le
    apply Ensures.bind_eq hpeek
    apply Ensures.bind_eq htoken
    apply Ensures.bind (hpipe s₃ rest₁ hless h₃)
    rintro right s' ⟨used', rest₂, tree', htook', hderives'⟩
    have hboth := htook.reads.pipe htook'.reads
    apply Ensures.pure
    refine ⟨_, rest₂, _, ⟨?_, htook'.rest, hboth⟩, Derives.pipes hderives hderives'⟩
    rw [htook.split, htook'.split]
    simp
  · obtain ⟨s₂, hpeek, h₂⟩ := peek_false hnul (by decide) htook.rest hbar
    apply Ensures.bind_eq hpeek
    exact Ensures.pure ⟨used, rest, tree, ⟨htook.split, h₂, htook.reads⟩, Derives.pipe hderives⟩

theorem parseline_sound {fuel : Nat} (hnul : '\x00' ∉ line) (hfuel : ts.length < fuel)
    (hpipe : Ensures SyntaxStop (parsepipe line fuel) s (Parsed line .pipe ts))
    (hline : ∀ s rest, rest.length < ts.length → Rest line s rest →
      Ensures SyntaxStop (parseline line fuel) s (Parsed line .line rest)) :
    Ensures SyntaxStop (parseline line (fuel + 1)) s (Parsed line .line ts) := by
  rw [parseline]
  apply Ensures.bind hpipe
  rintro cmd s₁ ⟨used, rest, tree, htook, hderives⟩
  have hless : rest.length < fuel := htook.length_le.trans_lt hfuel
  apply Ensures.bind (parsebacks_sound hnul htook.rest htook.reads hless)
  rintro cmd' s₂ ⟨n, rest₁, htook₁⟩
  by_cases hsemi : Starts [';'] rest₁
  · obtain ⟨rest₂, rfl⟩ := hsemi.single fun _ => symbol_semi
    obtain ⟨s₃, hpeek, h₃⟩ := peek_true hnul (by decide) htook₁.rest hsemi
    obtain ⟨span, s₄, htoken, h₄, -⟩ := gettoken_cons hnul h₃
    have hless' : rest₂.length < ts.length := htook₁.length_le.trans htook.length_le
    apply Ensures.bind_eq hpeek
    apply Ensures.bind_eq htoken
    apply Ensures.bind (hline s₄ rest₂ hless' h₄)
    rintro right s' ⟨used', rest₃, tree', htook', hderives'⟩
    have hboth := htook₁.reads.list htook'.reads
    apply Ensures.pure
    refine ⟨_, rest₃, _, ⟨?_, htook'.rest, hboth⟩, Derives.lines n hderives hderives'⟩
    rw [htook.split, htook₁.split, htook'.split]
    simp
  · obtain ⟨s₃, hpeek, h₃⟩ := peek_false hnul (by decide) htook₁.rest hsemi
    apply Ensures.bind_eq hpeek
    apply Ensures.pure
    refine ⟨_, rest₁, _, ⟨?_, h₃, htook₁.reads⟩, Derives.line n hderives⟩
    rw [htook.split, htook₁.split, List.append_assoc]

/-- The induction is on the fuel, which every call gets less of. -/
theorem parse_sound (hnul : '\x00' ∉ line) (fuel : Nat) : ∀ (phrase : Phrase) (s : Nat)
    (ts : List Token), Rest line s ts → phrase.fuel ts.length ≤ fuel →
      Ensures SyntaxStop (parse line phrase fuel) s (Parsed line phrase ts) := by
  induction fuel using Nat.strong_induction_on with
  | h fuel ih =>
      intro phrase s ts h hfuel
      cases phrase with
      | line =>
          change 4 * ts.length + 4 ≤ fuel at hfuel
          obtain ⟨n, rfl⟩ : ∃ n, fuel = n + 1 := ⟨fuel - 1, by omega⟩
          apply parseline_sound hnul (by omega)
          · exact ih n (Nat.lt_succ_self n) .pipe s ts h (Nat.le_of_succ_le_succ hfuel)
          · intro s rest hless hrest
            apply ih n (Nat.lt_succ_self n) .line s rest hrest
            change 4 * rest.length + 4 ≤ n
            omega
      | pipe =>
          change 4 * ts.length + 3 ≤ fuel at hfuel
          obtain ⟨n, rfl⟩ : ∃ n, fuel = n + 1 := ⟨fuel - 1, by omega⟩
          apply parsepipe_sound hnul
          · exact ih n (Nat.lt_succ_self n) .exec s ts h (Nat.le_of_succ_le_succ hfuel)
          · intro s rest hless hrest
            apply ih n (Nat.lt_succ_self n) .pipe s rest hrest
            change 4 * rest.length + 3 ≤ n
            omega
      | exec =>
          change 4 * ts.length + 2 ≤ fuel at hfuel
          obtain ⟨n, rfl⟩ : ∃ n, fuel = n + 2 := ⟨fuel - 2, by omega⟩
          apply parseexec_sound hnul h (by omega)
          rintro s rest rfl hrest
          rw [List.length_cons] at hfuel
          apply parseblock_sound hnul hrest (by omega)
          intro s' hrest'
          apply ih n (by omega) .line s' rest hrest'
          change 4 * rest.length + 4 ≤ n
          omega

end

end SyscallSched.Shell
