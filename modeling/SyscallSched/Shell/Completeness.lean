import SyscallSched.Shell.Soundness

/-!
# What derives is accepted

A phrase that is followed by a token that can follow it is taken as a whole, and the
command of its derivation is returned.
-/

namespace SyscallSched.Shell

open SyscallSched.Foundation

/-- The line ends here, or the next token starts with one of `toks`. -/
def Ends (toks : List Char) (rest : List Token) : Prop := rest = [] ∨ Starts toks rest

def Phrase.follow : Phrase → List Char
  | .line => [')']
  | .pipe => [')', '&', ';']
  | .exec => [')', '&', ';', '|']

section

variable {line : List Char} {s fuel : Nat} {ts rest : List Token} {cmd : Cmd Span}
  {tree : Cmd (List Char)} {toks toks' : List Char}

/-! ## Lookahead -/

theorem not_starts_nil : ¬ Starts toks [] := by
  rintro ⟨t, ht, -⟩
  cases ht

theorem not_starts_word {w : List Char} : ¬ Starts toks (.word w :: ts) := by
  rintro ⟨t, ht, c, hc, -⟩
  injection ht with ht
  subst ht
  cases hc

theorem starts_cons {t : Token} {c : Char} (ht : t.symbol = some c) :
    Starts toks (t :: ts) ↔ c ∈ toks := by
  simp [Starts, ht]

theorem Ends.not_starts (h : Ends toks rest) (hdisjoint : ∀ c ∈ toks', c ∉ toks) :
    ¬ Starts toks' rest := by
  cases h with
  | inl hnil =>
      rw [hnil]
      exact not_starts_nil
  | inr hstarts =>
      obtain ⟨t, rest, c, rfl, hc, hmem⟩ := hstarts.exists_cons
      rw [starts_cons hc]
      exact fun hmem' => hdisjoint c hmem' hmem

theorem Starts.mono (h : Starts toks ts) (hsub : toks ⊆ toks') : Starts toks' ts := by
  obtain ⟨t, ht, c, hc, hmem⟩ := h
  exact ⟨t, ht, c, hc, hsub hmem⟩

theorem Ends.mono (h : Ends toks rest) (hsub : toks ⊆ toks') : Ends toks' rest := by
  cases h with
  | inl hnil => exact Or.inl hnil
  | inr hstarts => exact Or.inr (hstarts.mono hsub)

theorem not_starts_args {args : List Arg} (h : ¬ Starts toks rest) :
    ¬ Starts toks (argTokens args ++ rest) := by
  cases args with
  | nil => exact h
  | cons a args => exact not_starts_word

theorem not_starts_redirs {rs : List Redirection} (h : ¬ Starts toks rest)
    (htoks : ∀ c ∈ toks, c ∉ ['<', '>']) : ¬ Starts toks (redirTokens rs ++ rest) := by
  cases rs with
  | nil => exact h
  | cons r rs =>
      have hop : ∃ c ∈ ['<', '>'], r.op.token.symbol = some c := by
        cases r.op with
        | input => exact ⟨'<', by decide, rfl⟩
        | output => exact ⟨'>', by decide, rfl⟩
        | append => exact ⟨'>', by decide, rfl⟩
      obtain ⟨c, hc, hsymbol⟩ := hop
      rw [redirTokens_cons, List.cons_append, starts_cons hsymbol]
      exact fun hmem => htoks c hmem hc

/-! ## Loops -/

def Reaches (line : List Char) (rest : List Token) (tree : Cmd (List Char)) (cmd : Cmd Span)
    (s' : Nat) : Prop :=
  Rest line s' rest ∧ Reads line cmd tree

theorem parsebacks_complete {n : Nat} (hnul : '\x00' ∉ line)
    (h : Rest line s (List.replicate n .amp ++ rest)) (hrest : ¬ Starts ['&'] rest)
    (hreads : Reads line cmd tree) (hfuel : n + rest.length < fuel) :
    Total (parsebacks line fuel cmd) s (Reaches line rest (backs n tree)) := by
  induction n generalizing s fuel cmd tree with
  | zero =>
      obtain ⟨m, rfl⟩ : ∃ m, fuel = m + 1 := ⟨fuel - 1, by omega⟩
      obtain ⟨s₁, hpeek, h₁⟩ := peek_false hnul (by decide) h hrest
      rw [parsebacks]
      apply Total.bind_eq hpeek
      exact Total.pure ⟨h₁, hreads⟩
  | succ n ih =>
      obtain ⟨m, rfl⟩ : ∃ m, fuel = m + 1 := ⟨fuel - 1, by omega⟩
      rw [List.replicate_succ, List.cons_append] at h
      have hstarts : Starts ['&'] (.amp :: (List.replicate n .amp ++ rest)) :=
        (starts_cons rfl).mpr (by decide)
      obtain ⟨s₁, hpeek, h₁⟩ := peek_true hnul (by decide) h hstarts
      obtain ⟨span, s₂, htoken, h₂, -⟩ := gettoken_cons hnul h₁
      have hback := Reads.back hreads
      rw [parsebacks]
      apply Total.bind_eq hpeek
      apply Total.bind_eq htoken
      exact ih h₂ hback (by omega)

theorem parseredirs_complete {rs : List Redirection} (hnul : '\x00' ∉ line)
    (h : Rest line s (redirTokens rs ++ rest)) (hrest : ¬ Starts ['<', '>'] rest)
    (hreads : Reads line cmd tree) (hfuel : (redirTokens rs ++ rest).length < fuel) :
    Total (parseredirs line fuel cmd) s (Reaches line rest (rs.foldl Cmd.wrap tree)) := by
  induction rs generalizing s fuel cmd tree with
  | nil =>
      obtain ⟨m, rfl⟩ : ∃ m, fuel = m + 1 := ⟨fuel - 1, by omega⟩
      obtain ⟨s₁, hpeek, h₁⟩ := peek_false hnul (by decide) h hrest
      rw [parseredirs]
      apply Total.bind_eq hpeek
      exact Total.pure ⟨h₁, hreads⟩
  | cons r rs ih =>
      obtain ⟨m, rfl⟩ : ∃ m, fuel = m + 1 := ⟨fuel - 1, by omega⟩
      rw [redirTokens_cons, List.cons_append, List.cons_append] at h hfuel
      rw [List.length_cons, List.length_cons] at hfuel
      have hstarts : Starts ['<', '>']
          (r.op.token :: .word r.file :: (redirTokens rs ++ rest)) := by
        cases r.op with
        | input => exact (starts_cons rfl).mpr (by decide)
        | output => exact (starts_cons rfl).mpr (by decide)
        | append => exact (starts_cons rfl).mpr (by decide)
      obtain ⟨s₁, hpeek, h₁⟩ := peek_true hnul (by decide) h hstarts
      obtain ⟨span, s₂, htoken, h₂, -⟩ := gettoken_cons hnul h₁
      obtain ⟨file, s₃, hfile, h₃, hword⟩ := gettoken_cons hnul h₂
      rw [parseredirs]
      apply Total.bind_eq hpeek
      apply Total.bind_eq htoken
      apply Total.bind_eq hfile
      have hkind : ¬ (Token.word r.file).kind ≠ .word := not_not_intro rfl
      dsimp only
      rw [if_neg hkind, redirected_op]
      exact ih h₃ (hreads.redir (hword r.file rfl)) (by omega)

theorem parseargs_complete {args : List Arg} {rs : List Redirection} {ws : List (List Char)}
    (hnul : '\x00' ∉ line) (h : Rest line s (argTokens args ++ rest))
    (hrest : Ends Phrase.exec.follow rest)
    (hreads : Reads line cmd (rs.foldl Cmd.wrap (.exec ws)))
    (hargs : ws.length + args.length ≤ maxargs - 1)
    (hfuel : (argTokens args ++ rest).length < fuel) :
    Total (parseargs line fuel ws.length cmd) s (Reaches line rest
      ((rs ++ args.flatMap Arg.redirs).foldl Cmd.wrap (.exec (ws ++ args.map Arg.word)))) := by
  induction args generalizing s fuel cmd rs ws with
  | nil =>
      obtain ⟨m, rfl⟩ : ∃ m, fuel = m + 1 := ⟨fuel - 1, by omega⟩
      have hdone : ∀ s', Rest line s' rest → Reaches line rest ((rs ++ [].flatMap
          Arg.redirs).foldl Cmd.wrap (.exec (ws ++ [].map Arg.word))) cmd s' := by
        intro s' h'
        refine ⟨h', ?_⟩
        simpa using hreads
      rw [parseargs]
      cases hrest with
      | inl hnil =>
          subst hnil
          have hno : ¬ Starts ['|', ')', '&', ';'] [] := not_starts_nil
          obtain ⟨s₁, hpeek, h₁⟩ := peek_false hnul (by decide) h hno
          obtain ⟨span, s₂, htoken, h₂⟩ := gettoken_eof hnul h₁
          apply Total.bind_eq hpeek
          apply Total.bind_eq htoken
          exact Total.pure (hdone s₂ h₂)
      | inr hstarts =>
          have hstop : Starts ['|', ')', '&', ';'] rest := hstarts.mono (by decide)
          obtain ⟨s₁, hpeek, h₁⟩ := peek_true hnul (by decide) h hstop
          apply Total.bind_eq hpeek
          exact Total.pure (hdone s₁ h₁)
  | cons a args ih =>
      obtain ⟨m, rfl⟩ : ∃ m, fuel = m + 1 := ⟨fuel - 1, by omega⟩
      rw [argTokens_cons, List.cons_append, List.append_assoc] at h hfuel
      rw [List.length_cons] at hfuel hargs
      have hword : ¬ Starts ['|', ')', '&', ';']
          (.word a.word :: (redirTokens a.redirs ++ (argTokens args ++ rest))) := not_starts_word
      obtain ⟨s₁, hpeek, h₁⟩ := peek_false hnul (by decide) h hword
      obtain ⟨arg, s₂, htoken, h₂, hword⟩ := gettoken_cons hnul h₁
      have hnext : ¬ Starts ['<', '>'] (argTokens args ++ rest) :=
        not_starts_args (hrest.not_starts (by simp [Phrase.follow]))
      have hfew : ¬ maxargs ≤ ws.length + 1 := by
        have hmax : maxargs = 10 := rfl
        omega
      rw [parseargs]
      apply Total.bind_eq hpeek
      apply Total.bind_eq htoken
      dsimp only
      have heof : ¬ (Token.word a.word).kind = .eof := by simp [Token.kind]
      have hkind : ¬ (Token.word a.word).kind ≠ .word := not_not_intro rfl
      rw [if_neg heof, if_neg hkind, if_neg hfew]
      apply Total.bind (parseredirs_complete hnul h₂ hnext
        (hreads.addArg (hword a.word rfl)) (by omega))
      rintro cmd' s₃ ⟨h₃, hreads'⟩
      rw [← List.foldl_append] at hreads'
      have hless : (argTokens args ++ rest).length < m := by
        rw [List.length_append] at hfuel
        omega
      have hargs' : (ws ++ [a.word]).length + args.length ≤ maxargs - 1 := by
        rw [List.length_append, List.length_singleton]
        omega
      have hloop := ih h₃ hreads' hargs' hless
      rw [List.length_append, List.length_singleton] at hloop
      simpa using hloop

/-! ## The parsing functions -/

theorem parseexec_block {rs : List Redirection} (hnul : '\x00' ∉ line)
    (h : Rest line s (.lparen :: (ts ++ .rparen :: (redirTokens rs ++ rest))))
    (hrest : ¬ Starts ['<', '>'] rest) (hfuel : (redirTokens rs ++ rest).length < fuel)
    (hline : ∀ s, Rest line s (ts ++ .rparen :: (redirTokens rs ++ rest)) →
      Total (parseline line fuel) s (Reaches line (.rparen :: (redirTokens rs ++ rest)) tree)) :
    Total (parseexec line (fuel + 2)) s (Reaches line rest (rs.foldl Cmd.wrap tree)) := by
  have hopen : ∀ us, Starts ['('] (.lparen :: us) := fun _ => (starts_cons rfl).mpr (by decide)
  have hclose : ∀ us, Starts [')'] (.rparen :: us) := fun _ => (starts_cons rfl).mpr (by decide)
  obtain ⟨s₁, hpeek₁, h₁⟩ := peek_true hnul (by decide) h (hopen _)
  obtain ⟨s₂, hpeek₂, h₂⟩ := peek_true hnul (by decide) h₁ (hopen _)
  obtain ⟨_, s₃, htoken, h₃, -⟩ := gettoken_cons hnul h₂
  rw [parseexec]
  apply Total.bind_eq hpeek₁
  rw [if_pos rfl, parseblock]
  apply Total.bind_eq hpeek₂
  apply Total.bind_eq htoken
  apply Total.bind (hline s₃ h₃)
  rintro cmd s₄ ⟨h₄, hreads⟩
  obtain ⟨s₅, hpeek₃, h₅⟩ := peek_true hnul (by decide) h₄ (hclose _)
  obtain ⟨_, s₆, htoken', h₆, -⟩ := gettoken_cons hnul h₅
  apply Total.bind_eq hpeek₃
  apply Total.bind_eq htoken'
  exact parseredirs_complete hnul h₆ hrest hreads hfuel

theorem parseexec_words {rs : List Redirection} {args : List Arg} (hnul : '\x00' ∉ line)
    (h : Rest line s (redirTokens rs ++ (argTokens args ++ rest)))
    (hrest : Ends Phrase.exec.follow rest) (hargs : args.length ≤ maxargs - 1)
    (hfuel : (redirTokens rs ++ (argTokens args ++ rest)).length < fuel) :
    Total (parseexec line (fuel + 1)) s (Reaches line rest
      ((rs ++ args.flatMap Arg.redirs).foldl Cmd.wrap (.exec (args.map Arg.word)))) := by
  have hblock : ¬ Starts ['('] (redirTokens rs ++ (argTokens args ++ rest)) :=
    not_starts_redirs (not_starts_args (hrest.not_starts (by simp [Phrase.follow]))) (by simp)
  have hnext : ¬ Starts ['<', '>'] (argTokens args ++ rest) :=
    not_starts_args (hrest.not_starts (by simp [Phrase.follow]))
  have hempty : Reads line (.exec []) (.exec []) := .exec List.Forall₂.nil
  obtain ⟨s₁, hpeek, h₁⟩ := peek_false hnul (by decide) h hblock
  rw [parseexec]
  apply Total.bind_eq hpeek
  apply Total.bind (parseredirs_complete hnul h₁ hnext hempty hfuel)
  rintro cmd s₂ ⟨h₂, hreads⟩
  have hfew : ([] : List (List Char)).length + args.length ≤ maxargs - 1 := by
    simpa using hargs
  have hless : (argTokens args ++ rest).length < fuel := by
    rw [List.length_append] at hfuel
    omega
  exact parseargs_complete hnul h₂ hrest hreads hfew hless

theorem ends_amps {n : Nat} (h : Ends toks rest) (hamp : '&' ∈ toks) :
    Ends toks (List.replicate n .amp ++ rest) := by
  cases n with
  | zero => exact h
  | succ n => exact Or.inr ((starts_cons rfl).mpr hamp)

/-- The induction is on the derivation. -/
theorem parse_complete {phrase : Phrase} (hnul : '\x00' ∉ line) (hd : Derives phrase ts tree) :
    ∀ rest s fuel, Rest line s (ts ++ rest) → Ends phrase.follow rest →
      phrase.fuel (ts ++ rest).length ≤ fuel →
        Total (parse line phrase fuel) s (Reaches line rest tree) := by
  induction hd with
  | @line ts c n _ ih =>
      intro rest s fuel h hrest hfuel
      change 4 * _ + 4 ≤ fuel at hfuel
      obtain ⟨m, rfl⟩ : ∃ m, fuel = m + 1 := ⟨fuel - 1, by omega⟩
      rw [List.append_assoc] at h hfuel
      have hamps : Ends Phrase.pipe.follow (List.replicate n .amp ++ rest) :=
        ends_amps (hrest.mono (by decide)) (by decide)
      have hless : n + rest.length < m := by
        simp only [List.length_append, List.length_replicate] at hfuel
        omega
      change Total (parseline line (m + 1)) s _
      rw [parseline]
      apply Total.bind (ih _ s m h hamps (Nat.le_of_succ_le_succ hfuel))
      rintro cmd s₁ ⟨h₁, hreads⟩
      apply Total.bind
        (parsebacks_complete hnul h₁ (hrest.not_starts (by simp [Phrase.follow])) hreads hless)
      rintro cmd' s₂ ⟨h₂, hreads'⟩
      have hsemi : ¬ Starts [';'] rest := hrest.not_starts (by simp [Phrase.follow])
      obtain ⟨s₃, hpeek, h₃⟩ := peek_false hnul (by decide) h₂ hsemi
      apply Total.bind_eq hpeek
      exact Total.pure ⟨h₃, hreads'⟩
  | @lines ts us c d n _ _ ih ih' =>
      intro rest s fuel h hrest hfuel
      change 4 * _ + 4 ≤ fuel at hfuel
      obtain ⟨m, rfl⟩ : ∃ m, fuel = m + 1 := ⟨fuel - 1, by omega⟩
      rw [List.append_assoc, List.append_assoc, List.cons_append] at h hfuel
      have hsemi : ∀ {toks}, ';' ∈ toks → Starts toks (.semi :: (us ++ rest)) :=
        fun hmem => (starts_cons rfl).mpr hmem
      have hamps : Ends Phrase.pipe.follow
          (List.replicate n .amp ++ .semi :: (us ++ rest)) :=
        ends_amps (Or.inr (hsemi (by decide))) (by decide)
      have hnext : ¬ Starts ['&'] (.semi :: (us ++ rest)) :=
        fun hstarts => absurd ((starts_cons rfl).mp hstarts) (by decide)
      have hless : n + (Token.semi :: (us ++ rest)).length < m := by
        simp only [List.length_append, List.length_replicate] at hfuel
        omega
      change Total (parseline line (m + 1)) s _
      rw [parseline]
      apply Total.bind (ih _ s m h hamps (Nat.le_of_succ_le_succ hfuel))
      rintro cmd s₁ ⟨h₁, hreads⟩
      apply Total.bind (parsebacks_complete hnul h₁ hnext hreads hless)
      rintro cmd' s₂ ⟨h₂, hreads'⟩
      obtain ⟨s₃, hpeek, h₃⟩ := peek_true hnul (by decide) h₂ (hsemi (List.mem_singleton_self _))
      obtain ⟨_, s₄, htoken, h₄, -⟩ := gettoken_cons hnul h₃
      have hfuel' : Phrase.line.fuel (us ++ rest).length ≤ m := by
        change 4 * _ + 4 ≤ m
        simp only [List.length_append, List.length_cons] at hfuel ⊢
        omega
      apply Total.bind_eq hpeek
      apply Total.bind_eq htoken
      apply Total.bind (ih' rest s₄ m h₄ hrest hfuel')
      rintro right s' ⟨h', hright⟩
      exact Total.pure ⟨h', hreads'.list hright⟩
  | @pipe ts c _ ih =>
      intro rest s fuel h hrest hfuel
      change 4 * _ + 3 ≤ fuel at hfuel
      obtain ⟨m, rfl⟩ : ∃ m, fuel = m + 1 := ⟨fuel - 1, by omega⟩
      change Total (parsepipe line (m + 1)) s _
      rw [parsepipe]
      apply Total.bind (ih rest s m h (hrest.mono (by decide)) (Nat.le_of_succ_le_succ hfuel))
      rintro cmd s₁ ⟨h₁, hreads⟩
      have hbar : ¬ Starts ['|'] rest := hrest.not_starts (by simp [Phrase.follow])
      obtain ⟨s₂, hpeek, h₂⟩ := peek_false hnul (by decide) h₁ hbar
      apply Total.bind_eq hpeek
      exact Total.pure ⟨h₂, hreads⟩
  | @pipes ts us c d _ _ ih ih' =>
      intro rest s fuel h hrest hfuel
      change 4 * _ + 3 ≤ fuel at hfuel
      obtain ⟨m, rfl⟩ : ∃ m, fuel = m + 1 := ⟨fuel - 1, by omega⟩
      rw [List.append_assoc, List.cons_append] at h hfuel
      have hbar : ∀ {toks}, '|' ∈ toks → Starts toks (.pipe :: (us ++ rest)) :=
        fun hmem => (starts_cons rfl).mpr hmem
      have hfuel' : Phrase.pipe.fuel (us ++ rest).length ≤ m := by
        change 4 * _ + 3 ≤ m
        simp only [List.length_append, List.length_cons] at hfuel ⊢
        omega
      change Total (parsepipe line (m + 1)) s _
      rw [parsepipe]
      apply Total.bind (ih _ s m h (Or.inr (hbar (by decide))) (Nat.le_of_succ_le_succ hfuel))
      rintro cmd s₁ ⟨h₁, hreads⟩
      obtain ⟨s₂, hpeek, h₂⟩ := peek_true hnul (by decide) h₁ (hbar (List.mem_singleton_self _))
      obtain ⟨_, s₃, htoken, h₃, -⟩ := gettoken_cons hnul h₂
      apply Total.bind_eq hpeek
      apply Total.bind_eq htoken
      apply Total.bind (ih' rest s₃ m h₃ hrest hfuel')
      rintro right s' ⟨h', hright⟩
      exact Total.pure ⟨h', hreads.pipe hright⟩
  | @block ts c rs _ ih =>
      intro rest s fuel h hrest hfuel
      change 4 * _ + 2 ≤ fuel at hfuel
      obtain ⟨m, rfl⟩ : ∃ m, fuel = m + 2 := ⟨fuel - 2, by omega⟩
      rw [List.cons_append, List.append_assoc, List.cons_append] at h hfuel
      rw [List.length_cons] at hfuel
      have hclose : Ends Phrase.line.follow (.rparen :: (redirTokens rs ++ rest)) :=
        Or.inr ((starts_cons rfl).mpr (by decide))
      apply parseexec_block hnul h (hrest.not_starts (by simp [Phrase.follow]))
      · simp only [List.length_append, List.length_cons] at hfuel ⊢
        omega
      · intro s' h'
        apply ih _ s' m h' hclose
        change 4 * _ + 4 ≤ m
        omega
  | words rs args hargs =>
      intro rest s fuel h hrest hfuel
      change 4 * _ + 2 ≤ fuel at hfuel
      obtain ⟨m, rfl⟩ : ∃ m, fuel = m + 1 := ⟨fuel - 1, by omega⟩
      rw [List.append_assoc] at h hfuel
      exact parseexec_words hnul h hrest hargs (by omega)

end

end SyscallSched.Shell
