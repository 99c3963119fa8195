import SyscallSched.Shell.Completeness

/-!
# `parsecmd` accepts exactly the grammar

`nulterminate` writes a NUL behind every word.  No word is hit by it, because a word
ends at a character that is in no word, so the strings of the command are its words.
-/

namespace SyscallSched.Shell

open SyscallSched.Foundation

/-! ## The buffer -/

/-- Where `nulterminate` writes, in this order. -/
def Cmd.ends : Cmd Span → List Nat
  | .exec argv => argv.map Span.eq
  | .redir cmd file _ _ => cmd.ends ++ [file.eq]
  | .pipe left right => left.ends ++ right.ends
  | .list left right => left.ends ++ right.ends
  | .back cmd => cmd.ends

def nulled (ends : List Nat) (buf : List Char) : List Char :=
  ends.foldl (fun buf e => buf.set e '\x00') buf

section

variable {line buf w : List Char} {ends : List Nat} {span : Span} {cmd : Cmd Span}
  {tree : Cmd (List Char)}

theorem nulled_append (ends ends' : List Nat) (buf : List Char) :
    nulled (ends ++ ends') buf = nulled ends' (nulled ends buf) :=
  List.foldl_append

theorem nulterminate_eq (cmd : Cmd Span) (buf : List Char) :
    nulterminate cmd buf = nulled cmd.ends buf := by
  induction cmd generalizing buf with
  | exec argv =>
      rw [nulterminate, Cmd.ends, nulled, List.foldl_map]
  | redir cmd file mode fd ih =>
      rw [nulterminate, Cmd.ends, nulled_append, ih]
      rfl
  | pipe left right ih ih' => rw [nulterminate, Cmd.ends, nulled_append, ih, ih']
  | list left right ih ih' => rw [nulterminate, Cmd.ends, nulled_append, ih, ih']
  | back cmd ih => rw [nulterminate, Cmd.ends, ih]

theorem nulled_at (ends : List Nat) (buf : List Char) (i : Nat) : (nulled ends buf)[i]? =
    if i ∈ ends ∧ i < buf.length then some '\x00' else buf[i]? := by
  induction ends generalizing buf with
  | nil => simp [nulled]
  | cons e ends ih =>
      change (nulled ends (buf.set e '\x00'))[i]? = _
      rw [ih, List.length_set, List.getElem?_set]
      by_cases hi : i < buf.length
      · by_cases he : e = i
        · subst he
          simp [hi]
        · simp [hi, he, Ne.symm he]
      · by_cases he : e = i
        · subst he
          simp [hi]
        · simp [hi, he]

theorem takeWhile_of_nul {l : List Char} (hnul : '\x00' ∉ w)
    (hword : ∀ j < w.length, l[j]? = w[j]?) (hend : l[w.length]? = some '\x00') :
    l.takeWhile (· ≠ '\x00') = w := by
  induction w generalizing l with
  | nil =>
      cases l with
      | nil => rfl
      | cons c l =>
          injection hend with hc
          subst hc
          rfl
  | cons d w ih =>
      cases l with
      | nil => cases hend
      | cons c l =>
          have hc : some c = some d := hword 0 (Nat.succ_pos _)
          injection hc with hc
          subst hc
          have hne : c ≠ '\x00' := fun h => hnul (by rw [h]; exact List.mem_cons_self)
          rw [List.takeWhile_cons_of_pos (by simpa using hne)]
          congr 1
          apply ih (fun h => hnul (List.mem_cons_of_mem c h))
          · intro j hj
            exact hword (j + 1) (Nat.succ_lt_succ hj)
          · exact hend

/-- No word goes over the offset `e`. -/
def Between (line : List Char) (e : Nat) : Prop := ∀ c, (line)[e]? = some c → isWordChar c = false

theorem IsWord.between (h : IsWord line span w) : Between line span.eq := by
  intro c hc
  apply h.ends c
  rw [List.head?_drop]
  exact hc

theorem IsWord.eq_add (h : IsWord line span w) : span.eq = span.q + w.length := by
  have hlen := congrArg List.length h.drop
  rw [List.length_append, List.length_drop, List.length_drop] at hlen
  have hpos : 0 < w.length := List.length_pos_of_ne_nil h.ne
  have hle := h.le
  omega

theorem IsWord.getElem? (h : IsWord line span w) {j : Nat} (hj : j < w.length) :
    (line)[span.q + j]? = w[j]? := by
  rw [← List.getElem?_drop, h.drop, List.getElem?_append_left hj]

theorem cstring_nulled (hnul : '\x00' ∉ line) (h : IsWord line span w) (hmem : span.eq ∈ ends)
    (hends : ∀ e ∈ ends, Between line e) :
    cstring (nulled ends (line ++ ['\x00'])) span.q = w := by
  have hle := h.le
  have heq := h.eq_add
  apply takeWhile_of_nul
  · intro hw
    apply hnul
    apply List.mem_of_mem_drop (i := span.q)
    rw [h.drop]
    exact List.mem_append_left _ hw
  · intro j hj
    have hline := h.getElem? hj
    have hlt : span.q + j < line.length := by omega
    have hout : span.q + j ∉ ends := by
      intro hin
      have hchar : (line)[span.q + j]? = some w[j] := by rw [hline, List.getElem?_eq_getElem hj]
      have hno := hends _ hin _ hchar
      rw [h.word _ (List.getElem_mem hj)] at hno
      cases hno
    rw [List.getElem?_drop, nulled_at, if_neg fun hin => hout hin.1,
      List.getElem?_append_left hlt, hline]
  · have hin : span.eq ∈ ends ∧ span.eq < (line ++ ['\x00']).length := by
      refine ⟨hmem, ?_⟩
      rw [List.length_append, List.length_singleton]
      omega
    rw [List.getElem?_drop, ← heq, nulled_at, if_pos hin]

/-! ## The strings of a command -/

theorem between_args {argv : List Span} {words : List (List Char)}
    (h : List.Forall₂ (IsWord line) argv words) : ∀ e ∈ argv.map Span.eq, Between line e := by
  induction h with
  | nil => exact fun e he => absurd he List.not_mem_nil
  | cons hw _ ih =>
      intro e he
      cases List.mem_cons.mp he with
      | inl hfirst =>
          rw [hfirst]
          exact hw.between
      | inr hrest => exact ih e hrest

theorem map_args {argv : List Span} {words : List (List Char)} {f : Span → List Char}
    (h : List.Forall₂ (IsWord line) argv words)
    (hf : ∀ span w, span ∈ argv → IsWord line span w → f span = w) : argv.map f = words := by
  induction h with
  | nil => rfl
  | cons hw _ ih =>
      have hrest := ih fun span w hspan => hf span w (List.mem_cons_of_mem _ hspan)
      rw [List.map_cons, hrest, hf _ _ List.mem_cons_self hw]

theorem Reads.between (h : Reads line cmd tree) : ∀ e ∈ cmd.ends, Between line e := by
  induction h with
  | exec h => exact between_args h
  | redir h hfile ih =>
      intro e he
      cases List.mem_append.mp he with
      | inl hcmd => exact ih e hcmd
      | inr hlast =>
          rw [List.mem_singleton.mp hlast]
          exact hfile.between
  | pipe h h' ih ih' => exact fun e he => (List.mem_append.mp he).elim (ih e) (ih' e)
  | list h h' ih ih' => exact fun e he => (List.mem_append.mp he).elim (ih e) (ih' e)
  | back h ih => exact ih

theorem Reads.map_eq {f : Span → List Char} (h : Reads line cmd tree)
    (hf : ∀ span w, span.eq ∈ cmd.ends → IsWord line span w → f span = w) :
    cmd.map f = tree := by
  induction h with
  | exec h => rw [Cmd.map, map_args h fun span w hspan => hf span w (List.mem_map_of_mem hspan)]
  | redir h hfile ih =>
      have hcmd := ih fun span w hspan => hf span w (List.mem_append_left _ hspan)
      rw [Cmd.map, hcmd, hf _ _ (List.mem_append_right _ (List.mem_singleton_self _)) hfile]
  | pipe h h' ih ih' =>
      have hleft := ih fun span w hspan => hf span w (List.mem_append_left _ hspan)
      have hright := ih' fun span w hspan => hf span w (List.mem_append_right _ hspan)
      rw [Cmd.map, hleft, hright]
  | list h h' ih ih' =>
      have hleft := ih fun span w hspan => hf span w (List.mem_append_left _ hspan)
      have hright := ih' fun span w hspan => hf span w (List.mem_append_right _ hspan)
      rw [Cmd.map, hleft, hright]
  | back h ih => rw [Cmd.map, ih hf]

theorem Reads.strings (h : Reads line cmd tree) (hnul : '\x00' ∉ line) :
    cmd.map (fun arg => cstring (nulterminate cmd (line ++ ['\x00'])) arg.q) = tree := by
  apply h.map_eq
  intro span w hmem hword
  rw [nulterminate_eq]
  exact cstring_nulled hnul hword hmem h.between

/-! ## Whole lines -/

theorem length_lex_le (l : List Char) : (lex l).length ≤ l.length := by
  fun_induction lex l with
  | case1 => exact Nat.le_refl 0
  | case2 c cs hblank ih => exact Nat.le_succ_of_le ih
  | case3 c cs hblank happend ih =>
      rw [List.length_tail] at ih
      rw [List.length_cons, List.length_cons]
      omega
  | case4 c cs hblank happend t ht ih => exact Nat.succ_le_succ ih
  | case5 c cs hblank happend hnone ih =>
      have hdrop := (List.dropWhile_sublist isWordChar (l := cs)).length_le
      exact Nat.succ_le_succ (ih.trans hdrop)

/-- The cursor that `peek` leaves is at the end when there are no tokens left. -/
theorem at_end_iff {s : Nat} {rest : List Token} (hnul : '\x00' ∉ line)
    (h : Rest line s rest) : skipBlanks line s = line.length ↔ rest = [] := by
  have hle := h.skip.le
  cases head_or_end hnul h with
  | inl hend =>
      have hlen := congrArg List.length hend.2
      rw [List.length_drop, List.length_nil] at hlen
      exact iff_of_true (by omega) hend.1
  | inr htoken =>
      obtain ⟨c, cs, hdrop, hc, hblank, hlex⟩ := htoken
      obtain ⟨t, ts, hts, -⟩ := scan_spec hle hdrop hc hblank
      apply iff_of_false
      · intro hend
        rw [hend, List.drop_length] at hdrop
        cases hdrop
      · rw [← hlex, hts]
        exact List.cons_ne_nil t ts

theorem rest_start (line : List Char) : Rest line 0 (lex line) := ⟨Nat.zero_le _, rfl⟩

theorem fuel_start {fuel : Nat} (hfuel : 4 * line.length + 4 ≤ fuel) :
    Phrase.line.fuel (lex line).length ≤ fuel := by
  have hle := length_lex_le line
  change 4 * _ + 4 ≤ fuel
  omega

theorem parseall_sound {fuel : Nat} (hnul : '\x00' ∉ line)
    (hfuel : 4 * line.length + 4 ≤ fuel) :
    Ensures SyntaxStop (parseall line fuel) 0 fun cmd _ =>
      ∃ tree, Derives .line (lex line) tree ∧ Reads line cmd tree := by
  rw [parseall]
  apply Ensures.bind (parse_sound hnul fuel .line 0 _ (rest_start line) (fuel_start hfuel))
  rintro cmd s ⟨used, rest, tree, htook, hderives⟩
  have hpeek : peek line [] s = .ok (decide _, skipBlanks line s) := rfl
  apply Ensures.bind_eq hpeek
  apply Ensures.bind_eq (a := skipBlanks line s) (t := skipBlanks line s) rfl
  by_cases hend : skipBlanks line s = line.length
  · rw [if_neg (not_not_intro hend)]
    have hrest := (at_end_iff hnul htook.rest).mp hend
    have hall : lex line = used := by rw [htook.split, hrest, List.append_nil]
    apply Ensures.pure
    rw [hall]
    exact ⟨tree, hderives, htook.reads⟩
  · rw [if_pos hend]
    exact panics (by decide)

theorem parseall_complete {fuel : Nat} (hnul : '\x00' ∉ line)
    (hfuel : 4 * line.length + 4 ≤ fuel) (h : Derives .line (lex line) tree) :
    Total (parseall line fuel) 0 fun cmd _ => Reads line cmd tree := by
  have hstart : Rest line 0 (lex line ++ []) := by
    rw [List.append_nil]
    exact rest_start line
  have henough : Phrase.line.fuel (lex line ++ []).length ≤ fuel := by
    rw [List.append_nil]
    exact fuel_start hfuel
  rw [parseall]
  apply Total.bind (parse_complete hnul h [] 0 fuel hstart (Or.inl rfl) henough)
  rintro cmd s ⟨hrest, hreads⟩
  have hpeek : peek line [] s = .ok (decide _, skipBlanks line s) := rfl
  apply Total.bind_eq hpeek
  apply Total.bind_eq (a := skipBlanks line s) (t := skipBlanks line s) rfl
  rw [if_neg (not_not_intro ((at_end_iff hnul hrest).mpr rfl))]
  exact Total.pure hreads

/-- A line is accepted when its tokens derive from the grammar, with the command of the
derivation, and else `parsecmd` ends in a syntax panic. -/
theorem parsecmd_grammar (line : List Char) (fuel : Nat) (hnul : '\x00' ∉ line)
    (hfuel : 4 * line.length + 4 ≤ fuel) :
    (∀ tree, Derives .line (lex line) tree ↔
      ∃ cmd buf, parsecmd fuel line = .ok (cmd, buf) ∧
        cmd.map (fun arg => cstring buf arg.q) = tree) ∧
    ((¬ ∃ tree, Derives .line (lex line) tree) →
      ∃ m ∈ syntaxPanics, parsecmd fuel line = .error (.panic m)) := by
  have hsound := parseall_sound hnul hfuel
  constructor
  case left =>
      intro tree
      constructor
      · intro h
        obtain ⟨cmd, s, hrun, hreads⟩ := parseall_complete hnul hfuel h
        refine ⟨cmd, nulterminate cmd (line ++ ['\x00']), ?_, hreads.strings hnul⟩
        rw [parsecmd, hrun]
        rfl
      · rintro ⟨cmd, buf, hrun, rfl⟩
        obtain ⟨⟨cmd', s⟩, hall, hpair⟩ := except_bind_ok hrun
        injection hpair with hpair
        injection hpair with hcmd hbuf
        subst hcmd hbuf
        obtain ⟨tree, hderives, hreads⟩ := hsound.post cmd' s hall
        rw [hreads.strings hnul]
        exact hderives
  case right =>
      intro hnone
      cases hrun : parseall line fuel 0 with
      | ok r =>
          obtain ⟨tree, hderives, -⟩ := hsound.post r.1 r.2 hrun
          exact absurd ⟨tree, hderives⟩ hnone
      | error e =>
          obtain ⟨m, hm, rfl⟩ := hsound.error e hrun
          refine ⟨m, hm, ?_⟩
          rw [parsecmd, hrun]
          rfl

end

/-- `(a > b; c) | d &` -/
theorem parsecmd_grammar_block :
    (∀ tree, Derives .line (lex "(a > b; c) | d &".toList) tree ↔
      ∃ cmd buf, parsecmd 100 "(a > b; c) | d &".toList = .ok (cmd, buf) ∧
        cmd.map (fun arg => cstring buf arg.q) = tree) ∧
    ((¬ ∃ tree, Derives .line (lex "(a > b; c) | d &".toList) tree) →
      ∃ m ∈ syntaxPanics, parsecmd 100 "(a > b; c) | d &".toList = .error (.panic m)) :=
  parsecmd_grammar "(a > b; c) | d &".toList 100 (by decide) (by decide)

end SyscallSched.Shell
