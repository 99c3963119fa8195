import Mathlib.Data.List.TakeWhile
import SyscallSched.Foundation.Total
import SyscallSched.Shell.Grammar

/-!
# `peek` and `gettoken` on tokens

`peek` looks at the next token of the line and `gettoken` takes it.  Both leave the
cursor on a token or at the end of the line.
-/

namespace SyscallSched.Shell

open SyscallSched.Foundation

section

variable {line l : List Char} {c : Char} {s q : Nat} {ts : List Token}

/-! ## Skipping -/

theorem drop_skip (p : Char → Bool) (line : List Char) (s : Nat) :
    line.drop (s + ((line.drop s).takeWhile p).length) = (line.drop s).dropWhile p := by
  have hsplit := List.takeWhile_append_dropWhile (p := p) (l := line.drop s)
  rw [← List.drop_drop]
  nth_rewrite 2 [← hsplit]
  exact List.drop_left

theorem skip_le (p : Char → Bool) (h : s ≤ line.length) :
    s + ((line.drop s).takeWhile p).length ≤ line.length := by
  have hle := (List.takeWhile_sublist p (l := line.drop s)).length_le
  rw [List.length_drop] at hle
  omega

theorem charAt_eq (line : List Char) (s : Nat) :
    charAt line s = (line.drop s).head?.getD '\x00' := by
  rw [charAt, List.head?_drop, List.getD_eq_getElem?_getD]

theorem drop_skipBlanks (line : List Char) (s : Nat) :
    line.drop (skipBlanks line s) = (line.drop s).dropWhile (· ∈ whitespace) :=
  drop_skip _ line s

theorem Rest.skip (h : Rest line s ts) : Rest line (skipBlanks line s) ts := by
  constructor
  case le => exact skip_le _ h.le
  case tokens =>
      rw [drop_skipBlanks, lex_dropWhile]
      exact h.tokens

theorem head_skipBlanks (h : c ∈ (line.drop (skipBlanks line s)).head?) : c ∉ whitespace := by
  rw [drop_skipBlanks] at h
  have hnot := List.head?_dropWhile_not (· ∈ whitespace) (line.drop s)
  rw [Option.mem_def.mp h] at hnot
  simpa using hnot

/-! ## Single tokens -/

theorem symbolToken_none (h : symbolToken c = none) : c ∉ symbols := by
  intro hc
  simp only [symbols, List.mem_cons, List.not_mem_nil, or_false] at hc
  rcases hc with rfl | rfl | rfl | rfl | rfl | rfl | rfl
  all_goals cases h

theorem wordChar_of_none (h : symbolToken c = none) (hblank : c ∉ whitespace) :
    isWordChar c = true := by
  rw [isWordChar, decide_eq_true_eq]
  exact ⟨hblank, symbolToken_none h⟩

/-- What `scan` finds, beside the cursor. -/
structure Scanned (line : List Char) (q : Nat) (t : Token) (ts : List Token)
    (result : Kind × Nat) : Prop where
  kind : result.1 = t.kind
  rest : Rest line result.2 ts
  word : ∀ w, t = .word w → IsWord line ⟨q, result.2⟩ w

theorem rest_tail {n : Nat} (hq : q ≤ line.length) (h : line.drop q = l) (hn : n ≤ l.length) :
    Rest line (q + n) (lex (l.drop n)) := by
  constructor
  case le =>
      have hlen := congrArg List.length h
      rw [List.length_drop] at hlen
      omega
  case tokens => rw [← List.drop_drop, h]

theorem scan_eof (h : line.drop q = []) : scan line q = (.eof, q) := by
  have hchar : charAt line q = '\x00' := by
    rw [charAt_eq, h]
    rfl
  rw [scan, hchar]
  rfl

theorem scan_symbol {t : Token} (hchar : charAt line q = c) (h : symbolToken c = some t)
    (hgt : c ≠ '>') : scan line q = (t.kind, q + 1) := by
  rw [scan, hchar]
  unfold symbolToken at h
  split at h
  case h_7 => exact absurd rfl hgt
  case h_8 => cases h
  all_goals
    injection h with ht
    subst ht
    rfl

theorem scan_word (hchar : charAt line q = c) (h : symbolToken c = none)
    (hnul : c ≠ '\x00') : scan line q = (.word, skipWord line q) := by
  rw [scan, hchar]
  split
  case h_1 => exact absurd rfl hnul
  case h_9 => rfl
  all_goals cases h

theorem symbolToken_ne_word {t : Token} (h : symbolToken c = some t) (w : List Char) :
    t ≠ .word w := by
  unfold symbolToken at h
  split at h
  case h_8 => cases h
  all_goals
    injection h with ht
    subst ht
    exact nofun

theorem scanned_symbol {cs : List Char} {t : Token} (hq : q ≤ line.length)
    (h : line.drop q = c :: cs) (ht : ∀ w, t ≠ .word w) :
    Scanned line q t (lex cs) (t.kind, q + 1) := by
  refine ⟨rfl, ?_, fun w hw => absurd hw (ht w)⟩
  exact rest_tail hq h (Nat.succ_le_succ (Nat.zero_le _))

theorem scanned_word {cs : List Char} (hq : q ≤ line.length) (h : line.drop q = c :: cs)
    (hc : isWordChar c = true) :
    Scanned line q (.word (c :: cs.takeWhile isWordChar)) (lex (cs.dropWhile isWordChar))
      (.word, skipWord line q) := by
  have hdrop : line.drop (skipWord line q) = cs.dropWhile isWordChar := by
    rw [skipWord, drop_skip, h, List.dropWhile_cons_of_pos hc]
  have hword : (c :: cs).takeWhile isWordChar = c :: cs.takeWhile isWordChar :=
    List.takeWhile_cons_of_pos hc
  constructor
  case kind => rfl
  case rest => exact ⟨skip_le _ hq, by rw [hdrop]⟩
  case word =>
      intro w hw
      injection hw with hw
      subst hw
      constructor
      case le => exact skip_le _ hq
      case ne => exact List.cons_ne_nil _ _
      case drop =>
          rw [hdrop, h, List.cons_append, List.takeWhile_append_dropWhile]
      case word =>
          rw [← hword]
          intro d hd
          exact List.mem_takeWhile_imp hd
      case ends =>
          intro d hd
          rw [hdrop] at hd
          have hnot := List.head?_dropWhile_not isWordChar cs
          rw [Option.mem_def.mp hd] at hnot
          simpa using hnot

theorem scan_spec {cs : List Char} (hq : q ≤ line.length) (h : line.drop q = c :: cs)
    (hnul : c ≠ '\x00') (hblank : c ∉ whitespace) :
    ∃ t ts, lex (c :: cs) = t :: ts ∧ Scanned line q t ts (scan line q) := by
  have hchar : charAt line q = c := by
    rw [charAt_eq, h]
    rfl
  have hnext : charAt line (q + 1) = cs.head?.getD '\x00' := by
    rw [charAt_eq, ← List.drop_drop, h]
    rfl
  by_cases hgt : c = '>'
  · subst hgt
    have hscan : scan line q =
        if charAt line (q + 1) = '>' then (.append, q + 2) else (.gt, q + 1) := by
      rw [scan, hchar]
      rfl
    rw [hscan, hnext]
    cases cs with
    | nil => exact ⟨.gt, lex [], lex_symbol rfl hblank nofun, scanned_symbol hq h nofun⟩
    | cons d cs =>
        by_cases hd : d = '>'
        · subst hd
          refine ⟨.append, lex cs, lex_append, rfl, ?_, nofun⟩
          exact rest_tail hq h (Nat.succ_le_succ (Nat.succ_le_succ (Nat.zero_le _)))
        · have hother : ¬ ((d :: cs).head?.getD '\x00' = '>') := hd
          rw [if_neg hother]
          refine ⟨.gt, lex (d :: cs), lex_symbol rfl hblank ?_, scanned_symbol hq h nofun⟩
          exact fun _ hhead => hd (Option.some.inj hhead)
  · cases hsymbol : symbolToken c with
    | some t =>
        refine ⟨t, lex cs, lex_symbol hsymbol hblank (fun h => absurd h hgt), ?_⟩
        rw [scan_symbol hchar hsymbol hgt]
        exact scanned_symbol hq h (symbolToken_ne_word hsymbol)
    | none =>
        refine ⟨_, _, lex_word hsymbol hblank, ?_⟩
        rw [scan_word hchar hsymbol hnul]
        exact scanned_word hq h (wordChar_of_none hsymbol hblank)

/-! ## `gettoken` and `peek` -/

theorem gettoken_run (line : List Char) (s : Nat) : gettoken line s =
    .ok (((scan line (skipBlanks line s)).1,
      ⟨skipBlanks line s, (scan line (skipBlanks line s)).2⟩),
        skipBlanks line (scan line (skipBlanks line s)).2) := rfl

theorem head_or_end (hnul : '\x00' ∉ line) (h : Rest line s ts) :
    (ts = [] ∧ line.drop (skipBlanks line s) = []) ∨
      ∃ c cs, line.drop (skipBlanks line s) = c :: cs ∧ c ≠ '\x00' ∧ c ∉ whitespace ∧
        lex (c :: cs) = ts := by
  have htokens := h.skip.tokens
  cases hdrop : line.drop (skipBlanks line s) with
  | nil =>
      left
      rw [hdrop, lex_nil] at htokens
      exact ⟨htokens.symm, rfl⟩
  | cons c cs =>
      right
      refine ⟨c, cs, rfl, ?_, ?_, ?_⟩
      · rintro rfl
        apply hnul
        apply List.mem_of_mem_drop (i := skipBlanks line s)
        rw [hdrop]
        exact List.mem_cons_self
      · have hhead : c ∈ (line.drop (skipBlanks line s)).head? := by
          rw [hdrop]
          rfl
        exact head_skipBlanks hhead
      · rw [← hdrop]
        exact htokens

theorem gettoken_eof (hnul : '\x00' ∉ line) (h : Rest line s []) :
    ∃ span s', gettoken line s = .ok ((.eof, span), s') ∧ Rest line s' [] := by
  cases head_or_end hnul h with
  | inl hend =>
      have hrun := gettoken_run line s
      rw [scan_eof hend.2] at hrun
      exact ⟨_, _, hrun, h.skip.skip⟩
  | inr htoken =>
      obtain ⟨c, cs, hdrop, hc, hblank, hlex⟩ := htoken
      obtain ⟨t, ts, hts, -⟩ := scan_spec h.skip.le hdrop hc hblank
      rw [hlex] at hts
      cases hts

theorem gettoken_cons {t : Token} (hnul : '\x00' ∉ line) (h : Rest line s (t :: ts)) :
    ∃ span s', gettoken line s = .ok ((t.kind, span), s') ∧ Rest line s' ts ∧
      ∀ w, t = .word w → IsWord line span w := by
  cases head_or_end hnul h with
  | inl hend => cases hend.1
  | inr htoken =>
      obtain ⟨c, cs, hdrop, hc, hblank, hlex⟩ := htoken
      obtain ⟨t', ts', hts, hscan⟩ := scan_spec h.skip.le hdrop hc hblank
      rw [hlex] at hts
      injection hts with ht hts
      subst ht hts
      have hrun := gettoken_run line s
      rw [hscan.kind] at hrun
      exact ⟨_, _, hrun, hscan.rest.skip, hscan.word⟩

theorem symbol_of_symbolToken {t : Token} (h : symbolToken c = some t) : t.symbol = some c := by
  unfold symbolToken at h
  split at h
  case h_8 => cases h
  all_goals
    injection h with ht
    subst ht
    rfl

theorem starts_iff {cs toks : List Char} (hblank : c ∉ whitespace) (htoks : toks ⊆ symbols) :
    Starts toks (lex (c :: cs)) ↔ c ∈ toks := by
  cases hsymbol : symbolToken c with
  | none =>
      rw [lex_word hsymbol hblank]
      apply iff_of_false
      · rintro ⟨t, ht, d, hd, -⟩
        injection ht with ht
        subst ht
        cases hd
      · exact fun hc => symbolToken_none hsymbol (htoks hc)
  | some t =>
      have hfirst : ∃ t' ts, lex (c :: cs) = t' :: ts ∧ t'.symbol = some c := by
        by_cases happend : c = '>' ∧ cs.head? = some '>'
        · obtain ⟨rfl, hhead⟩ := happend
          obtain ⟨cs', rfl⟩ : ∃ cs', cs = '>' :: cs' := List.head?_eq_some_iff.mp hhead
          exact ⟨.append, lex cs', lex_append, rfl⟩
        · refine ⟨t, lex cs, lex_symbol hsymbol hblank ?_, symbol_of_symbolToken hsymbol⟩
          exact fun hgt hhead => happend ⟨hgt, hhead⟩
      obtain ⟨t', ts, hlex, hsym⟩ := hfirst
      rw [hlex, Starts]
      simp [hsym]

instance (toks : List Char) (ts : List Token) : Decidable (Starts toks ts) :=
  inferInstanceAs (Decidable (∃ t ∈ ts.head?, ∃ c ∈ t.symbol, c ∈ toks))

theorem peek_spec {toks : List Char} (hnul : '\x00' ∉ line) (htoks : toks ⊆ symbols)
    (h : Rest line s ts) :
    ∃ s', peek line toks s = .ok (decide (Starts toks ts), s') ∧ Rest line s' ts := by
  have hrun : peek line toks s = .ok (decide (charAt line (skipBlanks line s) ≠ '\x00' ∧
      charAt line (skipBlanks line s) ∈ toks), skipBlanks line s) := rfl
  refine ⟨skipBlanks line s, ?_, h.skip⟩
  rw [hrun]
  congr 2
  rw [decide_eq_decide]
  cases head_or_end hnul h with
  | inl hend =>
      rw [charAt_eq, hend.2, hend.1]
      apply iff_of_false
      · exact fun hstarts => hstarts.1 rfl
      · rintro ⟨t, ht, -⟩
        cases ht
  | inr htoken =>
      obtain ⟨c, cs, hdrop, hc, hblank, hlex⟩ := htoken
      have hchar : charAt line (skipBlanks line s) = c := by
        rw [charAt_eq, hdrop]
        rfl
      rw [hchar, ← hlex, starts_iff hblank htoks, and_iff_right hc]

theorem peek_true {toks : List Char} (hnul : '\x00' ∉ line) (htoks : toks ⊆ symbols)
    (h : Rest line s ts) (hstarts : Starts toks ts) :
    ∃ s', peek line toks s = .ok (true, s') ∧ Rest line s' ts := by
  rw [← decide_eq_true hstarts]
  exact peek_spec hnul htoks h

theorem peek_false {toks : List Char} (hnul : '\x00' ∉ line) (htoks : toks ⊆ symbols)
    (h : Rest line s ts) (hstarts : ¬ Starts toks ts) :
    ∃ s', peek line toks s = .ok (false, s') ∧ Rest line s' ts := by
  rw [← decide_eq_false hstarts]
  exact peek_spec hnul htoks h

end

end SyscallSched.Shell
