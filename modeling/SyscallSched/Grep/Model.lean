import Mathlib.Data.List.Basic
import SyscallSched.Foundation.Continuation

/-!
# The matcher of `grep` (`grep.c`)

A string is the list of its characters before the NUL that ends it, so that `'\0'` is read
at the end of the list; a pointer into the string is the list from there on.
-/

namespace SyscallSched.Grep

abbrev Str := List UInt8

def caret : UInt8 := 94

def dollar : UInt8 := 36

def dot : UInt8 := 46

def asterisk : UInt8 := 42

mutual

def matchhere (re text : Str) : Bool :=
  match re with
  | [] => true
  | c :: re =>
      if re.head? = some asterisk then
        matchstar c re.tail text
      else if c = dollar ∧ re = [] then
        text.isEmpty
      else
        match text with
        | [] => false
        | t :: text => if c = dot ∨ c = t then matchhere re text else false
termination_by (re.length, text.length, 0)
decreasing_by
  · simp only [List.length_tail, List.length_cons]
    exact Prod.Lex.left _ _ (by omega)
  · exact Prod.Lex.left _ _ (Nat.lt_succ_self _)

/-- The condition of the loop moves on, so that the rest of the loop is `matchstar` again. -/
def matchstar (c : UInt8) (re text : Str) : Bool :=
  if matchhere re text then
    true
  else
    match text with
    | [] => false
    | t :: text => if t = c ∨ c = dot then matchstar c re text else false
termination_by (re.length, text.length, 1)
decreasing_by
  · exact Prod.Lex.right _ (Prod.Lex.right _ Nat.zero_lt_one)
  · exact Prod.Lex.right _ (Prod.Lex.left _ _ (Nat.lt_succ_self _))

end

def matchLoop (re : Str) : Str → Bool
  | [] => matchhere re []
  | t :: text => if matchhere re (t :: text) then true else matchLoop re text

def match' (re text : Str) : Bool :=
  if re.head? = some caret then matchhere re.tail text else matchLoop re text

/-! ## The functions case by case -/

section

variable {c d t : UInt8} {re text : Str}

@[simp] theorem matchhere_nil : matchhere [] text = true := by
  rw [matchhere]

theorem matchhere_star : matchhere (c :: asterisk :: re) text = matchstar c re text := by
  simp [matchhere.eq_def (c :: asterisk :: re)]

theorem matchhere_dollar : matchhere [dollar] text = text.isEmpty := by
  simp [matchhere.eq_def [dollar]]

theorem matchhere_end (h : re.head? ≠ some asterisk) (hend : ¬ (c = dollar ∧ re = [])) :
    matchhere (c :: re) [] = false := by
  simp [matchhere, h, hend]

theorem matchhere_cons (h : re.head? ≠ some asterisk) (hend : ¬ (c = dollar ∧ re = [])) :
    matchhere (c :: re) (t :: text) = (decide (c = dot ∨ c = t) && matchhere re text) := by
  rw [matchhere, if_neg h, if_neg hend]
  by_cases hc : c = dot ∨ c = t
  · simp [hc]
  · simp [hc]

theorem matchstar_nil : matchstar c re [] = matchhere re [] := by
  simp [matchstar]

theorem matchstar_cons : matchstar c re (t :: text) =
    (matchhere re (t :: text) || (decide (c = dot ∨ c = t) && matchstar c re text)) := by
  rw [matchstar]
  by_cases h : matchhere re (t :: text) = true
  · simp [h]
  · by_cases hc : c = dot ∨ c = t
    · have hc' : t = c ∨ c = dot := hc.symm.imp_left Eq.symm
      simp [h, hc, hc']
    · have hc' : ¬ (t = c ∨ c = dot) := fun hor => hc (hor.symm.imp_right Eq.symm)
      simp [h, hc, hc']

end

end SyscallSched.Grep

/-!
## The language of a pattern

A pattern is read from left to right, and is then the product of its items' languages.
-/

namespace SyscallSched.Grep

open SyscallSched.Foundation
open scoped Computability

/-! ## The language -/

inductive Item where
  | one (c : UInt8)
  | star (c : UInt8)
  deriving DecidableEq, Repr

structure Pattern where
  items : List Item
  atEnd : Bool
  deriving DecidableEq, Repr

def Pattern.cons (item : Item) (p : Pattern) : Pattern := ⟨item :: p.items, p.atEnd⟩

def readPattern : Str → Pattern
  | [] => ⟨[], false⟩
  | [c] => if c = dollar then ⟨[], true⟩ else ⟨[.one c], false⟩
  | c :: d :: re =>
      if d = asterisk then
        (readPattern re).cons (.star c)
      else
        (readPattern (d :: re)).cons (.one c)

def Accepts (c x : UInt8) : Prop := c = dot ∨ c = x

def Item.language : Item → Language UInt8
  | .one c => letters (Accepts c)
  | .star c => (letters (Accepts c))∗

def Pattern.language (p : Pattern) : Language UInt8 := (p.items.map Item.language).prod

def anchored (re : Str) : Bool := re.head? = some caret

def body (re : Str) : Str := if anchored re then re.tail else re

example : readPattern [97, 42, 46, 42, 36, 42, 42, 36] =
    ⟨[.star 97, .star dot, .star dollar, .one asterisk], true⟩ := by decide

/-! ## The matcher -/

def Pattern.Begins (p : Pattern) (text : Str) : Prop :=
  Starts p.language (fun b => p.atEnd = true → b = []) text

section

variable {p : Pattern} {item : Item} {c : UInt8} {re text : Str}

@[simp] theorem Pattern.begins_cons :
    (p.cons item).Begins text ↔ Starts item.language p.Begins text := by
  rw [Pattern.Begins, Pattern.language, Pattern.cons, List.map_cons, List.prod_cons, starts_mul]
  exact Iff.rfl

theorem matchstar_iff (h : ∀ text, matchhere re text = true ↔ p.Begins text) :
    matchstar c re text = true ↔ (p.cons (.star c)).Begins text := by
  rw [Pattern.begins_cons, Item.language]
  induction text with
  | nil => rw [matchstar_nil, starts_kstar_letters_nil, h]
  | cons t text ih =>
      rw [matchstar_cons, starts_kstar_letters_cons, Bool.or_eq_true, Bool.and_eq_true,
        decide_eq_true_eq, h, ih, Accepts]

theorem matchhere_one (hstar : re.head? ≠ some asterisk) (hend : ¬ (c = dollar ∧ re = []))
    (h : ∀ text, matchhere re text = true ↔ p.Begins text) :
    matchhere (c :: re) text = true ↔ (p.cons (.one c)).Begins text := by
  rw [Pattern.begins_cons, Item.language]
  cases text with
  | nil => simp [matchhere_end hstar hend]
  | cons t text =>
      rw [matchhere_cons hstar hend, starts_letters_cons, Bool.and_eq_true, decide_eq_true_eq, h,
        Accepts]

theorem matchhere_iff : matchhere re text = true ↔ (readPattern re).Begins text := by
  induction re using readPattern.induct generalizing text with
  | case1 => simp [readPattern, Pattern.Begins, Pattern.language]
  | case2 =>
      simp [readPattern, matchhere_dollar, Pattern.Begins, Pattern.language]
  | case3 c hc =>
      rw [readPattern, if_neg hc]
      apply matchhere_one (p := ⟨[], false⟩) (by simp) (fun h => hc h.1)
      simp [Pattern.Begins, Pattern.language]
  | case4 c re ih =>
      rw [readPattern, if_pos rfl, matchhere_star]
      exact matchstar_iff fun _ => ih
  | case5 c d re hd ih =>
      rw [readPattern, if_neg hd]
      exact matchhere_one (by simpa using hd) (by simp) fun _ => ih

theorem matchLoop_iff : matchLoop re text = true ↔
    ∃ a rest, text = a ++ rest ∧ (readPattern re).Begins rest := by
  induction text with
  | nil => simp [matchLoop, matchhere_iff]
  | cons t text ih =>
      rw [matchLoop]
      constructor
      · intro h
        by_cases hhere : matchhere re (t :: text) = true
        · exact ⟨[], t :: text, rfl, matchhere_iff.mp hhere⟩
        · rw [if_neg hhere] at h
          obtain ⟨a, rest, rfl, hbegins⟩ := ih.mp h
          exact ⟨t :: a, rest, rfl, hbegins⟩
      · rintro ⟨a, rest, htext, hbegins⟩
        cases a with
        | nil =>
            cases htext
            rw [if_pos (matchhere_iff.mpr hbegins)]
        | cons x a =>
            cases htext
            rw [ih.mpr ⟨a, rest, rfl, hbegins⟩, ite_self]

end

/-- `match` finds a word of the pattern in the text. -/
theorem match_iff (re text : Str) : match' re text = true ↔
    ∃ a w b, text = a ++ w ++ b ∧ w ∈ (readPattern (body re)).language ∧
      (anchored re = true → a = []) ∧ ((readPattern (body re)).atEnd = true → b = []) := by
  rw [match']
  by_cases hanchor : re.head? = some caret
  · have htrue : anchored re = true := decide_eq_true hanchor
    rw [if_pos hanchor, matchhere_iff, body, if_pos htrue]
    constructor
    · rintro ⟨w, b, htext, hw, hb⟩
      exact ⟨[], w, b, htext, hw, fun _ => rfl, hb⟩
    · rintro ⟨a, w, b, htext, hw, ha, hb⟩
      rw [ha htrue] at htext
      exact ⟨w, b, htext, hw, hb⟩
  · have hfalse : ¬ anchored re = true := by simpa [anchored] using hanchor
    rw [if_neg hanchor, matchLoop_iff, body, if_neg hfalse]
    constructor
    · rintro ⟨a, rest, htext, w, b, hrest, hw, hb⟩
      refine ⟨a, w, b, ?_, hw, fun h => absurd h hfalse, hb⟩
      rw [htext, hrest, List.append_assoc]
    · rintro ⟨a, w, b, htext, hw, -, hb⟩
      rw [List.append_assoc] at htext
      exact ⟨a, w ++ b, htext, w, b, rfl, hw, hb⟩

end SyscallSched.Grep
