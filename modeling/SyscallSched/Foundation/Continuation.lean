import Mathlib.Computability.Language

/-!
# Languages with a continuation

A text starts with a word of a language if what follows the word is as the continuation
asks.  A matcher that tries the words one after the other decides this, and the laws say
how it goes on for each way to build a language.
-/

namespace SyscallSched.Foundation

open scoped Computability

variable {α : Type}

def Starts (L : Language α) (P : List α → Prop) (text : List α) : Prop :=
  ∃ w b, text = w ++ b ∧ w ∈ L ∧ P b

def letters (A : α → Prop) : Language α := {w | ∃ x, A x ∧ w = [x]}

section

variable {L M : Language α} {A : α → Prop} {P : List α → Prop} {text : List α} {t : α}

@[simp] theorem starts_one : Starts 1 P text ↔ P text := by
  simp [Starts]

theorem starts_mul : Starts (L * M) P text ↔ Starts L (Starts M P) text := by
  constructor
  · rintro ⟨w, b, rfl, hw, hb⟩
    obtain ⟨u, hu, v, hv, rfl⟩ := Language.mem_mul.mp hw
    exact ⟨u, v ++ b, List.append_assoc u v b, hu, v, b, rfl, hv, hb⟩
  · rintro ⟨u, _, rfl, hu, v, b, rfl, hv, hb⟩
    exact ⟨u ++ v, b, (List.append_assoc u v b).symm, Language.append_mem_mul hu hv, hb⟩

theorem starts_add : Starts (L + M) P text ↔ Starts L P text ∨ Starts M P text := by
  constructor
  · rintro ⟨w, b, htext, hw, hb⟩
    cases (Language.mem_add L M w).mp hw with
    | inl hL => exact .inl ⟨w, b, htext, hL, hb⟩
    | inr hM => exact .inr ⟨w, b, htext, hM, hb⟩
  · rintro (⟨w, b, htext, hw, hb⟩ | ⟨w, b, htext, hw, hb⟩)
    · exact ⟨w, b, htext, (Language.mem_add L M w).mpr (.inl hw), hb⟩
    · exact ⟨w, b, htext, (Language.mem_add L M w).mpr (.inr hw), hb⟩

@[simp] theorem starts_letters_nil : ¬ Starts (letters A) P [] := by
  rintro ⟨w, b, htext, ⟨x, -, rfl⟩, -⟩
  cases htext

@[simp] theorem starts_letters_cons : Starts (letters A) P (t :: text) ↔ A t ∧ P text := by
  constructor
  · rintro ⟨w, b, htext, ⟨x, hx, rfl⟩, hb⟩
    cases htext
    exact ⟨hx, hb⟩
  · rintro ⟨ht, htext⟩
    exact ⟨[t], text, rfl, ⟨t, ht, rfl⟩, htext⟩

theorem starts_kstar : Starts L∗ P text ↔ P text ∨ Starts L (Starts L∗ P) text := by
  conv_lhs => rw [← Language.one_add_self_mul_kstar_eq_kstar]
  rw [starts_add, starts_one, starts_mul]

@[simp] theorem starts_kstar_letters_nil : Starts (letters A)∗ P [] ↔ P [] := by
  rw [starts_kstar, or_iff_left starts_letters_nil]

theorem starts_kstar_letters_cons : Starts (letters A)∗ P (t :: text) ↔
    P (t :: text) ∨ A t ∧ Starts (letters A)∗ P text := by
  rw [starts_kstar, starts_letters_cons]

end

end SyscallSched.Foundation
