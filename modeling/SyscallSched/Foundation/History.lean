import Mathlib.Data.List.Basic

/-!
# Histories

A history is a list of events that grows at its end.  What is said of every event and of the
events before it is said of all places where the list can be cut.
-/

namespace SyscallSched.Foundation

variable {α : Type} {history before rest : List α} {e e' : α}

theorem cut_append (h : history ++ [e] = before ++ e' :: rest) :
    history = before ∧ e = e' ∧ rest = [] ∨
      ∃ front, history = before ++ e' :: front ∧ rest = front ++ [e] := by
  cases List.eq_nil_or_concat rest with
  | inl hnil =>
      rw [hnil] at h
      obtain ⟨hbefore, hlast⟩ := List.append_inj' h rfl
      exact .inl ⟨hbefore, (List.cons.inj hlast).1, hnil⟩
  | inr hconcat =>
      obtain ⟨front, last, hrest⟩ := hconcat
      rw [List.concat_eq_append] at hrest
      rw [hrest, ← List.cons_append, ← List.append_assoc] at h
      obtain ⟨hfront, hlast⟩ := List.append_inj' h rfl
      refine .inr ⟨front, hfront, ?_⟩
      rw [hrest, (List.cons.inj hlast).1]

theorem forall_cut_append {P : List α → α → Prop}
    (h : ∀ before e rest, history = before ++ e :: rest → P before e) (he : P history e) :
    ∀ before e' rest, history ++ [e] = before ++ e' :: rest → P before e' := by
  intro before e' rest hcut
  rcases cut_append hcut with ⟨rfl, rfl, -⟩ | ⟨front, hfront, -⟩
  · exact he
  · exact h before e' front hfront

end SyscallSched.Foundation
