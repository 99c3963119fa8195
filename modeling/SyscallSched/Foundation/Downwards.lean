import Mathlib.Data.List.Basic

/-!
# Regions pushed downwards

Objects are put below one another, each at an address of its own, from `sp` down to
`sp'`.  `P a x` is what holds of the object `x` at the address `a`.  The regions are
apart whatever gaps are left between them.
-/

namespace SyscallSched.Foundation

variable {α : Type} {P Q : Nat → α → Prop} {size : α → Nat} {sp sp' : Nat} {xs : List α}
  {addrs : List Nat}

inductive Pushed (P : Nat → α → Prop) (size : α → Nat) :
    Nat → List α → List Nat → Nat → Prop
  | nil (sp : Nat) : Pushed P size sp [] [] sp
  | cons {sp sp' a : Nat} {x : α} {xs : List α} {addrs : List Nat} (fits : a + size x ≤ sp)
      (holds : P a x) (rest : Pushed P size a xs addrs sp') :
      Pushed P size sp (x :: xs) (a :: addrs) sp'

namespace Pushed

theorem length_eq (h : Pushed P size sp xs addrs sp') : addrs.length = xs.length := by
  induction h with
  | nil sp => rfl
  | cons _ _ _ ih => rw [List.length_cons, List.length_cons, ih]

theorem le (h : Pushed P size sp xs addrs sp') : sp' ≤ sp := by
  induction h with
  | nil sp => exact Nat.le_refl sp
  | cons fits _ _ ih => omega

theorem holds_at (h : Pushed P size sp xs addrs sp') {i : Nat} (hi : i < xs.length)
    (hi' : i < addrs.length) : P addrs[i] xs[i] := by
  induction h generalizing i with
  | nil sp => exact absurd hi (Nat.not_lt_zero i)
  | cons _ holds _ ih =>
      cases i with
      | zero => exact holds
      | succ i => exact ih (Nat.lt_of_succ_lt_succ hi) (Nat.lt_of_succ_lt_succ hi')

theorem within (h : Pushed P size sp xs addrs sp') {i : Nat} (hi : i < xs.length)
    (hi' : i < addrs.length) : sp' ≤ addrs[i] ∧ addrs[i] + size xs[i] ≤ sp := by
  induction h generalizing i with
  | nil sp => exact absurd hi (Nat.not_lt_zero i)
  | cons fits _ rest ih =>
      cases i with
      | zero => exact ⟨rest.le, fits⟩
      | succ i =>
          obtain ⟨hlow, hhigh⟩ := ih (Nat.lt_of_succ_lt_succ hi) (Nat.lt_of_succ_lt_succ hi')
          simp only [List.getElem_cons_succ]
          omega

theorem mem_within (h : Pushed P size sp xs addrs sp') {a : Nat × Nat}
    (ha : a ∈ addrs.zip (xs.map size)) : sp' ≤ a.1 ∧ a.1 + a.2 ≤ sp := by
  obtain ⟨i, hi, rfl⟩ := List.mem_iff_getElem.mp ha
  rw [List.length_zip, List.length_map] at hi
  rw [List.getElem_zip, List.getElem_map]
  exact h.within (by omega) (by omega)

/-- A later region lies below an earlier one. -/
theorem pairwise (h : Pushed P size sp xs addrs sp') :
    (addrs.zip (xs.map size)).Pairwise fun a b => b.1 + b.2 ≤ a.1 := by
  induction h with
  | nil sp => exact List.Pairwise.nil
  | cons _ _ rest ih => exact List.Pairwise.cons (fun _ hb => (rest.mem_within hb).2) ih

theorem mono (h : Pushed P size sp xs addrs sp')
    (hPQ : ∀ a x, sp' ≤ a → a + size x ≤ sp → P a x → Q a x) :
    Pushed Q size sp xs addrs sp' := by
  induction h with
  | nil sp => exact nil sp
  | cons fits holds rest ih =>
      refine cons fits (hPQ _ _ rest.le fits holds) (ih ?_)
      intro a x hlow hhigh
      exact hPQ a x hlow (by omega)

end Pushed

end SyscallSched.Foundation
