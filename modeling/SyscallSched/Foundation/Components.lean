import Mathlib.Data.List.Basic

/-!
# Components

The components of a list are the longest parts of it without a separator.  Going through
them one after the other is `List.foldlM`; it fails at the first one that leads nowhere.
-/

namespace SyscallSched.Foundation

variable {α β : Type}

/-! ## Taking a list apart -/

section

variable [DecidableEq α] {sep c : α} {l w : List α}

def components (sep : α) (l : List α) : List (List α) := (l.splitOn sep).filter (· ≠ [])

@[simp] theorem components_nil : components sep [] = [] := by
  simp [components]

@[simp] theorem components_cons_sep : components sep (sep :: l) = components sep l := by
  simp [components, List.splitOn_cons_eq_if_modifyHead]

theorem components_dropWhile (sep : α) (l : List α) :
    components sep (l.dropWhile (· = sep)) = components sep l := by
  induction l with
  | nil => rfl
  | cons c l ih =>
      by_cases hc : c = sep
      · subst hc
        simpa using ih
      · simp [hc]

theorem components_singleton (hw : w ≠ []) (hsep : sep ∉ w) : components sep w = [w] := by
  simp [components, List.splitOn_eq_singleton hsep, hw]

theorem components_append (hw : w ≠ []) (hsep : sep ∉ w) :
    components sep (w ++ sep :: l) = w :: components sep l := by
  rw [components, List.splitOn_append_cons_self, List.splitOn_eq_singleton hsep]
  simp [components, hw]

theorem components_cons (hc : c ≠ sep) :
    components sep (c :: l) = (c :: l).takeWhile (· ≠ sep) ::
      components sep ((c :: l).dropWhile (· ≠ sep)) := by
  have hword : (c :: l).takeWhile (fun x => decide (x ≠ sep)) ≠ [] := by
    simp [hc]
  have hsep : sep ∉ (c :: l).takeWhile (fun x => decide (x ≠ sep)) := by
    intro hmem
    simpa using List.all_eq_true.mp List.all_takeWhile sep hmem
  have hsplit := List.takeWhile_append_dropWhile (p := fun x => decide (x ≠ sep)) (l := c :: l)
  conv_lhs => rw [← hsplit]
  cases hrest : (c :: l).dropWhile fun x => decide (x ≠ sep) with
  | nil => rw [List.append_nil, components_singleton hword hsep, components_nil]
  | cons d rest =>
      have hd : d = sep := by
        have hhead := List.head?_dropWhile_not (fun x => decide (x ≠ sep)) (c :: l)
        rw [hrest] at hhead
        simpa using hhead
      rw [hd, components_append hword hsep, components_cons_sep]

theorem ne_of_dropWhile_sep (h : l.dropWhile (· = sep) = c :: w) : c ≠ sep := by
  have hhead := List.head?_dropWhile_not (fun c => decide (c = sep)) l
  rw [h] at hhead
  simpa using hhead

theorem length_behind_lt (h : l.dropWhile (· = sep) = c :: w) :
    (((c :: w).dropWhile (· ≠ sep)).dropWhile (· = sep)).length < l.length := by
  have hc := ne_of_dropWhile_sep h
  have hdrop := (List.dropWhile_suffix (fun c => decide (c = sep)) (l := l)).length_le
  have hword := (List.dropWhile_suffix (fun c => decide (c ≠ sep)) (l := w)).length_le
  have hrest := (List.dropWhile_suffix (fun c => decide (c = sep))
    (l := w.dropWhile fun c => decide (c ≠ sep))).length_le
  rw [List.dropWhile_cons_of_pos (by simpa using hc)]
  rw [h, List.length_cons] at hdrop
  omega

theorem components_eq_nil_iff : components sep l = [] ↔ l.dropWhile (· = sep) = [] := by
  rw [← components_dropWhile]
  cases h : l.dropWhile fun c => decide (c = sep) with
  | nil => simp
  | cons c rest =>
      rw [components_cons (ne_of_dropWhile_sep h)]
      simp

end

/-! ## Following a list -/

variable {f : β → α → Option β} {b d : β} {as : List α} {a a' : α}

theorem foldlM_eq_none_iff : as.foldlM f b = none ↔ ∃ before a after d,
    as = before ++ a :: after ∧ before.foldlM f b = some d ∧ f d a = none := by
  induction as generalizing b with
  | nil => simp
  | cons a as ih =>
      rw [List.foldlM_cons]
      cases hstep : f b a with
      | none =>
          refine iff_of_true rfl ⟨[], a, as, b, rfl, rfl, hstep⟩
      | some d =>
          constructor
          · intro h
            obtain ⟨before, a', after, e, rfl, hbefore, hnone⟩ := ih.mp h
            refine ⟨a :: before, a', after, e, rfl, ?_, hnone⟩
            rw [List.foldlM_cons, hstep]
            exact hbefore
          · rintro ⟨before, a', after, e, heq, hbefore, hnone⟩
            apply ih.mpr
            cases before with
            | nil =>
                cases heq
                cases hbefore
                rw [hstep] at hnone
                cases hnone
            | cons a'' before =>
                cases heq
                rw [List.foldlM_cons, hstep] at hbefore
                exact ⟨before, a', after, e, rfl, hbefore, hnone⟩

end SyscallSched.Foundation

/-!
## Lines

The lines of a text are the pieces that a separator ends; what follows the last separator
is not one of them.
-/

namespace SyscallSched.Foundation

variable {α : Type} [DecidableEq α] {sep : α} {l w : List α}

def lines (sep : α) (l : List α) : List (List α) := (l.splitOn sep).dropLast

theorem lines_eq_nil (h : sep ∉ l) : lines sep l = [] := by
  rw [lines, List.splitOn_eq_singleton h]
  rfl

theorem lines_append (h : sep ∉ w) : lines sep (w ++ sep :: l) = w :: lines sep l := by
  rw [lines, List.splitOn_append_cons_self, List.splitOn_eq_singleton h, List.singleton_append,
    List.dropLast_cons_of_ne_nil (List.splitOn_ne_nil sep l), lines]

theorem lines_append_takeWhile {p : List α → Bool} (h : sep ∉ w)
    (hlong : ∀ v, p (w ++ v) = false) : (lines sep (w ++ l)).takeWhile p = [] := by
  by_cases hsep : sep ∈ l
  · obtain ⟨v, rest, rfl, hv⟩ := List.eq_append_cons_of_mem hsep
    rw [← List.append_assoc, lines_append (by simp [h, hv]), List.takeWhile_cons, hlong]
    rfl
  · rw [lines_eq_nil (by simp [h, hsep])]
    rfl

end SyscallSched.Foundation
