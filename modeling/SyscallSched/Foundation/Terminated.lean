import Mathlib.Data.List.Basic
import Mathlib.Logic.Function.Basic

/-!
# Reading up to a terminator

`readUntil` reads a stream from a place on until it has read the terminator, finds no element,
or has read as many elements as it may.  Two readings one after the other are one reading.
`fill` puts elements into a buffer one after the other.
-/

namespace SyscallSched.Foundation

variable {α : Type} [DecidableEq α]

/-- The elements that are read, with the terminator, and whether it was among them. -/
def readUntil (stop : α) (src : Nat → Option α) : Nat → Nat → List α × Bool
  | 0, _ => ([], false)
  | n + 1, i =>
      match src i with
      | none => ([], false)
      | some a =>
          if a = stop then ([a], true)
          else (a :: (readUntil stop src n (i + 1)).1, (readUntil stop src n (i + 1)).2)

structure TerminatedAt (stop : α) (src : Nat → Option α) (i k : Nat) : Prop where
  last : src (i + k) = some stop
  before : ∀ j < k, ∃ a, src (i + j) = some a ∧ a ≠ stop

variable {stop a : α} {src : Nat → Option α} {n i j k : Nat}

theorem readUntil_none (h : src i = none) : readUntil stop src n i = ([], false) := by
  cases n with
  | zero => rfl
  | succ n => simp [readUntil, h]

theorem readUntil_stop (h : src i = some stop) : readUntil stop src (n + 1) i = ([stop], true) := by
  simp [readUntil, h]

theorem readUntil_more (h : src i = some a) (hne : a ≠ stop) : readUntil stop src (n + 1) i =
    (a :: (readUntil stop src n (i + 1)).1, (readUntil stop src n (i + 1)).2) := by
  simp [readUntil, h, hne]

theorem readUntil_cases (stop : α) (src : Nat → Option α) (i : Nat) :
    src i = none ∨ src i = some stop ∨ ∃ a, src i = some a ∧ a ≠ stop := by
  cases h : src i with
  | none => exact .inl rfl
  | some a =>
      cases hstop : decide (a = stop) with
      | true => exact .inr (.inl (by rw [of_decide_eq_true hstop]))
      | false => exact .inr (.inr ⟨a, rfl, of_decide_eq_false hstop⟩)

theorem length_readUntil_le (stop : α) (src : Nat → Option α) (n i : Nat) :
    (readUntil stop src n i).1.length ≤ n := by
  induction n generalizing i with
  | zero => simp [readUntil]
  | succ n ih =>
      rcases readUntil_cases stop src i with h | h | ⟨a, h, hne⟩
      · simp [readUntil_none h]
      · simp [readUntil_stop h]
      · simpa [readUntil_more h hne] using ih (i + 1)

theorem readUntil_at (h : j < (readUntil stop src n i).1.length) :
    (readUntil stop src n i).1[j]? = src (i + j) := by
  induction n generalizing i j with
  | zero => simp [readUntil] at h
  | succ n ih =>
      rcases readUntil_cases stop src i with hi | hi | ⟨a, hi, hne⟩
      · simp [readUntil_none hi] at h
      · rw [readUntil_stop hi] at h ⊢
        obtain rfl : j = 0 := by simpa using h
        exact hi.symm
      · rw [readUntil_more hi hne] at h ⊢
        cases j with
        | zero => exact hi.symm
        | succ j =>
            have hrest := ih (Nat.lt_of_succ_lt_succ h)
            rw [Nat.add_assoc, Nat.add_comm 1 j] at hrest
            exact hrest

omit [DecidableEq α] in
theorem terminatedAt_zero : TerminatedAt stop src i 0 ↔ src i = some stop := by
  constructor
  · exact TerminatedAt.last
  · intro h
    exact ⟨h, fun j hj => absurd hj (Nat.not_lt_zero j)⟩

omit [DecidableEq α] in
theorem terminatedAt_succ : TerminatedAt stop src i (k + 1) ↔
    (∃ a, src i = some a ∧ a ≠ stop) ∧ TerminatedAt stop src (i + 1) k := by
  have hnext : ∀ j, i + 1 + j = i + (j + 1) := fun j => by omega
  constructor
  · intro h
    refine ⟨h.before 0 (Nat.succ_pos k), ?_, ?_⟩
    · rw [hnext]
      exact h.last
    · intro j hj
      rw [hnext]
      exact h.before (j + 1) (Nat.succ_lt_succ hj)
  · rintro ⟨hfirst, h⟩
    constructor
    case last =>
        rw [← hnext]
        exact h.last
    case before =>
        intro j hj
        cases j with
        | zero => exact hfirst
        | succ j =>
            rw [← hnext]
            exact h.before j (Nat.lt_of_succ_lt_succ hj)

/-- It finds the terminator if that is one of the elements that it may read. -/
theorem readUntil_found (hk : k < n) (h : TerminatedAt stop src i k) :
    (readUntil stop src n i).2 = true ∧ (readUntil stop src n i).1.length = k + 1 := by
  induction k generalizing n i with
  | zero =>
      obtain ⟨n, rfl⟩ := Nat.exists_eq_succ_of_ne_zero (Nat.ne_of_gt hk)
      rw [Nat.succ_eq_add_one, readUntil_stop (terminatedAt_zero.mp h)]
      exact ⟨rfl, rfl⟩
  | succ k ih =>
      obtain ⟨n, rfl⟩ := Nat.exists_eq_succ_of_ne_zero (Nat.ne_of_gt (Nat.zero_lt_of_lt hk))
      obtain ⟨⟨a, ha, hne⟩, hrest⟩ := terminatedAt_succ.mp h
      obtain ⟨hfound, hlength⟩ := ih (Nat.lt_of_succ_lt_succ hk) hrest
      rw [Nat.succ_eq_add_one, readUntil_more ha hne]
      exact ⟨hfound, congrArg Nat.succ hlength⟩

theorem readUntil_found_iff :
    (readUntil stop src n i).2 = true ↔ ∃ k < n, TerminatedAt stop src i k := by
  constructor
  · intro hfound
    induction n generalizing i with
    | zero => simp [readUntil] at hfound
    | succ n ih =>
        rcases readUntil_cases stop src i with h | h | ⟨a, h, hne⟩
        · simp [readUntil_none h] at hfound
        · exact ⟨0, Nat.succ_pos n, terminatedAt_zero.mpr h⟩
        · rw [readUntil_more h hne] at hfound
          obtain ⟨k, hk, hrest⟩ := ih hfound
          exact ⟨k + 1, Nat.succ_lt_succ hk, terminatedAt_succ.mpr ⟨⟨a, h, hne⟩, hrest⟩⟩
  · rintro ⟨k, hk, h⟩
    exact (readUntil_found hk h).1

/-! ## One reading after the other -/

theorem readUntil_add_found (hfound : (readUntil stop src n i).2 = true) :
    readUntil stop src (n + k) i = readUntil stop src n i := by
  induction n generalizing i with
  | zero => simp [readUntil] at hfound
  | succ n ih =>
      rw [Nat.add_right_comm]
      rcases readUntil_cases stop src i with h | h | ⟨a, h, hne⟩
      · rw [readUntil_none h, readUntil_none h]
      · rw [readUntil_stop h, readUntil_stop h]
      · rw [readUntil_more h hne] at hfound
        rw [readUntil_more h hne, readUntil_more h hne, ih hfound]

theorem readUntil_add_full (hsome : ∀ j < n, src (i + j) ≠ none)
    (hmissed : (readUntil stop src n i).2 = false) :
    readUntil stop src (n + k) i =
      ((readUntil stop src n i).1 ++ (readUntil stop src k (i + n)).1,
        (readUntil stop src k (i + n)).2) := by
  induction n generalizing i with
  | zero => simp [readUntil]
  | succ n ih =>
      have hnext : ∀ j, i + 1 + j = i + (j + 1) := fun j => by omega
      rw [Nat.add_right_comm]
      rcases readUntil_cases stop src i with h | h | ⟨a, h, hne⟩
      · exact absurd h (hsome 0 (Nat.succ_pos n))
      · simp [readUntil_stop h] at hmissed
      · rw [readUntil_more h hne] at hmissed
        have hrest := ih (fun j hj => by rw [hnext]; exact hsome (j + 1) (Nat.succ_lt_succ hj))
          hmissed
        rw [readUntil_more h hne, readUntil_more h hne, hrest, hnext]
        rfl

/-! ## A buffer that is filled -/

section

variable {α : Type} {buf : Nat → α} {d i : Nat} {l : List α}

/-- The buffer after the elements of the list were stored from `d` on. -/
def fill (buf : Nat → α) (d : Nat) : List α → Nat → α
  | [] => buf
  | a :: l => fill (Function.update buf d a) (d + 1) l

theorem fill_append (buf : Nat → α) (d : Nat) (l l' : List α) :
    fill buf d (l ++ l') = fill (fill buf d l) (d + l.length) l' := by
  induction l generalizing buf d with
  | nil => rfl
  | cons a l ih =>
      rw [List.cons_append, fill, fill, ih, List.length_cons, Nat.add_assoc,
        Nat.add_comm 1 l.length]

theorem fill_outside (h : i < d ∨ d + l.length ≤ i) : fill buf d l i = buf i := by
  induction l generalizing buf d with
  | nil => rfl
  | cons a l ih =>
      rw [List.length_cons] at h
      have hne : i ≠ d := by omega
      rw [fill, ih (by omega), Function.update_of_ne hne]

theorem fill_inside (hi : i < l.length) : fill buf d l (d + i) = l[i] := by
  induction l generalizing buf d i with
  | nil => exact absurd hi (Nat.not_lt_zero i)
  | cons a l ih =>
      rw [fill]
      cases i with
      | zero =>
          change fill (Function.update buf d a) (d + 1) l d = a
          rw [fill_outside (.inl (Nat.lt_succ_self d)), Function.update_self]
      | succ i =>
          have hrest := @ih (Function.update buf d a) (d + 1) i (Nat.lt_of_succ_lt_succ hi)
          rw [Nat.add_assoc, Nat.add_comm 1 i] at hrest
          exact hrest

end

end SyscallSched.Foundation
