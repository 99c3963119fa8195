import Mathlib.Data.List.Range
import Mathlib.Logic.Function.Basic

/-!
# Array queues that reset when drained

The queue used by simple C programs: an array, the index `front` of the oldest
entry and the index `rear` of the newest one, both `-1` while the queue is
empty.  Entries are appended behind `rear`; removing the last entry resets both
indices.  The array is read as a total function on the integers, so a scan of
the window `front .. rear` of an empty queue reads the cell with index `-1`.
-/

namespace SyscallSched.Foundation

universe u

structure ArrayQueue (α : Type u) where
  cell : Int → α
  front : Int
  rear : Int

namespace ArrayQueue

variable {α : Type u}

/-- The queue as it is declared: both indices are `-1`, the cells arbitrary. -/
def empty (cell : Int → α) : ArrayQueue α := ⟨cell, -1, -1⟩

def window (q : ArrayQueue α) : List α :=
  (List.range (q.rear - q.front + 1).toNat).map fun k : Nat =>
    q.cell (q.front + k)

/-- The entries of the queue, oldest first. -/
def live (q : ArrayQueue α) : List α :=
  if q.front = -1 then [] else q.window

def push (q : ArrayQueue α) (x : α) : ArrayQueue α :=
  if q.rear = -1 then
    { cell := Function.update q.cell 0 x, front := 0, rear := 0 }
  else
    { q with cell := Function.update q.cell (q.rear + 1) x, rear := q.rear + 1 }

def pop (q : ArrayQueue α) : Option (α × ArrayQueue α) :=
  if q.front = -1 then none
  else
    some (q.cell q.front,
      if q.front = q.rear then { q with front := -1, rear := -1 }
      else { q with front := q.front + 1 })

/-- Either empty, or a window of nonnegative indices with at least one entry. -/
def Valid (q : ArrayQueue α) : Prop :=
  (q.front = -1 ∧ q.rear = -1) ∨ (0 ≤ q.front ∧ q.front ≤ q.rear)

theorem valid_empty (cell : Int → α) : (empty cell).Valid := .inl ⟨rfl, rfl⟩

@[simp] theorem live_empty (cell : Int → α) : (empty cell).live = [] := rfl

@[simp] theorem rear_empty (cell : Int → α) : (empty cell).rear = -1 := rfl

@[simp] theorem cell_empty (cell : Int → α) : (empty cell).cell = cell := rfl

variable {q : ArrayQueue α}

theorem live_eq_nil_iff (hq : q.Valid) : q.live = [] ↔ q.front = -1 := by
  rcases hq with ⟨hf, -⟩ | ⟨hf, hr⟩
  · simp [live, hf]
  · have hne : q.front ≠ -1 := by omega
    simp [live, window, hne]
    omega

theorem rear_eq_of_live_nil (hq : q.Valid) (h : q.live = []) :
    q.rear = -1 := by
  have hf := (live_eq_nil_iff hq).mp h
  rcases hq with ⟨-, hr⟩ | ⟨hf', -⟩
  · exact hr
  · omega

theorem window_of_live_nil (hq : q.Valid) (h : q.live = []) :
    q.window = [q.cell (-1)] := by
  have hf := (live_eq_nil_iff hq).mp h
  have hr := rear_eq_of_live_nil hq h
  simp [window, hf, hr]

theorem window_of_live_ne_nil (h : q.live ≠ []) : q.window = q.live := by
  by_cases hf : q.front = -1
  · exact absurd (by simp [live, hf]) h
  · simp [live, hf]

theorem live_length (hq : q.Valid) (h : q.live ≠ []) :
    (q.live.length : Int) = q.rear - q.front + 1 := by
  have hf : q.front ≠ -1 := fun hf => h ((live_eq_nil_iff hq).mpr hf)
  rcases hq with ⟨hf', -⟩ | ⟨hf', hr⟩
  · contradiction
  · simp [live, hf, window]
    omega

theorem live_length_le (hq : q.Valid) : (q.live.length : Int) ≤ q.rear + 1 := by
  by_cases h : q.live = []
  · simp [h, rear_eq_of_live_nil hq h]
  · have hlen := live_length hq h
    have hf : q.front ≠ -1 := fun hf => h ((live_eq_nil_iff hq).mpr hf)
    rcases hq with ⟨hf', -⟩ | ⟨hf', -⟩
    · contradiction
    · omega

theorem valid_push (hq : q.Valid) (x : α) : (q.push x).Valid := by
  by_cases hr : q.rear = -1
  · simp [push, hr, Valid]
  · rcases hq with ⟨-, hr'⟩ | ⟨hf, hfr⟩
    · contradiction
    · refine .inr ?_
      simp only [push, hr, if_false]
      omega

@[simp] theorem rear_push (q : ArrayQueue α) (x : α) :
    (q.push x).rear = q.rear + 1 := by
  by_cases hr : q.rear = -1 <;> simp [push, hr]

theorem cell_push_of_neg (hq : q.Valid) (x : α) {i : Int} (hi : i < 0) :
    (q.push x).cell i = q.cell i := by
  by_cases hr : q.rear = -1
  · simp [push, hr, Function.update_of_ne (show i ≠ 0 by omega)]
  · rcases hq with ⟨-, hr'⟩ | ⟨hf, hfr⟩
    · contradiction
    · simp [push, hr, Function.update_of_ne (show i ≠ q.rear + 1 by omega)]

@[simp] theorem live_push (hq : q.Valid) (x : α) :
    (q.push x).live = q.live ++ [x] := by
  by_cases hr : q.rear = -1
  · rcases hq with ⟨hf, -⟩ | ⟨hf, hfr⟩
    · simp [push, hr, live, hf, window]
    · omega
  · rcases hq with ⟨-, hr'⟩ | ⟨hf, hfr⟩
    · contradiction
    · have hne : q.front ≠ -1 := by omega
      have hlen : (q.rear + 1 - q.front + 1).toNat =
          (q.rear - q.front + 1).toNat + 1 := by omega
      simp only [push, hr, if_false, live, hne, window, hlen,
        List.range_succ, List.map_append, List.map_singleton]
      congr 1
      · apply List.map_congr_left
        intro k hk
        rw [List.mem_range] at hk
        exact Function.update_of_ne (by omega) _ _
      · have hlast : q.front + ((q.rear - q.front + 1).toNat : Int) =
            q.rear + 1 := by omega
        rw [hlast, Function.update_self]

theorem pop_eq_none_iff (hq : q.Valid) : q.pop = none ↔ q.live = [] := by
  rw [live_eq_nil_iff hq]
  by_cases hf : q.front = -1 <;> simp [pop, hf]

theorem pop_of_live_cons (hq : q.Valid) {x : α} {xs : List α}
    (h : q.live = x :: xs) :
    ∃ q', q.pop = some (x, q') ∧ q'.Valid ∧ q'.live = xs ∧
      q'.cell = q.cell ∧ q'.rear = if xs = [] then -1 else q.rear := by
  have hne : q.live ≠ [] := by simp [h]
  have hf : q.front ≠ -1 := fun hf => hne ((live_eq_nil_iff hq).mpr hf)
  have hlen := live_length hq hne
  have hwin : q.window = x :: xs := (window_of_live_ne_nil hne).trans h
  obtain ⟨hf0, hfr⟩ : 0 ≤ q.front ∧ q.front ≤ q.rear := by
    rcases hq with ⟨hf', -⟩ | h'
    · contradiction
    · exact h'
  have hsucc : (q.rear - q.front + 1).toNat =
      (q.rear - q.front).toNat + 1 := by omega
  rw [window, hsucc, List.range_succ_eq_map, List.map_cons,
    List.map_map] at hwin
  obtain ⟨hx, hxs⟩ := List.cons_eq_cons.mp hwin
  have hx' : q.cell q.front = x := by simpa using hx
  by_cases hlast : q.front = q.rear
  · have hnil : xs = [] := by
      rw [← hxs]
      simp [hlast]
    refine ⟨{ q with front := -1, rear := -1 }, ?_, .inl ⟨rfl, rfl⟩, ?_, rfl, ?_⟩
    · rw [pop, if_neg hf, if_pos hlast, hx']
    · simp [live, hnil]
    · simp [hnil]
  · have hxsne : xs ≠ [] := by
      rw [← hxs]
      simp
      omega
    refine ⟨{ q with front := q.front + 1 }, ?_, ?_, ?_, rfl, ?_⟩
    · rw [pop, if_neg hf, if_neg hlast, hx']
    · exact .inr ⟨by simp only; omega, by simp only; omega⟩
    · have hf1 : q.front + 1 ≠ -1 := by omega
      have hcount : (q.rear - (q.front + 1) + 1).toNat =
          (q.rear - q.front).toNat := by omega
      rw [live, if_neg hf1, window, hcount, ← hxs]
      apply List.map_congr_left
      intro k _
      simp only [Function.comp_apply]
      congr 1
      push_cast
      omega
    · simp [hxsne]

end ArrayQueue

end SyscallSched.Foundation
