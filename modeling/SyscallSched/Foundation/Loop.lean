import Mathlib.Logic.Function.Iterate
import Mathlib.Data.List.Range

/-!
# While loops

A `while` loop is a guard and a body over a state.  The `n`-th state of a run
is defined for every `n`; once the guard fails the state no longer changes, so
"the run ends in `t`" is the same as "some state of the run is `t` and the
guard fails there".
-/

namespace SyscallSched.Foundation

universe u v

structure Loop (σ : Type u) where
  guard : σ → Bool
  body : σ → σ

namespace Loop

variable {σ : Type u} {τ : Type v}

def next (L : Loop σ) (s : σ) : σ :=
  if L.guard s then L.body s else s

def state (L : Loop σ) (s : σ) : Nat → σ
  | 0 => s
  | n + 1 => L.next (L.state s n)

def Exits (L : Loop σ) (s t : σ) : Prop :=
  ∃ n, L.state s n = t ∧ L.guard t = false

def Terminates (L : Loop σ) (s : σ) : Prop :=
  ∃ t, L.Exits s t

def count (L : Loop σ) (p : σ → Bool) (s : σ) (n : Nat) : Nat :=
  (List.range n).countP fun k => L.guard (L.state s k) && p (L.state s k)

@[simp] theorem state_zero (L : Loop σ) (s : σ) : L.state s 0 = s := rfl

theorem state_succ (L : Loop σ) (s : σ) (n : Nat) :
    L.state s (n + 1) = L.next (L.state s n) := rfl

theorem next_of_guard (L : Loop σ) {s : σ} (h : L.guard s = true) :
    L.next s = L.body s := by
  simp [next, h]

theorem next_of_not_guard (L : Loop σ) {s : σ} (h : L.guard s = false) :
    L.next s = s := by
  simp [next, h]

theorem state_succ_of_guard (L : Loop σ) {s : σ} {n : Nat}
    (h : L.guard (L.state s n) = true) :
    L.state s (n + 1) = L.body (L.state s n) :=
  L.next_of_guard h

theorem state_add (L : Loop σ) (s : σ) (m n : Nat) :
    L.state s (m + n) = L.state (L.state s m) n := by
  induction n with
  | zero => rfl
  | succ n ih =>
      rw [Nat.add_succ, state_succ, state_succ, ih]

theorem state_of_not_guard (L : Loop σ) {s : σ} (h : L.guard s = false)
    (n : Nat) : L.state s n = s := by
  induction n with
  | zero => rfl
  | succ n ih =>
      rw [state_succ, ih, L.next_of_not_guard h]

theorem state_eq_of_exit (L : Loop σ) {s : σ} {n m : Nat}
    (h : L.guard (L.state s n) = false) (hnm : n ≤ m) :
    L.state s m = L.state s n := by
  obtain ⟨k, rfl⟩ := Nat.exists_eq_add_of_le hnm
  rw [state_add, L.state_of_not_guard h]

theorem guard_of_lt (L : Loop σ) {s : σ} {n m : Nat} (hnm : n ≤ m)
    (h : L.guard (L.state s m) = true) : L.guard (L.state s n) = true := by
  cases hn : L.guard (L.state s n) with
  | true => rfl
  | false =>
      rw [L.state_eq_of_exit hn hnm, hn] at h
      contradiction

theorem lt_of_exit (L : Loop σ) {s : σ} {n k : Nat} (hexit : L.guard (L.state s k) = false)
    (h : L.guard (L.state s n) = true) : n < k := by
  by_contra hge
  have hguard := L.guard_of_lt (Nat.not_lt.mp hge) h
  rw [hexit] at hguard
  contradiction

/-- After the exit a run shows no new states. -/
theorem forall_state_of_exit (L : Loop σ) {P : σ → Prop} {s : σ} {k : Nat}
    (hexit : L.guard (L.state s k) = false) (h : ∀ n < k + 1, P (L.state s n)) (n : Nat) :
    P (L.state s n) := by
  rcases Nat.le_total n k with hle | hge
  · exact h n (Nat.lt_succ_of_le hle)
  · rw [L.state_eq_of_exit hexit hge]
    exact h k (Nat.lt_succ_self k)

theorem exits_unique (L : Loop σ) {s t t' : σ} (h : L.Exits s t)
    (h' : L.Exits s t') : t = t' := by
  obtain ⟨n, rfl, hn⟩ := h
  obtain ⟨m, rfl, hm⟩ := h'
  rcases Nat.le_total n m with hle | hle
  · exact (L.state_eq_of_exit hn hle).symm
  · exact L.state_eq_of_exit hm hle

theorem exits_state (L : Loop σ) {s t : σ} (h : L.Exits s t) (n : Nat) :
    L.Exits (L.state s n) t := by
  obtain ⟨m, rfl, hm⟩ := h
  refine ⟨m, ?_, hm⟩
  rw [← state_add, Nat.add_comm, state_add, L.state_of_not_guard hm]

theorem exits_self (L : Loop σ) {s : σ} (h : L.guard s = false) :
    L.Exits s s :=
  ⟨0, rfl, h⟩

theorem invariant (L : Loop σ) {P : σ → Prop} {s : σ} (hs : P s)
    (hbody : ∀ t, P t → L.guard t = true → P (L.body t)) (n : Nat) :
    P (L.state s n) := by
  induction n with
  | zero => exact hs
  | succ n ih =>
      rw [state_succ]
      cases hg : L.guard (L.state s n) with
      | true =>
          rw [L.next_of_guard hg]
          exact hbody _ ih hg
      | false =>
          rw [L.next_of_not_guard hg]
          exact ih

theorem forall_state_iff (L : Loop σ) {P : σ → Prop} {s : σ} :
    (∀ n, P (L.state s n)) ↔
      P s ∧ ∀ n, L.guard (L.state s n) = true → P (L.body (L.state s n)) := by
  constructor
  · intro h
    refine ⟨h 0, ?_⟩
    intro n hg
    rw [← L.state_succ_of_guard hg]
    exact h (n + 1)
  · rintro ⟨h0, hstep⟩ n
    induction n with
    | zero => exact h0
    | succ n ih =>
        rw [state_succ]
        cases hg : L.guard (L.state s n) with
        | true =>
            rw [L.next_of_guard hg]
            exact hstep n hg
        | false =>
            rw [L.next_of_not_guard hg]
            exact ih

/-- If a condition on the state before each iteration decides whether the
iteration keeps `P`, then the condition decides whether the run keeps `P`. -/
theorem forall_state_iff_of_step (L : Loop σ) {P C : σ → Prop} {s : σ}
    (hs : P s) (hstep : ∀ n, L.guard (L.state s n) = true →
      P (L.state s n) → (P (L.body (L.state s n)) ↔ C (L.state s n))) :
    (∀ n, P (L.state s n)) ↔
      ∀ n, L.guard (L.state s n) = true → C (L.state s n) := by
  constructor
  · intro h n hg
    rw [← hstep n hg (h n), ← L.state_succ_of_guard hg]
    exact h (n + 1)
  · intro h n
    induction n with
    | zero => exact hs
    | succ n ih =>
        rw [state_succ]
        cases hg : L.guard (L.state s n) with
        | true =>
            rw [L.next_of_guard hg]
            exact (hstep n hg ih).mpr (h n hg)
        | false =>
            rw [L.next_of_not_guard hg]
            exact ih

/-- A measure that drops in every iteration from an invariant state. -/
theorem terminates_of_measure (L : Loop σ) {P : σ → Prop} (μ : σ → Nat)
    (hbody : ∀ t, P t → L.guard t = true → P (L.body t))
    (hμ : ∀ t, P t → L.guard t = true → μ (L.body t) < μ t)
    {s : σ} (hs : P s) : L.Terminates s := by
  induction hm : μ s using Nat.strong_induction_on generalizing s with
  | h m ih =>
      cases hg : L.guard s with
      | false => exact ⟨s, L.exits_self hg⟩
      | true =>
          have hlt : μ (L.body s) < m := hm ▸ hμ s hs hg
          obtain ⟨t, n, hn, ht⟩ := ih _ hlt (hbody s hs hg) rfl
          refine ⟨t, n + 1, ?_, ht⟩
          rw [Nat.add_comm, state_add]
          change L.state (L.next s) n = t
          rw [L.next_of_guard hg, hn]

/-- A guard that never fails on an invariant excludes an exit. -/
theorem not_terminates_of_invariant (L : Loop σ) {P : σ → Prop} {s : σ}
    (hs : P s) (hbody : ∀ t, P t → L.guard t = true → P (L.body t))
    (hguard : ∀ t, P t → L.guard t = true) : ¬ L.Terminates s := by
  rintro ⟨t, n, rfl, hn⟩
  rw [hguard _ (L.invariant hs hbody n)] at hn
  contradiction

@[simp] theorem count_zero (L : Loop σ) (p : σ → Bool) (s : σ) :
    L.count p s 0 = 0 := rfl

theorem count_succ (L : Loop σ) (p : σ → Bool) (s : σ) (n : Nat) :
    L.count p s (n + 1) = L.count p s n +
      if L.guard (L.state s n) && p (L.state s n) then 1 else 0 := by
  simp [count, List.range_succ, List.countP_append, List.countP_cons]

/-- Two loops whose bodies keep a relation run in lockstep. -/
theorem lockstep (L : Loop σ) (M : Loop τ) {R : σ → τ → Prop}
    (hguard : ∀ s t, R s t → L.guard s = M.guard t)
    (hbody : ∀ s t, R s t → L.guard s = true → R (L.body s) (M.body t))
    {s : σ} {t : τ} (h : R s t) (n : Nat) :
    R (L.state s n) (M.state t n) := by
  induction n with
  | zero => exact h
  | succ n ih =>
      have hg := hguard _ _ ih
      rw [state_succ, state_succ]
      cases hs : L.guard (L.state s n) with
      | true =>
          rw [L.next_of_guard hs, M.next_of_guard (hg ▸ hs)]
          exact hbody _ _ ih hs
      | false =>
          rw [L.next_of_not_guard hs, M.next_of_not_guard (hg ▸ hs)]
          exact ih

end Loop

end SyscallSched.Foundation
