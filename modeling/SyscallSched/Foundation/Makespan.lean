import Mathlib.Algebra.Order.Ring.Int
import Mathlib.Algebra.BigOperators.Group.List.Basic
import Mathlib.Algebra.Order.BigOperators.Group.List
import Mathlib.Data.List.Perm.Basic
import Mathlib.Order.Monotone.Basic
import Mathlib.Tactic.Ring

/-!
# Makespan of one server

Tasks with a release time and an amount of work.  A server that takes the tasks
in order of their release times and waits for each of them finishes at
`finishTime`.  So does every server that works in unit steps and is idle only
while no released task has work left: neither a unit of work on a released task
nor such an idle step changes the time at which the rest will be finished.
-/

namespace SyscallSched.Foundation

abbrev Task := Int × Int

def finishTime (t : Int) (tasks : List Task) : Int :=
  tasks.foldl (fun m task => max m task.1 + task.2) t

@[simp] theorem finishTime_nil (t : Int) : finishTime t [] = t := rfl

@[simp] theorem finishTime_cons (t : Int) (task : Task) (tasks : List Task) :
    finishTime t (task :: tasks) =
      finishTime (max t task.1 + task.2) tasks := rfl

theorem finishTime_append (t : Int) (before after : List Task) :
    finishTime t (before ++ after) = finishTime (finishTime t before) after :=
  List.foldl_append

theorem finishTime_released {t : Int} {tasks : List Task}
    (hreleased : ∀ task ∈ tasks, task.1 ≤ t) (hwork : ∀ task ∈ tasks, 0 ≤ task.2) :
    finishTime t tasks = t + (tasks.map Prod.snd).sum := by
  induction tasks generalizing t with
  | nil => simp
  | cons task tasks ih =>
      have hhead := hreleased task (by simp)
      have hnonneg := hwork task (by simp)
      have hmax : max t task.1 + task.2 = t + task.2 := by omega
      have hrest := ih (t := t + task.2)
        (fun a ha => (hreleased a (by simp [ha])).trans (by omega))
        (fun a ha => hwork a (by simp [ha]))
      rw [finishTime_cons, hmax, hrest, List.map_cons, List.sum_cons]
      exact Int.add_assoc _ _ _

theorem finishTime_serve {t r w : Int} {before after : List Task}
    (hreleased : r ≤ t)
    (hsorted : (before ++ (r, w) :: after).Pairwise fun a b => a.1 ≤ b.1)
    (hwork : ∀ task ∈ before, 0 ≤ task.2) :
    finishTime (t + 1) (before ++ (r, w - 1) :: after) =
      finishTime t (before ++ (r, w) :: after) := by
  have hbefore : ∀ task ∈ before, task.1 ≤ t := by
    intro task htask
    have hle := (List.pairwise_append.mp hsorted).2.2 task htask (r, w) (by simp)
    exact hle.trans hreleased
  have hsum : 0 ≤ (before.map Prod.snd).sum := by
    apply List.sum_nonneg
    intro x hx
    obtain ⟨task, htask, rfl⟩ := List.mem_map.mp hx
    exact hwork task htask
  rw [finishTime_append, finishTime_append, finishTime_released hbefore hwork,
    finishTime_released (fun a ha => (hbefore a ha).trans (by omega)) hwork,
    finishTime_cons, finishTime_cons]
  congr 1
  simp only
  omega

theorem finishTime_idle {t : Int} {tasks : List Task}
    (hidle : ∀ task ∈ tasks, (task.2 = 0 ∧ task.1 ≤ t) ∨ t < task.1)
    (hexists : ∃ task ∈ tasks, t < task.1) :
    finishTime (t + 1) tasks = finishTime t tasks := by
  induction tasks with
  | nil => simp at hexists
  | cons task tasks ih =>
      cases hidle task (by simp) with
      | inl hdone =>
          have hrest := ih (fun a ha => hidle a (by simp [ha])) (by
            obtain ⟨a, ha, hlt⟩ := hexists
            cases List.mem_cons.mp ha with
            | inl heq =>
                subst a
                omega
            | inr hmem => exact ⟨a, hmem, hlt⟩)
          have hnow : max t task.1 + task.2 = t := by omega
          have hnext : max (t + 1) task.1 + task.2 = t + 1 := by omega
          rw [finishTime_cons, finishTime_cons, hnow, hnext, hrest]
      | inr hlater =>
          have hmax : max (t + 1) task.1 = max t task.1 := by omega
          rw [finishTime_cons, finishTime_cons, hmax]

theorem finishTime_done {t : Int} {tasks : List Task}
    (hdone : ∀ task ∈ tasks, task.2 = 0 ∧ task.1 ≤ t) : finishTime t tasks = t := by
  induction tasks with
  | nil => rfl
  | cons task tasks ih =>
      have hhead := hdone task (by simp)
      have hnow : max t task.1 + task.2 = t := by omega
      rw [finishTime_cons, hnow]
      exact ih fun a ha => hdone a (by simp [ha])

end SyscallSched.Foundation

/-!
## The delay of one party of a queue

A run is seen from one party that is served in turns until it is done.  `next n` says that it
is the next to be served and `delay n` is what it has waited so far: the delay stands while
the party is next or done and grows when another is served.  So a delay that has not grown
means that the party, once served, was the next one after each of its turns.
-/

namespace SyscallSched.Foundation

/-- The run from its `m`-th state on. -/
structure Waits (m : Nat) (delay : Nat → Int) (done next : Nat → Prop) : Prop where
  done_stays : ∀ n, m ≤ n → done n → done (n + 1)
  not_done_of_next : ∀ n, m ≤ n → next n → ¬ done n
  delay_of_done : ∀ n, m ≤ n → done n → delay (n + 1) = delay n
  delay_of_next : ∀ n, m ≤ n → next n → delay (n + 1) = delay n
  /-- A step for another party may take no time, but then it does not bring the turn. -/
  other : ∀ n, m ≤ n → ¬ done n → ¬ next n → ¬ done (n + 1) ∧ delay n ≤ delay (n + 1) ∧
    (delay (n + 1) = delay n → ¬ next (n + 1))

namespace Waits

variable {m : Nat} {delay : Nat → Int} {done next : Nat → Prop}

theorem delay_le_succ (h : Waits m delay done next) {n : Nat} (hmn : m ≤ n) :
    delay n ≤ delay (n + 1) := by
  by_cases hdone : done n
  · exact (h.delay_of_done n hmn hdone).ge
  · by_cases hnext : next n
    · exact (h.delay_of_next n hmn hnext).ge
    · exact (h.other n hmn hdone hnext).2.1

theorem delay_le (h : Waits m delay done next) {n k : Nat} (hmn : m ≤ n) (hnk : n ≤ k) :
    delay n ≤ delay k := by
  induction hnk with
  | refl => exact Int.le_refl _
  | step hnk ih => exact ih.trans (h.delay_le_succ (hmn.trans hnk))

theorem done_le (h : Waits m delay done next) {n k : Nat} (hmn : m ≤ n) (hnk : n ≤ k)
    (hdone : done n) : done k := by
  induction hnk with
  | refl => exact hdone
  | step hnk ih => exact h.done_stays _ (hmn.trans hnk) ih

/-- With a constant delay the turn never comes to a party that has to wait for it. -/
theorem not_done_of_waiting (h : Waits m delay done next) {n k : Nat} (hmn : m ≤ n)
    (hnk : n ≤ k) (hconst : ∀ i, n ≤ i → i < k → delay (i + 1) = delay i) (hdone : ¬ done n)
    (hnext : ¬ next n) : ¬ done k ∧ ¬ next k := by
  induction hnk with
  | refl => exact ⟨hdone, hnext⟩
  | @step k hnk ih =>
      obtain ⟨hdone', hnext'⟩ := ih fun i hi hik => hconst i hi (Nat.lt_succ_of_lt hik)
      obtain ⟨hstill, _, hwait⟩ := h.other k (hmn.trans hnk) hdone' hnext'
      exact ⟨hstill, hwait (hconst k hnk (Nat.lt_succ_self k))⟩

/-- A party that is done has not waited since the `m`-th state if and only if it was next or
done there, and after each of its turns. -/
theorem delay_eq_iff (h : Waits m delay done next) {k : Nat} (hmk : m ≤ k) (hdone : done k) :
    delay k = delay m ↔
      (done m ∨ next m) ∧ ∀ n, m ≤ n → next n → done (n + 1) ∨ next (n + 1) := by
  constructor
  · intro heq
    have hconst : ∀ i, m ≤ i → i < k → delay (i + 1) = delay i := by
      intro i hmi hik
      have hfirst := h.delay_le (Nat.le_refl m) hmi
      have hstep := h.delay_le_succ hmi
      have hlast := h.delay_le (k := k) (n := i + 1) (by omega) (by omega)
      omega
    -- a party that has to wait in state `n` is not done at `k`
    have hserved : ∀ n, m ≤ n → n ≤ k → done n ∨ next n := by
      intro n hmn hnk
      by_contra hwaits
      rw [not_or] at hwaits
      exact (h.not_done_of_waiting hmn hnk (fun i hi => hconst i (hmn.trans hi)) hwaits.1
        hwaits.2).1 hdone
    refine ⟨hserved m (Nat.le_refl m) hmk, ?_⟩
    intro n hmn hnext
    have hlt : n < k := by
      by_contra hge
      exact h.not_done_of_next n hmn hnext (h.done_le hmk (Nat.not_lt.mp hge) hdone)
    exact hserved (n + 1) (Nat.le_succ_of_le hmn) hlt
  · rintro ⟨hstart, hturns⟩
    have hkept : ∀ n, m ≤ n → (done n ∨ next n) ∧ delay n = delay m := by
      intro n hmn
      induction hmn with
      | refl => exact ⟨hstart, rfl⟩
      | @step n hmn ih =>
          obtain ⟨hserved, hsame⟩ := ih
          rcases hserved with hdone | hnext
          · exact ⟨.inl (h.done_stays n hmn hdone), (h.delay_of_done n hmn hdone).trans hsame⟩
          · exact ⟨hturns n hmn hnext, (h.delay_of_next n hmn hnext).trans hsame⟩
    exact (hkept k hmk).2

end Waits

end SyscallSched.Foundation
