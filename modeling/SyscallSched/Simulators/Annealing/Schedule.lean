import Mathlib.Algebra.BigOperators.Group.Finset.Piecewise
import Mathlib.Algebra.Order.BigOperators.Group.Finset
import Mathlib.Algebra.Order.Ring.Int
import Mathlib.Data.Nat.Cast.Basic
import SyscallSched.Simulators.Annealing.Best

/-!
# The schedule of an assignment

`calculate_metrics` places the processes in input order, each after the last one of its
processor.  The invariants go over a prefix of the input and all loads at once.
-/

namespace SyscallSched.Simulators.Annealing

def Process.start (p : Process) : Int := p.ct - p.bt

/-- The fields that `calculate_metrics` reads. -/
def times (p : Process) : Int × Int := (p.at, p.bt)

def metricsOf (p : Process) : Int × Int × Int × Int × Int := (p.pr, p.ct, p.tat, p.wt, p.rt)

/-! ## One process -/

section

variable {load : Nat → Int} {processor : Nat} {p : Process}

theorem startTime_eq_max (arrivalTime : Int) :
    startTime load processor arrivalTime = max (load processor) arrivalTime := by
  rw [startTime]
  split <;> omega

@[simp] theorem start_place :
    (p.place load processor).start = max (load processor) p.at := by
  simp only [Process.start, Process.place, startTime_eq_max]
  omega

@[simp] theorem ct_place :
    (p.place load processor).ct = max (load processor) p.at + p.bt := by
  simp only [Process.place, startTime_eq_max]

@[simp] theorem pr_place : (p.place load processor).pr = processor := rfl

/-- What one call writes into a record. -/
structure Scheduled (p : Process) (processor : Nat) (q : Process) : Prop where
  identity : identity q = identity p
  arrived : q.at ≤ q.start
  tat : q.tat = q.ct - q.at
  wt : q.wt = q.start - q.at
  waits : 0 ≤ q.wt
  rt : q.rt = q.start - q.at
  pr : q.pr = processor

theorem scheduled_place : Scheduled p processor (p.place load processor) := by
  constructor
  case identity => rfl
  case arrived =>
    rw [start_place]
    exact le_max_right _ _
  case tat => rfl
  case wt =>
    simp only [Process.start, Process.place]
    omega
  case waits =>
    simp only [Process.place, startTime_eq_max]
    omega
  case rt =>
    simp only [Process.start, Process.place]
    omega
  case pr => rfl

end

/-! ## The whole array -/

theorem placeAll_cons (load : Nat → Int) (p : Process) (ps : List Process) (processor : Nat)
    (assignments : List Nat) :
    placeAll load (p :: ps) (processor :: assignments) =
      (p.place load processor ::
        (placeAll (Function.update load processor (p.place load processor).ct) ps assignments).1,
      (placeAll (Function.update load processor (p.place load processor).ct) ps assignments).2) :=
  rfl

theorem placeAll_scheduled (load : Nat → Int) {ps : List Process} {assignments : List Nat} {i : Nat}
    {p : Process} {processor : Nat} (hp : ps[i]? = some p)
    (hprocessor : assignments[i]? = some processor) :
    ∃ q, (placeAll load ps assignments).1[i]? = some q ∧ Scheduled p processor q := by
  induction ps generalizing load assignments i with
  | nil => simp at hp
  | cons p₀ ps ih =>
      cases assignments with
      | nil => simp at hprocessor
      | cons processor₀ assignments =>
          rw [placeAll_cons]
          cases i with
          | zero =>
              simp only [List.getElem?_cons_zero, Option.some.injEq] at hp hprocessor
              subst p₀ processor₀
              exact ⟨_, rfl, scheduled_place⟩
          | succ i =>
              simp only [List.getElem?_cons_succ] at hp hprocessor ⊢
              exact ih _ hp hprocessor

theorem placeAll_ordered (load : Nat → Int) {ps : List Process} {assignments : List Nat}
    (hbt : ∀ p ∈ ps, 0 ≤ p.bt) (hlength : assignments.length = ps.length) :
    (∀ q ∈ (placeAll load ps assignments).1, ∀ i : Nat, q.pr = i → load i ≤ q.start) ∧
      (placeAll load ps assignments).1.Pairwise fun q r => q.pr = r.pr → q.ct ≤ r.start := by
  induction ps generalizing load assignments with
  | nil =>
      cases assignments with
      | nil => simp [placeAll]
      | cons processor assignments => simp at hlength
  | cons p ps ih =>
      cases assignments with
      | nil => simp at hlength
      | cons processor assignments =>
          simp only [List.length_cons, Nat.add_right_cancel_iff] at hlength
          obtain ⟨hload, hpairs⟩ := ih
            (Function.update load processor (p.place load processor).ct)
            (fun q hq => hbt q (by simp [hq])) hlength
          have hp := hbt p (by simp)
          rw [placeAll_cons]
          constructor
          · intro q hq i hi
            cases List.mem_cons.mp hq with
            | inl heq =>
                subst q
                rw [pr_place] at hi
                have hsame : processor = i := by omega
                subst i
                rw [start_place]
                exact le_max_left _ _
            | inr hmem =>
                have hle := hload q hmem i hi
                by_cases hsame : i = processor
                · subst i
                  rw [Function.update_self, ct_place] at hle
                  omega
                · rwa [Function.update_of_ne hsame] at hle
          · refine List.pairwise_cons.mpr ⟨?_, hpairs⟩
            intro r hr hsame
            have hle := hload r hr processor (by rw [← hsame, pr_place])
            rwa [Function.update_self] at hle

theorem placeAll_work {processors : Nat} (load : Nat → Int) {ps : List Process}
    {assignments : List Nat} (h : Assigns processors ps.length assignments) :
    (∑ i ∈ Finset.range processors, load i) + (ps.map Process.bt).sum ≤
      ∑ i ∈ Finset.range processors, (placeAll load ps assignments).2 i := by
  induction ps generalizing load assignments with
  | nil =>
      cases assignments with
      | nil => simp [placeAll]
      | cons processor assignments => simp [Assigns] at h
  | cons p ps ih =>
      cases assignments with
      | nil => simp [Assigns] at h
      | cons processor assignments =>
          have hprocessor : processor ∈ Finset.range processors :=
            Finset.mem_range.mpr (h.2 processor (by simp))
          have hrest : Assigns processors ps.length assignments := by
            refine ⟨by simpa using h.1, ?_⟩
            intro i hi
            exact h.2 i (by simp [hi])
          have hgrow := ih (Function.update load processor (p.place load processor).ct) hrest
          have hold := Finset.add_sum_erase (Finset.range processors) load hprocessor
          rw [Finset.sum_update_of_mem hprocessor, ct_place, ← Finset.erase_eq] at hgrow
          have hmax := le_max_left (load processor) p.at
          rw [placeAll_cons, List.map_cons, List.sum_cons]
          simp only [ct_place]
          omega

theorem metricsOf_placeAll_congr (load : Nat → Int) {ps qs : List Process} {assignments : List Nat}
    (h : ps.map times = qs.map times) (hlength : assignments.length = ps.length) :
    (placeAll load ps assignments).1.map metricsOf =
        (placeAll load qs assignments).1.map metricsOf ∧
      (placeAll load ps assignments).2 = (placeAll load qs assignments).2 := by
  induction ps generalizing load qs assignments with
  | nil =>
      cases qs with
      | nil => exact ⟨rfl, rfl⟩
      | cons q qs => simp at h
  | cons p ps ih =>
      cases qs with
      | nil => simp at h
      | cons q qs =>
          cases assignments with
          | nil => simp at hlength
          | cons processor assignments =>
              simp only [List.map_cons, List.cons.injEq] at h
              simp only [List.length_cons, Nat.add_right_cancel_iff] at hlength
              have htimes : p.at = q.at ∧ p.bt = q.bt := by simpa [times] using h.1
              have hct : (p.place load processor).ct = (q.place load processor).ct := by
                rw [ct_place, ct_place, htimes.1, htimes.2]
              have hmetrics : metricsOf (p.place load processor) =
                  metricsOf (q.place load processor) := by
                simp only [metricsOf, Process.place, htimes.1, htimes.2]
              obtain ⟨hrest, hloads⟩ := ih
                (Function.update load processor (q.place load processor).ct) h.2 hlength
              rw [placeAll_cons, placeAll_cons, hct]
              refine ⟨?_, hloads⟩
              rw [List.map_cons, List.map_cons, hmetrics, hrest]

/-! ## The schedule -/

def Process.Apart (q r : Process) : Prop :=
  ∀ t, ¬ ((q.start ≤ t ∧ t < q.ct) ∧ r.start ≤ t ∧ t < r.ct)

structure ValidSchedule (processors : Nat) (ps : List Process) (assignments : List Nat)
    (result : List Process × Int) : Prop where
  length : result.1.length = ps.length
  scheduled : ∀ {i : Nat} {p processor q}, ps[i]? = some p → assignments[i]? = some processor →
    result.1[i]? = some q → Scheduled p processor q
  apart : ∀ {i j : Nat} {q r}, i ≠ j → result.1[i]? = some q → result.1[j]? = some r → q.pr = r.pr →
    q.Apart r
  most : ∀ q ∈ result.1, q.ct ≤ result.2
  reached : ps ≠ [] → ∃ q ∈ result.1, q.ct = result.2
  none : ps = [] → result.2 = 0
  bound : ∀ p ∈ ps, p.at + p.bt ≤ result.2
  work : (ps.map Process.bt).sum ≤ processors * result.2

section

variable {processors : Nat} {ps : List Process} {assignments : List Nat}

theorem calculateMetrics_apart (hbt : ∀ p ∈ ps, 0 ≤ p.bt)
    (hlength : assignments.length = ps.length) {i j : Nat} {q r : Process} (hij : i ≠ j)
    (hq : (calculateMetrics processors ps assignments).1[i]? = some q)
    (hr : (calculateMetrics processors ps assignments).1[j]? = some r) (hpr : q.pr = r.pr) :
    q.Apart r := by
  have hpairs := (placeAll_ordered (fun _ => 0) hbt hlength).2
  have hordered : ∀ {a b : Nat} {x y : Process}, a < b →
      (placeAll (fun _ => 0) ps assignments).1[a]? = some x →
      (placeAll (fun _ => 0) ps assignments).1[b]? = some y → x.pr = y.pr → x.ct ≤ y.start := by
    intro a b x y hab hx hy hxy
    obtain ⟨ha, rfl⟩ := List.getElem?_eq_some_iff.mp hx
    obtain ⟨hb, rfl⟩ := List.getElem?_eq_some_iff.mp hy
    exact List.pairwise_iff_getElem.mp hpairs a b ha hb hab hxy
  intro t ht
  rcases Nat.lt_or_gt_of_ne hij with hlt | hgt
  · have hle := hordered hlt hq hr hpr
    omega
  · have hle := hordered hgt hr hq hpr.symm
    omega

theorem calculateMetrics_work (hprocessors : 1 ≤ processors)
    (h : Assigns processors ps.length assignments) :
    (ps.map Process.bt).sum ≤ processors * (calculateMetrics processors ps assignments).2 := by
  obtain ⟨hmax, _⟩ := interval_spec hprocessors (placeAll (fun _ => 0) ps assignments).2
  have hwork := placeAll_work (fun _ => 0) h
  have hsum := Finset.sum_le_card_nsmul (Finset.range processors)
    (placeAll (fun _ => 0) ps assignments).2
    (calculateMetrics processors ps assignments).2
    (fun i hi => hmax i (Finset.mem_range.mp hi))
  rw [Finset.sum_const_zero, Int.zero_add] at hwork
  rw [Finset.card_range, nsmul_eq_mul] at hsum
  exact hwork.trans hsum

theorem calculateMetrics_nil (hprocessors : 1 ≤ processors) (assignments : List Nat) :
    (calculateMetrics processors [] assignments).2 = 0 := by
  have hloads : (placeAll (fun _ => 0) [] assignments).2 = fun _ => 0 := by
    cases assignments <;> rfl
  obtain ⟨_, i, _, hi⟩ := interval_spec hprocessors (fun _ => 0)
  rw [calculateMetrics, hloads]
  exact hi

end

/-- The schedule is valid, and it depends on the arrival and burst times and the assignment
only. -/
theorem calculateMetrics_valid (processors : Nat) (hprocessors : 1 ≤ processors)
    (ps : List Process) (htimes : ∀ p ∈ ps, 0 ≤ p.at ∧ 0 ≤ p.bt) (assignments : List Nat)
    (hassigns : Assigns processors ps.length assignments) :
    ValidSchedule processors ps assignments (calculateMetrics processors ps assignments) ∧
      ∀ ps', ps'.map times = ps.map times →
        (calculateMetrics processors ps' assignments).1.map metricsOf =
            (calculateMetrics processors ps assignments).1.map metricsOf ∧
          (calculateMetrics processors ps' assignments).2 =
            (calculateMetrics processors ps assignments).2 := by
  have hbt : ∀ p ∈ ps, 0 ≤ p.bt := fun p hp => (htimes p hp).2
  have hlength : (calculateMetrics processors ps assignments).1.length = ps.length := by
    have hmap := congrArg List.length (map_identity_calculateMetrics processors ps assignments)
    simpa using hmap
  have hscheduled : ∀ {i : Nat} {p processor q}, ps[i]? = some p →
      assignments[i]? = some processor →
      (calculateMetrics processors ps assignments).1[i]? = some q → Scheduled p processor q := by
    intro i p processor q hp hprocessor hq
    obtain ⟨q', hq', hq''⟩ := placeAll_scheduled (fun _ => 0) hp hprocessor
    have hsame : q' = q := Option.some.inj (hq'.symm.trans hq)
    rwa [← hsame]
  have hmost : ∀ q ∈ (calculateMetrics processors ps assignments).1,
      q.ct ≤ (calculateMetrics processors ps assignments).2 := by
    by_cases hne : ps = []
    · intro q hq
      have hnil : (calculateMetrics processors ps assignments).1 = [] :=
        List.eq_nil_of_length_eq_zero (by rw [hlength, hne]; rfl)
      rw [hnil] at hq
      cases hq
    · exact (calculateMetrics_interval hprocessors hne htimes hassigns.1 hassigns.2).1
  refine ⟨?_, ?_⟩
  · constructor
    case length => exact hlength
    case scheduled => exact hscheduled
    case apart => exact calculateMetrics_apart hbt hassigns.1
    case most => exact hmost
    case reached =>
      intro hne
      exact (calculateMetrics_interval hprocessors hne htimes hassigns.1 hassigns.2).2
    case none =>
      intro hnil
      subst ps
      exact calculateMetrics_nil hprocessors assignments
    case bound =>
      intro p hp
      obtain ⟨i, hi, rfl⟩ := List.getElem_of_mem hp
      have hi' : i < assignments.length := by rw [hassigns.1]; exact hi
      obtain ⟨q, hq, hplaced⟩ := placeAll_scheduled (fun _ => 0)
        (List.getElem?_eq_getElem hi) (List.getElem?_eq_getElem hi')
      have hle := hmost q (List.mem_of_getElem? hq)
      have harrived := hplaced.arrived
      have hsame : q.at = ps[i].at ∧ q.bt = ps[i].bt := by
        have hidentity := hplaced.identity
        simp only [identity, Request.mk.injEq] at hidentity
        exact hidentity.2
      rw [Process.start] at harrived
      omega
    case work => exact calculateMetrics_work hprocessors hassigns
  · intro ps' hps'
    have hcount : assignments.length = ps'.length := by
      have hmap := congrArg List.length hps'
      simp only [List.length_map] at hmap
      rw [hassigns.1, hmap]
    obtain ⟨htable, hloads⟩ := metricsOf_placeAll_congr (fun _ => 0) hps' hcount
    refine ⟨htable, ?_⟩
    simp only [calculateMetrics, hloads]

/-- Three processes on two processors, the second one placed before the first arrival. -/
theorem calculateMetrics_valid_three :
    ValidSchedule 2 (createProcesses [⟨1, 3, 2⟩, ⟨2, 0, 4⟩, ⟨3, 1, 1⟩]) [0, 1, 0]
      (calculateMetrics 2 (createProcesses [⟨1, 3, 2⟩, ⟨2, 0, 4⟩, ⟨3, 1, 1⟩]) [0, 1, 0]) :=
  (calculateMetrics_valid 2 (by decide) (createProcesses [⟨1, 3, 2⟩, ⟨2, 0, 4⟩, ⟨3, 1, 1⟩])
    (by decide) [0, 1, 0] ⟨rfl, by decide⟩).1

end SyscallSched.Simulators.Annealing
