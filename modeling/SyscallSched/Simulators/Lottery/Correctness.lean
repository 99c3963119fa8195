import SyscallSched.Simulators.Lottery.Invariant

/-!
# Termination and results of the lottery loop

A process without tickets is never drawn, so the loop ends exactly when every
process has a ticket, whatever the stream is.  When it ends, the records hold
the metrics of a schedule in which each process first ran at its response time.
-/

namespace SyscallSched.Simulators.Lottery

open SyscallSched.Foundation

/-! ## Termination -/

theorem calculateTotalTickets_eq_zero_iff {head : List Process}
    {currentTime : Int} (htt : ∀ p ∈ head, 1 ≤ p.tt) :
    calculateTotalTickets head currentTime = 0 ↔
      ∀ p ∈ head, ¬ p.Drawable currentTime := by
  induction head with
  | nil => simp [calculateTotalTickets]
  | cons temp rest ih =>
      have hrest : ∀ p ∈ rest, 1 ≤ p.tt := fun p hp => htt p (by simp [hp])
      have htemp := htt temp (by simp)
      have hnonneg := calculateTotalTickets_nonneg
        (fun p hp => Int.le_trans (by decide) (hrest p hp)) currentTime
      rw [calculateTotalTickets_cons, List.forall_mem_cons, ← ih hrest]
      by_cases hdraw : temp.Drawable currentTime
      · simp only [hdraw, if_true, not_true_eq_false, false_and, iff_false]
        omega
      · simp [hdraw]

def work (head : List Process) : Int := (head.map Process.remainingTime).sum

theorem work_nonneg {s : State} (h : Consistent s) : 0 ≤ work s.head := by
  apply List.sum_nonneg
  intro r hr
  obtain ⟨p, hp, rfl⟩ := List.mem_map.mp hr
  exact (h.kept p hp).nonneg

theorem work_serve {s : State} {i : Nat} {p : Process}
    (hp : s.head[i]? = some p) : work (serve s i p).head = work s.head - 1 := by
  obtain ⟨before, after, hsplit, hmodify⟩ :=
    modify_split hp (Process.tick s.currentTime)
  simp only [work, serve, hmodify]
  simp only [hsplit, List.map_append, List.map_cons, List.sum_append,
    List.sum_cons, tick_remainingTime]
  omega

theorem exists_uncompleted {s : State} (h : Consistent s)
    (hactive : s.activeProcesses > 0) : ∃ p ∈ s.head, p.completed = false := by
  rw [h.active] at hactive
  have hpos : 0 < s.head.countP fun p => !p.completed := by omega
  obtain ⟨p, hp, hcompleted⟩ := List.countP_pos_iff.mp hpos
  exact ⟨p, hp, by simpa using hcompleted⟩

def Ticketed (last : Int) (s : State) : Prop :=
  ∀ p ∈ s.head, 1 ≤ p.tt ∧ p.at ≤ last

theorem ticketed_step {last : Int} {s : State} (rand : Nat → Nat)
    (h : Consistent s) (hticketed : Ticketed last s) :
    Ticketed last (step rand s) := by
  rcases step_cases rand fun p hp => (h.kept p hp).tickets with
    ⟨-, -, hstep⟩ | ⟨i, p, -, hp, -, -, hstep⟩
  · rw [hstep]
    exact hticketed
  · rw [hstep]
    intro q hq
    cases mem_serve hp hq with
    | inl heq =>
        subst q
        exact hticketed p (List.mem_of_getElem? hp)
    | inr hmem => exact hticketed q hmem

def remaining (last : Int) (s : State) : Nat :=
  (work s.head).toNat + (last - s.currentTime).toNat

theorem remaining_step {last : Int} {s : State} (rand : Nat → Nat)
    (h : Consistent s) (hticketed : Ticketed last s)
    (hactive : s.activeProcesses > 0) :
    remaining last (step rand s) < remaining last s := by
  rcases step_cases rand fun p hp => (h.kept p hp).tickets with
    ⟨-, htotal, hstep⟩ | ⟨i, p, -, hp, hdraw, -, hstep⟩
  · obtain ⟨q, hq, hcompleted⟩ := exists_uncompleted h hactive
    have hnone := (calculateTotalTickets_eq_zero_iff
      fun p hp => (hticketed p hp).1).mp htotal q hq
    have hlast := (hticketed q hq).2
    have hlater : s.currentTime < q.at := by
      by_contra hle
      exact hnone ⟨hcompleted, by omega⟩
    rw [hstep]
    simp only [remaining, idle]
    omega
  · have hnonneg := work_nonneg (consistent_serve h hp hdraw)
    have hwork := work_serve hp
    rw [hstep]
    simp only [remaining]
    rw [hwork] at hnonneg ⊢
    simp only [serve]
    omega

theorem exists_last (head : List Process) : ∃ last, ∀ p ∈ head, p.at ≤ last := by
  induction head with
  | nil => exact ⟨0, by simp⟩
  | cons temp rest ih =>
      obtain ⟨last, hlast⟩ := ih
      refine ⟨max temp.at last, ?_⟩
      intro p hp
      cases List.mem_cons.mp hp with
      | inl heq =>
          subst p
          exact Int.le_max_left _ _
      | inr hmem => exact (hlast p hmem).trans (Int.le_max_right _ _)

theorem ends_of_ticketed {head : List Process} (h : Admissible head)
    (htt : ∀ p ∈ head, 1 ≤ p.tt) (rand : Nat → Nat) :
    ∃ final, Ends rand head final := by
  obtain ⟨last, hlast⟩ := exists_last head
  refine (loop rand).terminates_of_measure (remaining last)
    (P := fun s => Consistent s ∧ Ticketed last s) ?_ ?_
    ⟨consistent_start h, fun p hp => ⟨htt p hp, hlast p hp⟩⟩
  · intro s hs _
    exact ⟨consistent_step hs.1, ticketed_step rand hs.1 hs.2⟩
  · intro s hs hguard
    exact remaining_step rand hs.1 hs.2 (by simpa [loop] using hguard)

theorem starved_step {s : State} (rand : Nat → Nat) (h : Consistent s)
    (hstarved : ∃ p ∈ s.head, p.tt = 0 ∧ p.completed = false) :
    ∃ p ∈ (step rand s).head, p.tt = 0 ∧ p.completed = false := by
  obtain ⟨p, hp, htt, hcompleted⟩ := hstarved
  rcases step_cases rand fun p hp => (h.kept p hp).tickets with
    ⟨-, -, hstep⟩ | ⟨i, q, -, hq, -, hticket, hstep⟩
  · rw [hstep]
    exact ⟨p, hp, htt, hcompleted⟩
  · refine ⟨p, ?_, htt, hcompleted⟩
    obtain ⟨before, after, hsplit, hmodify⟩ :=
      modify_split hq (Process.tick s.currentTime)
    rw [hstep, serve]
    simp only [hmodify, List.mem_append, List.mem_cons]
    simp only [hsplit, List.mem_append, List.mem_cons] at hp
    rcases hp with hp | heq | hp
    · exact .inl hp
    · rw [heq] at htt
      omega
    · exact .inr (.inr hp)

theorem not_ends_of_starved {head : List Process} (h : Admissible head)
    {p : Process} (hp : p ∈ head) (htt : p.tt = 0) (rand : Nat → Nat) :
    ¬ ∃ final, Ends rand head final := by
  refine (loop rand).not_terminates_of_invariant
    (P := fun s => Consistent s ∧ ∃ p ∈ s.head, p.tt = 0 ∧ p.completed = false)
    ⟨consistent_start h, p, hp, htt, (h.fresh p hp).2.1⟩ ?_ ?_
  · intro s hs _
    exact ⟨consistent_step hs.1, starved_step rand hs.1 hs.2⟩
  · intro s hs
    obtain ⟨hconsistent, q, hq, -, hcompleted⟩ := hs
    have hpos : 0 < s.head.countP fun p => !p.completed :=
      List.countP_pos_iff.mpr ⟨q, hq, by simp [hcompleted]⟩
    have hactive := hconsistent.active
    simp only [loop, decide_eq_true_eq]
    omega

/-! ## The first tick of a process -/

/-- Iteration `n` runs and selects position `i`. -/
def Picked (rand : Nat → Nat) (head : List Process) (n i : Nat) : Prop :=
  (loop rand).guard ((loop rand).state (start head) n) = true ∧
    selected rand ((loop rand).state (start head) n) = some i

def FirstPicked (rand : Nat → Nat) (head : List Process) (n i : Nat) : Prop :=
  Picked rand head n i ∧ ∀ m < n, ¬ Picked rand head m i

def Responded (rand : Nat → Nat) (head : List Process) (n i : Nat)
    (p : Process) : Prop :=
  (p.rt = -1 ∧ ∀ m < n, ¬ Picked rand head m i) ∨
    (0 ≤ p.rt ∧ ∃ m < n, FirstPicked rand head m i ∧
      p.rt = ((loop rand).state (start head) m).currentTime - p.at)

theorem responded_succ {rand : Nat → Nat} {head : List Process} {n i : Nat}
    {p : Process} (h : Responded rand head n i p)
    (hnot : ¬ Picked rand head n i) : Responded rand head (n + 1) i p := by
  cases h with
  | inl hnever =>
      refine .inl ⟨hnever.1, ?_⟩
      intro m hm
      cases Nat.lt_succ_iff_lt_or_eq.mp hm with
      | inl hlt => exact hnever.2 m hlt
      | inr heq =>
          subst m
          exact hnot
  | inr hfirst =>
      obtain ⟨hpos, m, hm, hpicked, hrt⟩ := hfirst
      exact .inr ⟨hpos, m, Nat.lt_succ_of_lt hm, hpicked, hrt⟩

theorem responded_tick {rand : Nat → Nat} {head : List Process} {n i : Nat}
    {p : Process} (h : Responded rand head n i p)
    (hpicked : Picked rand head n i)
    (hdraw : p.Drawable ((loop rand).state (start head) n).currentTime) :
    Responded rand head (n + 1) i
      (p.tick ((loop rand).state (start head) n).currentTime) := by
  have hat := hdraw.2
  cases h with
  | inl hnever =>
      refine .inr ⟨?_, n, Nat.lt_succ_self n, ⟨hpicked, hnever.2⟩, ?_⟩
      · rw [tick_rt, if_pos hnever.1]
        omega
      · rw [tick_rt, if_pos hnever.1, tick_at]
  | inr hfirst =>
      obtain ⟨hpos, m, hm, hpicked, hrt⟩ := hfirst
      have hne : p.rt ≠ -1 := by omega
      refine .inr ⟨?_, m, Nat.lt_succ_of_lt hm, hpicked, ?_⟩
      · rw [tick_rt, if_neg hne]
        exact hpos
      · rw [tick_rt, if_neg hne, tick_at]
        exact hrt

theorem responded_run {head : List Process} (h : Admissible head)
    (rand : Nat → Nat) (n : Nat) : ∀ {i : Nat} {p : Process},
      ((loop rand).state (start head) n).head[i]? = some p →
        Responded rand head n i p := by
  induction n with
  | zero =>
      intro i p hp
      refine .inl ⟨(h.fresh p (List.mem_of_getElem? hp)).2.2, ?_⟩
      intro m hm
      omega
  | succ n ih =>
      intro i p hp
      have hs := consistent_run h rand n
      cases hguard : (loop rand).guard ((loop rand).state (start head) n) with
      | false =>
          rw [(loop rand).state_succ, (loop rand).next_of_not_guard hguard] at hp
          refine responded_succ (ih hp) ?_
          intro hpicked
          rw [hpicked.1] at hguard
          contradiction
      | true =>
          rw [(loop rand).state_succ_of_guard hguard] at hp
          rcases step_cases rand fun p hp => (hs.kept p hp).tickets with
            ⟨hsel, -, hstep⟩ | ⟨j, q, hsel, hq, hdraw, -, hstep⟩
          · rw [show (loop rand).body = step rand from rfl, hstep] at hp
            refine responded_succ (ih hp) ?_
            intro hpicked
            rw [hpicked.2] at hsel
            contradiction
          · rw [show (loop rand).body = step rand from rfl, hstep] at hp
            simp only [serve] at hp
            by_cases hij : j = i
            · subst j
              rw [List.getElem?_modify_eq, hq] at hp
              cases hp
              exact responded_tick (ih hq) ⟨hguard, hsel⟩ hdraw
            · rw [List.getElem?_modify_ne _ _ hij] at hp
              refine responded_succ (ih hp) ?_
              intro hpicked
              rw [hpicked.2, Option.some.injEq] at hsel
              exact hij hsel.symm

/-! ## Results -/

theorem completed_of_ends {head : List Process} (h : Admissible head)
    {rand : Nat → Nat} {final : State} (hends : Ends rand head final) :
    ∀ p ∈ final.head, p.completed = true ∧ p.remainingTime = 0 ∧
      Kept final.currentTime p := by
  obtain ⟨n, rfl, hexit⟩ := hends
  have hs := consistent_run h rand n
  intro p hp
  have hkept := hs.kept p hp
  have hcompleted : p.completed = true := by
    by_contra hnot
    have hpos : 0 < List.countP (fun p => !p.completed)
        ((loop rand).state (start head) n).head :=
      List.countP_pos_iff.mpr ⟨p, hp, by simpa using hnot⟩
    have hactive := hs.active
    simp only [loop, decide_eq_false_iff_not] at hexit
    simp only [loop] at hactive hpos
    omega
  exact ⟨hcompleted, hkept.completed_iff.mp hcompleted, hkept⟩

theorem nodup_ct_of_ends {head : List Process} (h : Admissible head)
    {rand : Nat → Nat} {final : State} (hends : Ends rand head final) :
    (final.head.map Process.ct).Nodup := by
  have hcompleted := completed_of_ends h hends
  obtain ⟨n, rfl, -⟩ := hends
  have hs := consistent_run h rand n
  rw [List.nodup_iff_getElem?_ne_getElem?]
  intro i j hij hj heq
  rw [List.length_map] at hj
  rw [List.getElem?_map, List.getElem?_map, List.getElem?_eq_getElem hj,
    List.getElem?_eq_getElem (hij.trans hj), Option.map_some, Option.map_some,
    Option.some.injEq] at heq
  exact hs.distinct i j _ _ (Nat.ne_of_lt hij)
    (List.getElem?_eq_getElem (hij.trans hj)) (List.getElem?_eq_getElem hj)
    (hcompleted _ (List.getElem_mem _)).1 (hcompleted _ (List.getElem_mem _)).1 heq

/-- The record that is printed for the process read as `v`. -/
structure Reported (v : Request) (p : Process) : Prop where
  input : identity p = v
  completed : p.completed = true
  remaining : p.remainingTime = 0
  le_ct : p.at + p.bt ≤ p.ct
  tat : p.tat = p.ct - p.at
  wt : p.wt = p.ct - p.at - p.bt
  rt_nonneg : 0 ≤ p.rt
  rt_le : p.rt ≤ p.wt

/-- The lottery loop ends exactly if every process has a ticket.  All along
`active_processes` is the number of uncompleted processes, and at the end every
record holds the metrics of a completed process. -/
theorem lottery_correct (processors : Int) (input : List Request)
    (htt : ∀ v ∈ input, 0 ≤ v.tt) (hbt : ∀ v ∈ input, 1 ≤ v.bt)
    (rand : Nat → Nat) :
    let head := assignProcessors processors (createProcesses input)
    let run := (loop rand).state (start head)
    ((∃ final, Ends rand head final) ↔ ∀ v ∈ input, 1 ≤ v.tt) ∧
    (∀ n, (run n).activeProcesses =
      (run n).head.countP fun p => !p.completed) ∧
    ∀ final, Ends rand head final →
      (final.head.map Process.ct).Nodup ∧
      (calculateMetrics final.head).length = input.length ∧
      ∀ i v p, input[i]? = some v →
        (calculateMetrics final.head)[i]? = some p →
          Reported v p ∧ ∃ n, FirstPicked rand head n i ∧
            p.rt = (run n).currentTime - p.at := by
  intro head run
  have h : Admissible head := admissible_input processors htt hbt
  have hidentity : head.map identity = input := map_identity_input processors input
  refine ⟨?_, fun n => (consistent_run h rand n).active, ?_⟩
  · constructor
    · intro hends v hv
      by_contra hnone
      rw [← hidentity] at hv
      obtain ⟨p, hp, rfl⟩ := List.mem_map.mp hv
      have hnonneg := h.tickets p hp
      have hzero : p.tt = 0 := by
        change ¬ 1 ≤ p.tt at hnone
        omega
      exact not_ends_of_starved h hp hzero rand hends
    · intro htickets
      refine ends_of_ticketed h ?_ rand
      intro p hp
      have hmem : identity p ∈ input := hidentity ▸ List.mem_map_of_mem hp
      exact htickets _ hmem
  · intro final hends
    have hinput : final.head.map identity = input := by
      obtain ⟨n, rfl, -⟩ := hends
      rw [map_identity_run, hidentity]
    refine ⟨nodup_ct_of_ends h hends, ?_, ?_⟩
    · rw [← hinput, calculateMetrics, List.length_map, List.length_map]
    · intro i v q hv hq
      rw [calculateMetrics, List.getElem?_map, Option.map_eq_some_iff] at hq
      obtain ⟨p, hp, rfl⟩ := hq
      obtain ⟨hcompleted, hzero, hkept⟩ :=
        completed_of_ends h hends p (List.mem_of_getElem? hp)
      have hbt' := hkept.bt_pos
      have hrt := (hkept.served (by omega)).1
      have hct := (hkept.finished hzero).2
      have hne : p.rt ≠ -1 := by omega
      have hv' : identity p = v := by
        rw [← hinput, List.getElem?_map, hp] at hv
        simpa using hv
      have hmetrics : (p.metrics).rt = p.rt := by simp [Process.metrics, hne]
      constructor
      · refine ⟨hv', hcompleted, hzero, ?_, rfl, rfl, ?_, ?_⟩
        · change p.at + p.bt ≤ p.ct
          omega
        · rw [hmetrics]
          exact hrt
        · rw [hmetrics]
          change p.rt ≤ p.ct - p.at - p.bt
          omega
      · obtain ⟨n, hn, -⟩ := hends
        rw [← hn] at hp
        cases responded_run h rand n hp with
        | inl hnever => exact absurd hnever.1 hne
        | inr hfirst =>
            obtain ⟨-, m, -, hpicked, heq⟩ := hfirst
            refine ⟨m, hpicked, ?_⟩
            rw [hmetrics]
            exact heq

theorem lottery_two_processes :
    ∃ final, Ends (fun n => 5 * n + 3) (assignProcessors 2 (createProcesses
      [⟨1, 2, 0, 3⟩, ⟨2, 1, 5, 2⟩])) final ∧ (final.head.map Process.ct).Nodup := by
  have h := lottery_correct 2 [⟨1, 2, 0, 3⟩, ⟨2, 1, 5, 2⟩] (by decide) (by decide)
    fun n => 5 * n + 3
  obtain ⟨final, hends⟩ := h.1.mpr (by decide)
  exact ⟨final, hends, (h.2.2 final hends).1⟩

end SyscallSched.Simulators.Lottery
