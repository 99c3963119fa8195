import Mathlib.Algebra.Order.Group.Int
import Mathlib.Data.List.GetD
import SyscallSched.Simulators.Annealing.Model

/-!
# The best assignment of the search

`calculate_metrics` writes every field that it does not read, so a shared array
does not carry anything from one call to the next.  The best interval is never
larger than the current one, hence it is also the least among the neighbours
that were rejected.
-/

namespace SyscallSched.Simulators.Annealing

/-! ## What `calculate_metrics` reads -/

/-- The fields that `calculate_metrics` does not write. -/
def identity (p : Process) : Request := ⟨p.pid, p.at, p.bt⟩

theorem place_congr {load : Nat → Int} {processor : Nat} {p q : Process}
    (h : identity p = identity q) :
    p.place load processor = q.place load processor := by
  cases p
  cases q
  simp only [identity, Request.mk.injEq] at h
  obtain ⟨rfl, rfl, rfl⟩ := h
  rfl

theorem placeAll_congr {load : Nat → Int} {ps qs : List Process}
    {assignments : List Nat} (h : ps.map identity = qs.map identity)
    (hlength : assignments.length = ps.length) :
    placeAll load ps assignments = placeAll load qs assignments := by
  induction ps generalizing load qs assignments with
  | nil =>
      cases qs with
      | nil => rfl
      | cons q qs => simp at h
  | cons p ps ih =>
      cases qs with
      | nil => simp at h
      | cons q qs =>
          cases assignments with
          | nil => simp at hlength
          | cons processor assignments =>
              simp only [List.map_cons, List.cons.injEq] at h
              simp only [List.length_cons, Nat.add_right_cancel_iff] at hlength
              simp only [placeAll, place_congr h.1]
              rw [ih h.2 hlength]

theorem calculateMetrics_congr {processors : Nat} {ps qs : List Process}
    {assignments : List Nat} (h : ps.map identity = qs.map identity)
    (hlength : assignments.length = ps.length) :
    calculateMetrics processors ps assignments =
      calculateMetrics processors qs assignments := by
  unfold calculateMetrics
  rw [placeAll_congr h hlength]

theorem map_identity_placeAll (load : Nat → Int) (ps : List Process)
    (assignments : List Nat) :
    (placeAll load ps assignments).1.map identity = ps.map identity := by
  induction ps generalizing load assignments with
  | nil =>
      cases assignments <;> rfl
  | cons p ps ih =>
      cases assignments with
      | nil => rfl
      | cons processor assignments =>
          simp only [placeAll, List.map_cons, ih]
          rfl

theorem zipWith_writeBack {ps qs : List Process}
    (h : ps.map identity = qs.map identity) :
    List.zipWith writeBack ps qs = qs := by
  induction ps generalizing qs with
  | nil =>
      cases qs with
      | nil => rfl
      | cons q qs => simp at h
  | cons p ps ih =>
      cases qs with
      | nil => simp at h
      | cons q qs =>
          simp only [List.map_cons, List.cons.injEq] at h
          have hwrite : writeBack p q = q := by
            cases p
            cases q
            simp only [identity, Request.mk.injEq] at h
            obtain ⟨⟨rfl, rfl, rfl⟩, -⟩ := h
            rfl
          rw [List.zipWith_cons_cons, hwrite, ih h.2]

/-! ## The interval is the last completion -/

theorem placeAll_loads {ps : List Process} (hbt : ∀ p ∈ ps, 0 ≤ p.bt)
    (load : Nat → Int) (assignments : List Nat)
    (hlength : assignments.length = ps.length) :
    (∀ i, load i ≤ (placeAll load ps assignments).2 i) ∧
    (∀ p ∈ (placeAll load ps assignments).1, ∃ i ∈ assignments,
      p.ct ≤ (placeAll load ps assignments).2 i) ∧
    ∀ i, (placeAll load ps assignments).2 i = load i ∨
      ∃ p ∈ (placeAll load ps assignments).1,
        p.ct = (placeAll load ps assignments).2 i := by
  induction ps generalizing load assignments with
  | nil =>
      cases assignments with
      | nil => simp [placeAll]
      | cons processor assignments => simp at hlength
  | cons p ps ih =>
      cases assignments with
      | nil => simp at hlength
      | cons processor assignments =>
          simp only [List.length_cons, Nat.add_right_cancel_iff] at hlength
          have hp := hbt p (by simp)
          have hct : load processor ≤ (p.place load processor).ct := by
            simp only [Process.place, startTime]
            split <;> omega
          obtain ⟨hgrow, hbelow, hfrom⟩ := ih (fun q hq => hbt q (by simp [hq]))
            (Function.update load processor (p.place load processor).ct)
            assignments hlength
          simp only [placeAll, List.mem_cons]
          refine ⟨?_, ?_, ?_⟩
          · intro i
            refine le_trans ?_ (hgrow i)
            by_cases hi : i = processor
            · subst i
              simpa using hct
            · simp [Function.update_of_ne hi]
          · intro q hq
            cases hq with
            | inl heq =>
                subst q
                refine ⟨processor, .inl rfl, ?_⟩
                simpa using hgrow processor
            | inr hmem =>
                obtain ⟨i, hi, hle⟩ := hbelow q hmem
                exact ⟨i, .inr hi, hle⟩
          · intro i
            cases hfrom i with
            | inl hkeep =>
                by_cases hi : i = processor
                · subst i
                  refine .inr ⟨_, .inl rfl, ?_⟩
                  rw [hkeep, Function.update_self]
                · rw [Function.update_of_ne hi] at hkeep
                  exact .inl hkeep
            | inr hplaced =>
                obtain ⟨q, hq, heq⟩ := hplaced
                exact .inr ⟨q, .inr hq, heq⟩

theorem foldl_interval (load : Nat → Int) (is : List Nat) (start : Int) :
    start ≤ is.foldl (fun m i => if load i > m then load i else m) start ∧
    (∀ i ∈ is, load i ≤
      is.foldl (fun m i => if load i > m then load i else m) start) ∧
    (is.foldl (fun m i => if load i > m then load i else m) start = start ∨
      ∃ i ∈ is, is.foldl (fun m i => if load i > m then load i else m) start =
        load i) := by
  induction is generalizing start with
  | nil => simp
  | cons i is ih =>
      obtain ⟨hstart, hall, hfrom⟩ := ih (if load i > start then load i else start)
      have hmax : start ≤ (if load i > start then load i else start) ∧
          load i ≤ (if load i > start then load i else start) := by
        split <;> omega
      simp only [List.foldl_cons, List.mem_cons]
      refine ⟨hmax.1.trans hstart, ?_, ?_⟩
      · intro j hj
        cases hj with
        | inl heq =>
            subst j
            exact hmax.2.trans hstart
        | inr hmem => exact hall j hmem
      · cases hfrom with
        | inl heq =>
            rw [heq]
            split
            · exact .inr ⟨i, .inl rfl, rfl⟩
            · exact .inl rfl
        | inr hmem =>
            obtain ⟨j, hj, heq⟩ := hmem
            exact .inr ⟨j, .inr hj, heq⟩

theorem interval_spec {processors : Nat} (hprocessors : 1 ≤ processors)
    (load : Nat → Int) :
    (∀ i < processors, load i ≤ interval processors load) ∧
      ∃ i < processors, interval processors load = load i := by
  obtain ⟨hstart, hall, hfrom⟩ :=
    foldl_interval load (List.range' 1 (processors - 1)) (load 0)
  constructor
  · intro i hi
    cases i with
    | zero => exact hstart
    | succ i =>
        apply hall
        rw [List.mem_range'_1]
        omega
  · cases hfrom with
    | inl heq => exact ⟨0, by omega, heq⟩
    | inr hmem =>
        obtain ⟨i, hi, heq⟩ := hmem
        rw [List.mem_range'_1] at hi
        exact ⟨i, by omega, heq⟩

theorem placeAll_ct_nonneg {ps : List Process}
    (h : ∀ p ∈ ps, 0 ≤ p.at ∧ 0 ≤ p.bt) (load : Nat → Int)
    (assignments : List Nat) (hlength : assignments.length = ps.length) :
    ∀ p ∈ (placeAll load ps assignments).1, 0 ≤ p.ct := by
  induction ps generalizing load assignments with
  | nil =>
      cases assignments with
      | nil => simp [placeAll]
      | cons processor assignments => simp at hlength
  | cons p ps ih =>
      cases assignments with
      | nil => simp at hlength
      | cons processor assignments =>
          simp only [List.length_cons, Nat.add_right_cancel_iff] at hlength
          have hp := h p (by simp)
          intro q hq
          simp only [placeAll, List.mem_cons] at hq
          cases hq with
          | inl heq =>
              subst q
              simp only [Process.place, startTime]
              split <;> omega
          | inr hmem =>
              exact ih (fun q hq => h q (by simp [hq])) _ assignments hlength q hmem

theorem calculateMetrics_interval {processors : Nat}
    (hprocessors : 1 ≤ processors) {ps : List Process} (hne : ps ≠ [])
    (h : ∀ p ∈ ps, 0 ≤ p.at ∧ 0 ≤ p.bt) {assignments : List Nat}
    (hlength : assignments.length = ps.length)
    (hentries : ∀ i ∈ assignments, i < processors) :
    (∀ p ∈ (calculateMetrics processors ps assignments).1,
      p.ct ≤ (calculateMetrics processors ps assignments).2) ∧
    ∃ p ∈ (calculateMetrics processors ps assignments).1,
      p.ct = (calculateMetrics processors ps assignments).2 := by
  obtain ⟨-, hbelow, hfrom⟩ := placeAll_loads (fun p hp => (h p hp).2) (fun _ => 0)
    assignments hlength
  have hnonneg := placeAll_ct_nonneg h (fun _ => 0) assignments hlength
  obtain ⟨hmax, i, hi, hinterval⟩ := interval_spec hprocessors
    (placeAll (fun _ => 0) ps assignments).2
  have hle : ∀ p ∈ (placeAll (fun _ => 0) ps assignments).1,
      p.ct ≤ interval processors (placeAll (fun _ => 0) ps assignments).2 := by
    intro p hp
    obtain ⟨j, hj, hct⟩ := hbelow p hp
    exact hct.trans (hmax j (hentries j hj))
  refine ⟨hle, ?_⟩
  cases hfrom i with
  | inr hplaced =>
      obtain ⟨p, hp, heq⟩ := hplaced
      exact ⟨p, hp, heq.trans hinterval.symm⟩
  | inl hzero =>
      have hmap := congrArg List.length
        (map_identity_placeAll (fun _ => 0) ps assignments)
      simp only [List.length_map] at hmap
      have hplaced : (placeAll (fun _ => 0) ps assignments).1 ≠ [] := by
        apply List.ne_nil_of_length_pos
        rw [hmap]
        exact List.length_pos_of_ne_nil hne
      obtain ⟨p, hp⟩ := List.exists_mem_of_ne_nil _ hplaced
      refine ⟨p, hp, ?_⟩
      have hct := hle p hp
      have hpos := hnonneg p hp
      change p.ct = interval processors (placeAll (fun _ => 0) ps assignments).2
      rw [hinterval, hzero] at hct ⊢
      omega

/-! ## The search -/

theorem length_swap (assignments : List Nat) (i j : Nat) :
    (swap assignments i j).length = assignments.length := by
  simp [swap]

theorem mem_swap {assignments : List Nat} {i j x : Nat}
    (h : x ∈ swap assignments i j) : x = 0 ∨ x ∈ assignments := by
  have hget : ∀ k, assignments.getD k 0 = 0 ∨
      assignments.getD k 0 ∈ assignments := by
    intro k
    by_cases hk : k < assignments.length
    · refine .inr ?_
      rw [List.getD_eq_getElem _ _ hk]
      exact List.getElem_mem hk
    · exact .inl (List.getD_eq_default _ _ (Nat.not_lt.mp hk))
  unfold swap at h
  cases List.mem_or_eq_of_mem_set h with
  | inr heq =>
      rw [heq]
      exact hget i
  | inl hmem =>
      cases List.mem_or_eq_of_mem_set hmem with
      | inr heq =>
          rw [heq]
          exact hget j
      | inl hmem => exact .inr hmem

def Assigns (processors processes : Nat) (assignments : List Nat) : Prop :=
  assignments.length = processes ∧ ∀ i ∈ assignments, i < processors

theorem assigns_initial {processors : Nat} (hprocessors : 1 ≤ processors)
    (processes : Nat) :
    Assigns processors processes (initialAssignments processors processes) := by
  constructor
  · simp [initialAssignments]
  · intro x hx
    obtain ⟨i, -, rfl⟩ := List.mem_map.mp hx
    exact Nat.mod_lt i hprocessors

theorem assigns_swap {processors processes : Nat} (hprocessors : 1 ≤ processors)
    {assignments : List Nat} (h : Assigns processors processes assignments)
    (i j : Nat) : Assigns processors processes (swap assignments i j) := by
  refine ⟨(length_swap _ _ _).trans h.1, ?_⟩
  intro x hx
  cases mem_swap hx with
  | inl hzero => omega
  | inr hmem => exact h.2 x hmem

def intervalOf (processors : Nat) (head : List Process)
    (assignments : List Nat) : Int :=
  (calculateMetrics processors head assignments).2

def Search.evaluated (processors processes : Nat) (s : Search) :
    List (List Nat) :=
  initialAssignments processors processes :: s.neighbours

structure Searched (processors : Nat) (head : List Process) (s : Search) :
    Prop where
  array : s.procArray.map identity = head.map identity
  assigns : ∀ a ∈ s.evaluated processors head.length,
    Assigns processors head.length a
  current_mem : s.currentAssignments ∈ s.evaluated processors head.length
  best_mem : s.bestAssignments ∈ s.evaluated processors head.length
  best_eq : s.bestInterval = intervalOf processors head s.bestAssignments
  best_le : ∀ a ∈ s.evaluated processors head.length,
    s.bestInterval ≤ intervalOf processors head a

theorem map_identity_calculateMetrics (processors : Nat) (ps : List Process)
    (assignments : List Nat) :
    (calculateMetrics processors ps assignments).1.map identity =
      ps.map identity :=
  map_identity_placeAll _ _ _

theorem searched_start {processors : Nat} (hprocessors : 1 ≤ processors)
    (head : List Process) :
    Searched processors head (searchStart processors head) := by
  constructor
  case array => exact map_identity_calculateMetrics processors head _
  case assigns =>
    simp only [Search.evaluated, searchStart, List.mem_singleton]
    rintro a rfl
    exact assigns_initial hprocessors head.length
  case current_mem => simp [Search.evaluated, searchStart]
  case best_mem => simp [Search.evaluated, searchStart]
  case best_eq => rfl
  case best_le =>
    simp only [Search.evaluated, searchStart, List.mem_singleton]
    rintro a rfl
    exact Int.le_refl _

section Cool

variable {processors : Nat} {head : List Process} {s : Search}

theorem Searched.metrics_eq (h : Searched processors head s) {a : List Nat}
    (ha : Assigns processors head.length a) :
    calculateMetrics processors s.procArray a =
      calculateMetrics processors head a := by
  apply calculateMetrics_congr h.array
  have hlength := congrArg List.length h.array
  simp only [List.length_map] at hlength
  exact ha.1.trans hlength.symm

theorem cool_eq (hprocessors : 1 ≤ processors) (h : Searched processors head s)
    (c : Choice) :
    let new := swap s.currentAssignments c.process1 c.process2
    let next :=
      if intervalOf processors head new <
          intervalOf processors head s.currentAssignments ∨ c.accept = true
      then new else s.currentAssignments
    cool processors s c =
      { procArray := (calculateMetrics processors head new).1
        currentAssignments := next
        bestAssignments :=
          if intervalOf processors head next < s.bestInterval then next
          else s.bestAssignments
        bestInterval :=
          if intervalOf processors head next < s.bestInterval then
            intervalOf processors head next
          else s.bestInterval
        neighbours := s.neighbours ++ [new] } := by
  intro new next
  have hcurrent := h.assigns _ h.current_mem
  have hnew : Assigns processors head.length new :=
    assigns_swap hprocessors hcurrent _ _
  have hfirst := h.metrics_eq hcurrent
  have hsecond : calculateMetrics processors
      (calculateMetrics processors head s.currentAssignments).1 new =
        calculateMetrics processors head new := by
    apply calculateMetrics_congr (map_identity_calculateMetrics processors head _)
    have hlength := congrArg List.length
      (map_identity_calculateMetrics processors head s.currentAssignments)
    simp only [List.length_map] at hlength
    exact hnew.1.trans hlength.symm
  have hnext : next = if (decide (intervalOf processors head new <
      intervalOf processors head s.currentAssignments) || c.accept) = true
        then new else s.currentAssignments := by
    simp [next]
  have hinterval : intervalOf processors head next =
      if (decide (intervalOf processors head new <
        intervalOf processors head s.currentAssignments) || c.accept) = true
          then intervalOf processors head new
          else intervalOf processors head s.currentAssignments := by
    rw [hnext]
    split <;> rfl
  rw [hinterval, hnext]
  unfold cool
  simp only [hfirst]
  rw [hsecond]
  rfl

theorem searched_cool (hprocessors : 1 ≤ processors)
    (h : Searched processors head s) (c : Choice) :
    Searched processors head (cool processors s c) := by
  have hcool := cool_eq hprocessors h c
  simp only at hcool
  rw [hcool]
  generalize hnew : swap s.currentAssignments c.process1 c.process2 = new
  generalize hnext : (if intervalOf processors head new <
      intervalOf processors head s.currentAssignments ∨ c.accept = true
    then new else s.currentAssignments) = next
  have hassigns : Assigns processors head.length new :=
    hnew ▸ assigns_swap hprocessors (h.assigns _ h.current_mem) _ _
  have hmem : ∀ a, a ∈ initialAssignments processors head.length ::
      (s.neighbours ++ [new]) ↔
        a ∈ s.evaluated processors head.length ∨ a = new := by
    intro a
    simp only [Search.evaluated, List.mem_cons, List.mem_append, List.not_mem_nil,
      or_false, or_assoc]
  have hnext_mem : next ∈ s.evaluated processors head.length ∨ next = new := by
    rw [← hnext]
    split
    · exact .inr rfl
    · exact .inl h.current_mem
  have hnext_le : intervalOf processors head next ≤
      intervalOf processors head new := by
    rw [← hnext]
    split
    · exact Int.le_refl _
    · rename_i hreject
      have hnot : ¬ intervalOf processors head new <
          intervalOf processors head s.currentAssignments := fun hlt =>
        hreject (.inl hlt)
      omega
  constructor
  case array => exact map_identity_calculateMetrics processors head new
  case assigns =>
    intro a ha
    cases (hmem a).mp ha with
    | inl hold => exact h.assigns a hold
    | inr heq => exact heq ▸ hassigns
  case current_mem => exact (hmem next).mpr hnext_mem
  case best_mem =>
    refine (hmem _).mpr ?_
    simp only
    split
    · exact hnext_mem
    · exact .inl h.best_mem
  case best_eq =>
    simp only
    split
    · rfl
    · exact h.best_eq
  case best_le =>
    intro a ha
    simp only
    cases (hmem a).mp ha with
    | inl hold =>
        have hle := h.best_le a hold
        split <;> omega
    | inr heq =>
        subst a
        split <;> omega

end Cool

theorem searched_search {processors : Nat} (hprocessors : 1 ≤ processors)
    (head : List Process) (choices : List Choice) :
    Searched processors head (search processors head choices) := by
  have general : ∀ s, Searched processors head s →
      Searched processors head (choices.foldl (cool processors) s) := by
    induction choices with
    | nil =>
        intro s hs
        exact hs
    | cons c choices ih =>
        intro s hs
        exact ih _ (searched_cool hprocessors hs c)
  exact general _ (searched_start hprocessors head)

/-! ## Results -/

theorem createProcesses_eq (input : List Request) :
    createProcesses input = input.map newProcess := by
  have general : ∀ head : List Process,
      input.foldl createProcess head = head ++ input.map newProcess := by
    induction input with
    | nil => simp
    | cons v rest ih =>
        intro head
        rw [List.foldl_cons, ih]
        simp [createProcess]
  simpa [createProcesses] using general []

/-- Two different processes of the list. -/
def Choice.Drawn (processes : Nat) (c : Choice) : Prop :=
  c.process1 < processes ∧ c.process2 < processes ∧ c.process1 ≠ c.process2

theorem generateNeighbor_drawn {rand : Nat → Nat} {processes draws draws' : Nat}
    (hprocesses : 0 < processes) {assignments assignments' : List Nat}
    (h : GenerateNeighbor rand processes draws assignments assignments' draws') :
    ∃ c : Choice, c.Drawn processes ∧
      assignments' = swap assignments c.process1 c.process2 := by
  obtain ⟨d, ⟨n, hn, hexit⟩, hswap, -⟩ := h
  have hbound := (drawLoop rand processes).invariant
    (P := fun d => d.process1 < processes ∧ d.process2 < processes)
    (s := drawStart rand processes draws)
    ⟨Nat.mod_lt _ hprocesses, Nat.mod_lt _ hprocesses⟩
    (fun t ht _ => ⟨ht.1, Nat.mod_lt _ hprocesses⟩) n
  rw [hn] at hbound
  refine ⟨⟨d.process1, d.process2, true⟩, ⟨hbound.1, hbound.2, ?_⟩, hswap⟩
  simpa [drawLoop] using hexit

theorem length_evaluated (processors processes : Nat) (head : List Process)
    (choices : List Choice) :
    ((search processors head choices).evaluated processors processes).length =
      choices.length + 1 := by
  have general : ∀ s, (choices.foldl (cool processors) s).neighbours.length =
      s.neighbours.length + choices.length := by
    induction choices with
    | nil => simp
    | cons c choices ih =>
        intro s
        rw [List.foldl_cons, ih]
        simp only [cool, List.length_append, List.length_cons, List.length_nil]
        omega
  simp only [Search.evaluated, List.length_cons, search, general]
  simp [searchStart]

theorem simulatedAnnealing_eq {processors : Nat} (hprocessors : 1 ≤ processors)
    (head : List Process) (choices : List Choice) :
    simulatedAnnealing processors head choices = calculateMetrics processors head
      (search processors head choices).bestAssignments := by
  have h := searched_search hprocessors head choices
  have hmetrics := h.metrics_eq (h.assigns _ h.best_mem)
  have htable : List.zipWith writeBack head (calculateMetrics processors head
      (search processors head choices).bestAssignments).1 =
        (calculateMetrics processors head
          (search processors head choices).bestAssignments).1 :=
    zipWith_writeBack (map_identity_calculateMetrics processors head _).symm
  unfold simulatedAnnealing
  simp only [hmetrics, htable, h.best_eq]
  rfl

/-- The printed interval is the least one among the initial assignment and all
neighbours, the list holds the metrics of an assignment that has it, and it is
the last completion in the list. -/
theorem simulatedAnnealing_best {processors : Nat} (hprocessors : 1 ≤ processors)
    (input : List Request) (hlength : 2 ≤ input.length)
    (hinput : ∀ v ∈ input, 0 ≤ v.at ∧ 0 ≤ v.bt) (choices : List Choice) :
    let head := createProcesses input
    let result := simulatedAnnealing processors head choices
    let evaluated := (search processors head choices).evaluated processors
      input.length
    evaluated.length = choices.length + 1 ∧
    (∀ a ∈ evaluated, result.2 ≤ (calculateMetrics processors head a).2) ∧
    (∃ a ∈ evaluated, calculateMetrics processors head a = result) ∧
    (∀ p ∈ result.1, p.ct ≤ result.2) ∧ ∃ p ∈ result.1, p.ct = result.2 := by
  intro head result evaluated
  have hhead : head = input.map newProcess := createProcesses_eq input
  have hcount : input.length = head.length := by simp [hhead]
  have h := searched_search hprocessors head choices
  have hresult : result = calculateMetrics processors head
      (search processors head choices).bestAssignments :=
    simulatedAnnealing_eq hprocessors head choices
  have hassigns := h.assigns _ h.best_mem
  have hevaluated : evaluated = (search processors head choices).evaluated
      processors head.length := by
    simp only [evaluated, hcount]
  refine ⟨length_evaluated _ _ _ _, ?_, ?_, ?_⟩
  · intro a ha
    rw [hevaluated] at ha
    have hle := h.best_le a ha
    rw [h.best_eq] at hle
    rw [hresult]
    exact hle
  · refine ⟨_, ?_, hresult.symm⟩
    rw [hevaluated]
    exact h.best_mem
  · rw [hresult]
    refine calculateMetrics_interval hprocessors ?_ ?_ hassigns.1 hassigns.2
    · apply List.ne_nil_of_length_pos
      omega
    · intro p hp
      rw [hhead] at hp
      obtain ⟨v, hv, rfl⟩ := List.mem_map.mp hp
      exact hinput v hv

theorem simulatedAnnealing_two_processors :
    (simulatedAnnealing 2 (createProcesses [⟨1, 0, 4⟩, ⟨2, 0, 1⟩, ⟨3, 1, 4⟩])
      [⟨1, 2, false⟩, ⟨0, 2, true⟩]).2 = 5 ∧
    ∃ p ∈ (simulatedAnnealing 2
      (createProcesses [⟨1, 0, 4⟩, ⟨2, 0, 1⟩, ⟨3, 1, 4⟩])
      [⟨1, 2, false⟩, ⟨0, 2, true⟩]).1, p.ct = (simulatedAnnealing 2
        (createProcesses [⟨1, 0, 4⟩, ⟨2, 0, 1⟩, ⟨3, 1, 4⟩])
        [⟨1, 2, false⟩, ⟨0, 2, true⟩]).2 :=
  ⟨by decide, (simulatedAnnealing_best (by decide) [⟨1, 0, 4⟩, ⟨2, 0, 1⟩, ⟨3, 1, 4⟩]
    (by decide) (by decide) [⟨1, 2, false⟩, ⟨0, 2, true⟩]).2.2.2.2⟩

end SyscallSched.Simulators.Annealing
