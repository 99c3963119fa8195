import SyscallSched.Simulators.Annealing.Schedule

/-!
# Needless idling

On each processor the processes run in input order, so a process that arrives late holds
up the later ones of the list even if they are there.  Whether a processor is ever idle
while one of its processes waits is decided by the arrival and burst times of its
processes in input order.
-/

namespace SyscallSched.Simulators.Annealing

/-! ## One processor -/

/-- The processes of one processor, in input order. -/
def assigned (processor : Nat) : List Process → List Nat → List Process
  | p :: ps, i :: assignments =>
      if i = processor then p :: assigned processor ps assignments
      else assigned processor ps assignments
  | _, _ => []

def placeSeq (processor : Nat) (load : Int) : List Process → List Process
  | [] => []
  | p :: ps =>
      p.place (fun _ => load) processor ::
        placeSeq processor (max load p.at + p.bt) ps

def loadAfter (load : Int) : List Process → Int
  | [] => load
  | p :: ps => loadAfter (max load p.at + p.bt) ps

/-- The processor runs the processes without a pause until `time`, from 0 or from the
arrival of one of them on. -/
def Busy (before : List Process) (time : Int) : Prop :=
  time ≤ (before.map Process.bt).sum ∨
    ∃ front r rest, before = front ++ r :: rest ∧
      time ≤ r.at + ((r :: rest).map Process.bt).sum

theorem filter_placeAll (load : Nat → Int) {ps : List Process} {assignments : List Nat}
    (hlength : assignments.length = ps.length) (processor : Nat) :
    (placeAll load ps assignments).1.filter (fun q => q.pr = (processor : Int)) =
      placeSeq processor (load processor) (assigned processor ps assignments) := by
  induction ps generalizing load assignments with
  | nil =>
      cases assignments with
      | nil => rfl
      | cons i assignments => simp at hlength
  | cons p ps ih =>
      cases assignments with
      | nil => simp at hlength
      | cons i assignments =>
          simp only [List.length_cons, Nat.add_right_cancel_iff] at hlength
          rw [placeAll_cons, assigned]
          by_cases hi : i = processor
          · subst i
            rw [if_pos rfl, placeSeq, List.filter_cons_of_pos (by simp), ih _ hlength,
              Function.update_self, ct_place]
            rfl
          · have hother : ¬ ((p.place load i).pr = processor) := by
              rw [pr_place]
              omega
            rw [if_neg hi, List.filter_cons_of_neg (by simpa using hother), ih _ hlength,
              Function.update_of_ne (Ne.symm hi)]

theorem mem_placeSeq {processor : Nat} {load : Int} {ps : List Process} {q : Process}
    (hbt : ∀ p ∈ ps, 0 ≤ p.bt) (hq : q ∈ placeSeq processor load ps) :
    load ≤ q.start ∧ ∃ p ∈ ps, p.at = q.at := by
  induction ps generalizing load with
  | nil => simp [placeSeq] at hq
  | cons p ps ih =>
      have hp := hbt p (by simp)
      rw [placeSeq, List.mem_cons] at hq
      cases hq with
      | inl heq =>
          subst q
          refine ⟨?_, p, by simp, rfl⟩
          rw [start_place]
          exact le_max_left _ _
      | inr hmem =>
          obtain ⟨hstart, p', hp', hat⟩ := ih (fun r hr => hbt r (by simp [hr])) hmem
          exact ⟨by omega, p', by simp [hp'], hat⟩

theorem exists_placeSeq (processor : Nat) (load : Int) {ps : List Process} {p : Process}
    (hp : p ∈ ps) : ∃ q ∈ placeSeq processor load ps, q.at = p.at := by
  induction ps generalizing load with
  | nil => simp at hp
  | cons p₀ ps ih =>
      cases List.mem_cons.mp hp with
      | inl heq =>
          subst p₀
          exact ⟨_, List.mem_cons_self, rfl⟩
      | inr hmem =>
          obtain ⟨q, hq, hat⟩ := ih (max load p₀.at + p₀.bt) hmem
          exact ⟨q, List.mem_cons_of_mem _ hq, hat⟩

/-- From `load` on the processor of the schedule never idles while a process of it waits. -/
def SeqBusy (load : Int) (placed : List Process) : Prop :=
  ∀ q ∈ placed, ∀ t, load ≤ t → q.at ≤ t → t < q.start → ∃ r ∈ placed, r.start ≤ t ∧ t < r.ct

/-- A process that comes after the load has run out holds up no earlier arrival. -/
def InOrder (load : Int) (ps : List Process) : Prop :=
  ∀ before p after, ps = before ++ p :: after → ∀ q ∈ after, q.at < p.at →
    p.at ≤ loadAfter load before

theorem inOrder_cons {load : Int} {p : Process} {ps : List Process} :
    InOrder load (p :: ps) ↔ (∀ q ∈ ps, q.at < p.at → p.at ≤ load) ∧
      InOrder (max load p.at + p.bt) ps := by
  constructor
  · intro h
    refine ⟨h [] p ps rfl, ?_⟩
    intro before r after hsplit
    exact h (p :: before) r after (by rw [hsplit, List.cons_append])
  · rintro ⟨hhead, htail⟩ before r after hsplit
    cases before with
    | nil =>
        rw [List.nil_append, List.cons.injEq] at hsplit
        obtain ⟨rfl, rfl⟩ := hsplit
        exact hhead
    | cons b before =>
        rw [List.cons_append, List.cons.injEq] at hsplit
        obtain ⟨rfl, rfl⟩ := hsplit
        exact htail before r after rfl

theorem seqBusy_iff {processor : Nat} {load : Int} {ps : List Process}
    (hbt : ∀ p ∈ ps, 0 ≤ p.bt) : SeqBusy load (placeSeq processor load ps) ↔ InOrder load ps := by
  induction ps generalizing load with
  | nil =>
      constructor
      · intro _ before p after hsplit
        simp at hsplit
      · intro _ q hq
        cases hq
  | cons p ps ih =>
      have hp := hbt p (by simp)
      have hrest : ∀ r ∈ ps, 0 ≤ r.bt := fun r hr => hbt r (by simp [hr])
      have hstart : (p.place (fun _ => load) processor).start = max load p.at := start_place
      have hct : (p.place (fun _ => load) processor).ct = max load p.at + p.bt := ct_place
      have hat : (p.place (fun _ => load) processor).at = p.at := rfl
      rw [inOrder_cons, ← ih hrest, placeSeq]
      constructor
      · intro h
        constructor
        · intro q hq harrive
          by_contra hlate
          -- the gap before `p`, while `q` waits
          obtain ⟨q', hq', hat'⟩ := exists_placeSeq processor (max load p.at + p.bt) hq
          have hafter := (mem_placeSeq hrest hq').1
          obtain ⟨r, hr, hrun, _⟩ := h q' (List.mem_cons_of_mem _ hq') (max load q.at)
            (by omega) (by omega) (by omega)
          cases List.mem_cons.mp hr with
          | inl heq =>
              rw [heq, hstart] at hrun
              omega
          | inr hmem =>
              have hlow := (mem_placeSeq hrest hmem).1
              omega
        · intro q hq t ht harrived hwaits
          obtain ⟨r, hr, hrun⟩ := h q (List.mem_cons_of_mem _ hq) t (by omega) harrived hwaits
          cases List.mem_cons.mp hr with
          | inl heq =>
              rw [heq, hct] at hrun
              omega
          | inr hmem => exact ⟨r, hmem, hrun⟩
      · rintro ⟨hhead, htail⟩ q hq t ht harrived hwaits
        cases List.mem_cons.mp hq with
        | inl heq =>
            rw [heq, hstart] at hwaits
            rw [heq, hat] at harrived
            omega
        | inr hmem =>
            obtain ⟨_, q₀, hq₀, hat₀⟩ := mem_placeSeq hrest hmem
            by_cases hlater : max load p.at + p.bt ≤ t
            · obtain ⟨r, hr, hrun⟩ := htail q hmem t hlater harrived hwaits
              exact ⟨r, List.mem_cons_of_mem _ hr, hrun⟩
            · refine ⟨_, List.mem_cons_self, ?_⟩
              rw [hstart, hct]
              have hgap := hhead q₀ hq₀
              omega

theorem le_loadAfter_iff {load time : Int} {ps : List Process} :
    time ≤ loadAfter load ps ↔ time ≤ load + (ps.map Process.bt).sum ∨
      ∃ front r rest, ps = front ++ r :: rest ∧
        time ≤ r.at + ((r :: rest).map Process.bt).sum := by
  induction ps generalizing load with
  | nil => simp [loadAfter]
  | cons p ps ih =>
      rw [loadAfter, ih]
      constructor
      · rintro (hle | ⟨front, r, rest, rfl, hle⟩)
        · by_cases hload : p.at ≤ load
          · left
            rw [List.map_cons, List.sum_cons]
            omega
          · right
            refine ⟨[], p, ps, rfl, ?_⟩
            rw [List.map_cons, List.sum_cons]
            omega
        · exact .inr ⟨p :: front, r, rest, rfl, hle⟩
      · rintro (hle | ⟨front, r, rest, hsplit, hle⟩)
        · left
          rw [List.map_cons, List.sum_cons] at hle
          omega
        · cases front with
          | nil =>
              rw [List.nil_append, List.cons.injEq] at hsplit
              obtain ⟨rfl, rfl⟩ := hsplit
              left
              rw [List.map_cons, List.sum_cons] at hle
              omega
          | cons f front =>
              rw [List.cons_append, List.cons.injEq] at hsplit
              obtain ⟨rfl, rfl⟩ := hsplit
              exact .inr ⟨front, r, rest, rfl, hle⟩

theorem le_loadAfter_zero_iff {time : Int} {ps : List Process} :
    time ≤ loadAfter 0 ps ↔ Busy ps time := by
  rw [le_loadAfter_iff, Int.zero_add]
  rfl

/-! ## All processors -/

/-- No processor is idle at a time when a process assigned to it has arrived and has not
started.  The clock starts at 0. -/
def NeverIdles (result : List Process × Int) : Prop :=
  ∀ q ∈ result.1, ∀ t, 0 ≤ t → q.at ≤ t → t < q.start →
    ∃ r ∈ result.1, r.pr = q.pr ∧ r.start ≤ t ∧ t < r.ct

/-- Where a process of a processor arrives after a later one of the list, the processes
before it keep the processor busy until it arrives. -/
def HoldsUpNone (ps : List Process) (assignments : List Nat) : Prop :=
  ∀ processor before p after, assigned processor ps assignments = before ++ p :: after →
    ∀ q ∈ after, q.at < p.at → Busy before p.at

theorem assigned_subset {processor : Nat} {ps : List Process} {assignments : List Nat}
    {p : Process} (hp : p ∈ assigned processor ps assignments) : p ∈ ps := by
  induction ps generalizing assignments with
  | nil => simp [assigned] at hp
  | cons p₀ ps ih =>
      cases assignments with
      | nil => simp [assigned] at hp
      | cons i assignments =>
          rw [assigned] at hp
          by_cases hi : i = processor
          · rw [if_pos hi, List.mem_cons] at hp
            cases hp with
            | inl heq => simp [heq]
            | inr hmem => simp [ih hmem]
          · rw [if_neg hi] at hp
            simp [ih hp]

theorem placeAll_pr {load : Nat → Int} {ps : List Process} {assignments : List Nat}
    (hlength : assignments.length = ps.length) {q : Process}
    (hq : q ∈ (placeAll load ps assignments).1) : ∃ processor : Nat, q.pr = processor := by
  induction ps generalizing load assignments with
  | nil =>
      cases assignments with
      | nil => simp [placeAll] at hq
      | cons i assignments => simp at hlength
  | cons p ps ih =>
      cases assignments with
      | nil => simp at hlength
      | cons i assignments =>
          simp only [List.length_cons, Nat.add_right_cancel_iff] at hlength
          rw [placeAll_cons, List.mem_cons] at hq
          cases hq with
          | inl heq => exact ⟨i, by rw [heq, pr_place]⟩
          | inr hmem => exact ih hlength hmem

theorem neverIdles_iff_seqBusy {ps : List Process} {assignments : List Nat} (processors : Nat)
    (hlength : assignments.length = ps.length) :
    NeverIdles (calculateMetrics processors ps assignments) ↔
      ∀ processor, SeqBusy 0 (placeSeq processor 0 (assigned processor ps assignments)) := by
  have hmem : ∀ {processor : Nat} {q : Process},
      q ∈ placeSeq processor 0 (assigned processor ps assignments) ↔
        q ∈ (calculateMetrics processors ps assignments).1 ∧ q.pr = processor := by
    intro processor q
    rw [← filter_placeAll (fun _ => 0) hlength processor, List.mem_filter]
    simp [calculateMetrics]
  constructor
  · intro h processor q hq t ht harrived hwaits
    obtain ⟨hq, hpr⟩ := hmem.mp hq
    obtain ⟨r, hr, hsame, hrun⟩ := h q hq t ht harrived hwaits
    exact ⟨r, hmem.mpr ⟨hr, hsame.trans hpr⟩, hrun⟩
  · intro h q hq t ht harrived hwaits
    obtain ⟨processor, hpr⟩ := placeAll_pr hlength hq
    obtain ⟨r, hr, hrun⟩ := h processor q (hmem.mpr ⟨hq, hpr⟩) t ht harrived hwaits
    obtain ⟨hr, hsame⟩ := hmem.mp hr
    exact ⟨r, hr, hsame.trans hpr.symm, hrun⟩

/-- The schedule never idles needlessly exactly when no process holds up one that arrived
before it. -/
theorem calculateMetrics_neverIdles_iff (processors : Nat) (ps : List Process)
    (hbt : ∀ p ∈ ps, 0 ≤ p.bt) (assignments : List Nat)
    (hassigns : Assigns processors ps.length assignments) :
    NeverIdles (calculateMetrics processors ps assignments) ↔ HoldsUpNone ps assignments := by
  have hseq : ∀ processor, SeqBusy 0 (placeSeq processor 0 (assigned processor ps assignments)) ↔
      InOrder 0 (assigned processor ps assignments) :=
    fun processor => seqBusy_iff fun p hp => hbt p (assigned_subset hp)
  rw [neverIdles_iff_seqBusy processors hassigns.1]
  simp only [hseq, InOrder, HoldsUpNone, le_loadAfter_zero_iff]

theorem holdsUpNone_of_sorted {ps : List Process} (h : ps.Pairwise fun p q => p.at ≤ q.at)
    (assignments : List Nat) : HoldsUpNone ps assignments := by
  intro processor before p after hsplit q hq hlt
  have hsub : ∀ (ps : List Process) (assignments : List Nat),
      List.Sublist (assigned processor ps assignments) ps := by
    intro ps
    induction ps with
    | nil =>
        intro assignments
        simp [assigned]
    | cons p₀ ps ih =>
        intro assignments
        cases assignments with
        | nil => simp [assigned]
        | cons i assignments =>
            rw [assigned]
            by_cases hi : i = processor
            · rw [if_pos hi]
              exact (ih assignments).cons_cons p₀
            · rw [if_neg hi]
              exact (ih assignments).cons p₀
  have hpairs := h.sublist (hsub ps assignments)
  rw [hsplit, List.pairwise_append] at hpairs
  have hle := (List.pairwise_cons.mp hpairs.2.1).1 q hq
  omega

/-- A late arrival in front of one that is there at 0. -/
theorem calculateMetrics_idles :
    ¬ ∀ processors ps assignments, Assigns processors ps.length assignments →
      NeverIdles (calculateMetrics processors ps assignments) := by
  intro h
  obtain ⟨r, hr, _, hrun⟩ := h 1 (createProcesses [⟨1, 5, 1⟩, ⟨2, 0, 1⟩]) [0, 0] ⟨rfl, by decide⟩
    _ (List.mem_cons_of_mem _ List.mem_cons_self) 0 (by decide) (by decide) (by decide)
  revert r
  decide

theorem calculateMetrics_neverIdles_three :
    NeverIdles (calculateMetrics 2 (createProcesses [⟨1, 0, 4⟩, ⟨2, 3, 2⟩, ⟨3, 1, 1⟩]) [0, 1, 0]) ↔
      HoldsUpNone (createProcesses [⟨1, 0, 4⟩, ⟨2, 3, 2⟩, ⟨3, 1, 1⟩]) [0, 1, 0] :=
  calculateMetrics_neverIdles_iff 2 (createProcesses [⟨1, 0, 4⟩, ⟨2, 3, 2⟩, ⟨3, 1, 1⟩])
    (by decide) [0, 1, 0] ⟨rfl, by decide⟩

end SyscallSched.Simulators.Annealing
