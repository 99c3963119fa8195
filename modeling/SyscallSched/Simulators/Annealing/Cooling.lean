import Mathlib.Data.Int.CardIntervalMod
import SyscallSched.Simulators.Annealing.Best

/-!
# The search only rearranges the initial assignment

`generate_neighbor` swaps two entries and everything else copies whole arrays, so
each array of the search is a permutation of the initial assignment.  Here the
positions come from the stream of `rand()` values, and the outcome of the
acceptance test is left open.
-/

namespace SyscallSched.Simulators.Annealing

open SyscallSched.Foundation

def testDraws (processors : Nat) (s : Search) (d : Draw) : Nat :=
  let current := calculateMetrics processors s.procArray s.currentAssignments
  let new := calculateMetrics processors current.1
    (swap s.currentAssignments d.process1 d.process2)
  if new.2 < current.2 then 0 else 1

inductive Reached (processors : Nat) (head : List Process) (rand : Nat → Nat) :
    Nat → Search → Prop
  | start : Reached processors head rand 0 (searchStart processors head)
  | cool {draws : Nat} {s : Search} {d : Draw} (accept : Bool)
      (reached : Reached processors head rand draws s)
      (exits : (drawLoop rand head.length).Exits (drawStart rand head.length draws) d) :
      Reached processors head rand (d.draws + testDraws processors s d)
        (cool processors s ⟨d.process1, d.process2, accept⟩)

structure Rearranged (processors processes : Nat) (assignments : List Nat) : Prop where
  perm : assignments.Perm (initialAssignments processors processes)
  entries : ∀ i ∈ assignments, i < processors
  share : ∀ p, p < processors → assignments.count p =
    processes / processors + if p < processes % processors then 1 else 0

/-! ## The initial assignment -/

theorem count_initialAssignments {processors : Nat} (processes : Nat) {p : Nat}
    (hp : p < processors) :
    (initialAssignments processors processes).count p =
      processes / processors + if p < processes % processors then 1 else 0 := by
  have hpos : 0 < processors := Nat.zero_lt_of_lt hp
  have hcount : (initialAssignments processors processes).count p =
      processes.count (· ≡ p [MOD processors]) := by
    rw [initialAssignments, List.count_eq_countP, List.countP_map, Nat.count]
    apply List.countP_congr
    intro i _
    simp [Nat.ModEq, Nat.mod_eq_of_lt hp]
  rw [hcount, Nat.count_modEq_card processes hpos, Nat.mod_eq_of_lt hp]

theorem rearranged_of_perm {processors processes : Nat} (hprocessors : 1 ≤ processors)
    {assignments : List Nat}
    (h : assignments.Perm (initialAssignments processors processes)) :
    Rearranged processors processes assignments := by
  constructor
  case perm => exact h
  case entries =>
    intro i hi
    exact (assigns_initial hprocessors processes).2 i (h.mem_iff.mp hi)
  case share =>
    intro p hp
    rw [h.count_eq, count_initialAssignments processes hp]

/-! ## One step -/

theorem swap_perm {assignments : List Nat} {i j : Nat} (hi : i < assignments.length)
    (hj : j < assignments.length) : (swap assignments i j).Perm assignments := by
  rw [swap, List.getD_eq_getElem _ _ hi, List.getD_eq_getElem _ _ hj]
  exact List.set_set_perm hi hj

theorem draw_lt {rand : Nat → Nat} {processes draws : Nat} (hprocesses : 0 < processes)
    {d : Draw} (h : (drawLoop rand processes).Exits (drawStart rand processes draws) d) :
    d.process1 < processes ∧ d.process2 < processes := by
  obtain ⟨n, rfl, _⟩ := h
  apply (drawLoop rand processes).invariant
    (P := fun d => d.process1 < processes ∧ d.process2 < processes)
  · exact ⟨Nat.mod_lt _ hprocesses, Nat.mod_lt _ hprocesses⟩
  · intro t ht _
    exact ⟨ht.1, Nat.mod_lt _ hprocesses⟩

structure Permuted (processors processes : Nat) (s : Search) : Prop where
  current : s.currentAssignments.Perm (initialAssignments processors processes)
  best : s.bestAssignments.Perm (initialAssignments processors processes)

section

variable {processors processes : Nat} {s : Search}

theorem Permuted.swap (h : Permuted processors processes s) {i j : Nat} (hi : i < processes)
    (hj : j < processes) :
    (swap s.currentAssignments i j).Perm (initialAssignments processors processes) := by
  have hlength : s.currentAssignments.length = processes := by
    simp [h.current.length_eq, initialAssignments]
  exact (swap_perm (by omega) (by omega)).trans h.current

/-- Accepting, rejecting and keeping the best all copy arrays that are permuted. -/
theorem Permuted.cool (h : Permuted processors processes s) {c : Choice}
    (hi : c.process1 < processes) (hj : c.process2 < processes) :
    Permuted processors processes (cool processors s c) := by
  have hnew := h.swap hi hj
  constructor
  case current =>
    simp only [Annealing.cool]
    split
    · exact hnew
    · exact h.current
  case best =>
    simp only [Annealing.cool]
    split_ifs
    · exact hnew
    · exact h.best
    · exact h.current
    · exact h.best

end

/-! ## The whole search -/

theorem permuted_of_reached {processors : Nat} {head : List Process} {rand : Nat → Nat}
    {draws : Nat} {s : Search} (hlength : 0 < head.length)
    (h : Reached processors head rand draws s) : Permuted processors head.length s := by
  induction h with
  | start => exact ⟨List.Perm.refl _, List.Perm.refl _⟩
  | cool accept _ hexits ih =>
      obtain ⟨hi, hj⟩ := draw_lt hlength hexits
      exact ih.cool hi hj

/-- Every array of the search is a rearrangement of the initial assignment. -/
theorem search_rearranges {processors : Nat} (hprocessors : 1 ≤ processors)
    {head : List Process} (hlength : 2 ≤ head.length) {rand : Nat → Nat} {draws : Nat}
    {s : Search} (h : Reached processors head rand draws s) :
    Rearranged processors head.length s.currentAssignments ∧
      Rearranged processors head.length s.bestAssignments ∧
      ∀ newAssignments draws',
        GenerateNeighbor rand head.length draws s.currentAssignments newAssignments draws' →
        Rearranged processors head.length newAssignments := by
  have hpermuted := permuted_of_reached (by omega) h
  refine ⟨rearranged_of_perm hprocessors hpermuted.current,
    rearranged_of_perm hprocessors hpermuted.best, ?_⟩
  intro newAssignments draws' hnew
  obtain ⟨d, hexits, rfl, _⟩ := hnew
  obtain ⟨hi, hj⟩ := draw_lt (by omega) hexits
  exact rearranged_of_perm hprocessors (hpermuted.swap hi hj)

/-- A step that accepts a worse neighbour of three processes on two processors. -/
theorem search_rearranges_three :
    let head := createProcesses [⟨1, 0, 1⟩, ⟨2, 0, 3⟩, ⟨3, 0, 2⟩]
    let s := cool 2 (searchStart 2 head) ⟨0, 1, true⟩
    Reached 2 head (fun n => n) 3 s ∧ Rearranged 2 3 s.currentAssignments ∧
      s.currentAssignments ≠ initialAssignments 2 3 := by
  intro head s
  have hexits : (drawLoop (fun n => n) head.length).Exits
      (drawStart (fun n => n) head.length 0) ⟨2, 0, 1⟩ := ⟨0, by decide, by decide⟩
  have hreached := Reached.cool true (Reached.start : Reached 2 head _ 0 _) hexits
  have hdraws : testDraws 2 (searchStart 2 head) ⟨2, 0, 1⟩ = 1 := by decide
  rw [hdraws] at hreached
  exact ⟨hreached, (search_rearranges (by decide) (by decide) hreached).1, by decide⟩

end SyscallSched.Simulators.Annealing

/-!
## The cooling loop

The temperatures are binary64 numbers, and no other variable takes part in the test of
the loop, so the number of cooling steps is a constant.  Each step returns when the
redraw loop of `generate_neighbor` does.  The acceptance test of the neighbours, with
`exp`, is a parameter.
-/

namespace SyscallSched.Simulators.Annealing

open SyscallSched.Foundation

/-! ## Temperatures -/

def initialTemperature : Float := 1000.0
def finalTemperature : Float := 0.1
def coolingRate : Float := 0.99

def coolingLoop : Loop Float where
  guard temperature := decide (temperature > finalTemperature)
  body temperature := temperature * coolingRate

def coolingSteps : Nat := 917

def temperatureBits : List UInt64 :=
  [4652007308841189376, 4643423143904207436, 4634756343824438065, 4626114116094866490,
    4617498234516484729, 4608910600935422262, 4600353254486123453, 4591828381501760953]

def temperatureAt (i : Nat) : Float := Float.ofBits (temperatureBits.getD i 0)

theorem coolingLoop_block : ∀ i < 7,
    coolingLoop.state (temperatureAt i) 131 = temperatureAt (i + 1) := by
  decide +kernel

theorem coolingLoop_blocks {i : Nat} (hi : i ≤ 7) :
    coolingLoop.state initialTemperature (131 * i) = temperatureAt i := by
  induction i with
  | zero =>
      have hstart : initialTemperature = temperatureAt 0 := by decide +kernel
      exact hstart
  | succ i ih =>
      rw [Nat.mul_succ, Loop.state_add, ih (by omega)]
      exact coolingLoop_block i (by omega)

theorem coolingLoop_guard_last :
    coolingLoop.guard (coolingLoop.state initialTemperature 916) = true := by
  have hlast : coolingLoop.guard (coolingLoop.state (temperatureAt 6) 130) = true := by
    decide +kernel
  rw [← coolingLoop_blocks (by decide), ← Loop.state_add] at hlast
  exact hlast

theorem coolingLoop_guard_iff (n : Nat) :
    coolingLoop.guard (coolingLoop.state initialTemperature n) = true ↔ n < coolingSteps := by
  have hend : coolingLoop.guard (coolingLoop.state initialTemperature 917) = false := by
    have hblocks := coolingLoop_blocks (show 7 ≤ 7 by decide)
    have hcold : coolingLoop.guard (temperatureAt 7) = false := by decide +kernel
    rw [← hblocks] at hcold
    exact hcold
  constructor
  · intro hguard
    by_contra hge
    have hge' : 917 ≤ n := Nat.not_lt.mp hge
    rw [coolingLoop.state_eq_of_exit hend hge', hend] at hguard
    cases hguard
  · intro hlt
    have hle : n ≤ 916 := Nat.le_of_lt_succ hlt
    exact coolingLoop.guard_of_lt hle coolingLoop_guard_last

/-! ## Drawing a neighbour -/

/-- Each residue modulo `processes` occurs again and again. -/
def Recurrent (rand : Nat → Nat) (processes : Nat) : Prop :=
  ∀ r < processes, ∀ k, ∃ m, k ≤ m ∧ rand m % processes = r

section

variable {rand : Nat → Nat} {processes : Nat}

/-- The redraw loop ends when another residue comes. -/
theorem drawLoop_terminates_of_gap {d : Draw} (gap : Nat)
    (h : rand (d.draws + gap) % processes ≠ d.process1) :
    (drawLoop rand processes).Terminates d := by
  induction gap generalizing d with
  | zero =>
      cases hguard : (drawLoop rand processes).guard d with
      | false => exact ⟨d, Loop.exits_self _ hguard⟩
      | true =>
          refine ⟨(drawLoop rand processes).body d, 1, ?_, ?_⟩
          · exact Loop.next_of_guard _ hguard
          · simpa [drawLoop] using Ne.symm h
  | succ gap ih =>
      cases hguard : (drawLoop rand processes).guard d with
      | false => exact ⟨d, Loop.exits_self _ hguard⟩
      | true =>
          have hnext : (drawLoop rand processes).Terminates ((drawLoop rand processes).body d) := by
            apply ih
            simpa [drawLoop, Nat.add_assoc, Nat.add_comm 1] using h
          obtain ⟨t, n, hn, ht⟩ := hnext
          refine ⟨t, n + 1, ?_, ht⟩
          rw [Nat.add_comm, Loop.state_add]
          change (drawLoop rand processes).state ((drawLoop rand processes).next d) n = t
          rw [Loop.next_of_guard _ hguard, hn]

theorem drawLoop_terminates (hrand : Recurrent rand processes) (hprocesses : 2 ≤ processes)
    (draws : Nat) : (drawLoop rand processes).Terminates (drawStart rand processes draws) := by
  have hother : ∃ r < processes, r ≠ (drawStart rand processes draws).process1 := by
    by_cases hzero : (drawStart rand processes draws).process1 = 0
    · exact ⟨1, by omega, by omega⟩
    · exact ⟨0, by omega, Ne.symm hzero⟩
  obtain ⟨r, hr, hne⟩ := hother
  obtain ⟨m, hm, hresidue⟩ := hrand r hr (draws + 2)
  apply drawLoop_terminates_of_gap (m - (draws + 2))
  have hposition : (drawStart rand processes draws).draws + (m - (draws + 2)) = m := by
    simp only [drawStart]
    omega
  rw [hposition, hresidue]
  exact hne

/-- With one process the two positions are always equal. -/
theorem drawLoop_diverges (draws : Nat) :
    ¬ (drawLoop rand 1).Terminates (drawStart rand 1 draws) := by
  apply (drawLoop rand 1).not_terminates_of_invariant
    (P := fun d => d.process1 = 0 ∧ d.process2 = 0)
  · exact ⟨Nat.mod_one _, Nat.mod_one _⟩
  · intro d hd _
    exact ⟨hd.1, Nat.mod_one _⟩
  · intro d hd
    simp [drawLoop, hd.1, hd.2]

end

/-! ## The whole loop -/

/-- The outcome of `exp((current_interval - new_interval) / temperature) >
(double)rand() / RAND_MAX` for the temperature, the difference and the value of `rand()`. -/
abbrev Test := Float → Int → Nat → Bool

structure Cooling where
  temperature : Float
  /-- How many values of the stream were read. -/
  draws : Nat
  search : Search

/-- One iteration, where `generate_neighbor` ends up with `d`. -/
def Cooling.step (processors : Nat) (rand : Nat → Nat) (test : Test) (s : Cooling) (d : Draw) :
    Cooling :=
  let current := calculateMetrics processors s.search.procArray s.search.currentAssignments
  let new := calculateMetrics processors current.1
    (swap s.search.currentAssignments d.process1 d.process2)
  let accept := test s.temperature (current.2 - new.2) (rand d.draws)
  { temperature := s.temperature * coolingRate
    draws := d.draws + testDraws processors s.search d
    search := cool processors s.search ⟨d.process1, d.process2, accept⟩ }

def Cooling.start (processors : Nat) (head : List Process) : Cooling where
  temperature := initialTemperature
  draws := 0
  search := searchStart processors head

inductive Cooled (processors : Nat) (head : List Process) (rand : Nat → Nat) (test : Test) :
    Nat → Cooling → Prop
  | start : Cooled processors head rand test 0 (Cooling.start processors head)
  | step {n : Nat} {s : Cooling} {d : Draw} (cooled : Cooled processors head rand test n s)
      (warm : coolingLoop.guard s.temperature = true)
      (exits : (drawLoop rand head.length).Exits (drawStart rand head.length s.draws) d) :
      Cooled processors head rand test (n + 1) (s.step processors rand test d)

/-- `simulated_annealing` leaves its loop, after all its cooling steps. -/
def Completes (processors : Nat) (head : List Process) (rand : Nat → Nat) (test : Test) : Prop :=
  ∃ final, Cooled processors head rand test coolingSteps final ∧
    coolingLoop.guard final.temperature = false

def NeighborReturns (rand : Nat → Nat) (processes : Nat) : Prop :=
  ∀ draws assignments, ∃ assignments' draws',
    GenerateNeighbor rand processes draws assignments assignments' draws'

section

variable {processors : Nat} {head : List Process} {rand : Nat → Nat} {test : Test}

theorem Cooled.temperature_eq {n : Nat} {s : Cooling} (h : Cooled processors head rand test n s) :
    s.temperature = coolingLoop.state initialTemperature n := by
  induction h with
  | start => rfl
  | @step n s d _ warm _ ih =>
      rw [ih] at warm
      rw [Loop.state_succ, Loop.next_of_guard _ warm, ← ih]
      rfl

/-- The number of steps does not depend on the input. -/
theorem Cooled.steps_eq {n : Nat} {s : Cooling} (h : Cooled processors head rand test n s)
    (hcold : coolingLoop.guard s.temperature = false) : n = coolingSteps := by
  induction h with
  | start =>
      have hwarm := (coolingLoop_guard_iff 0).mpr (by decide)
      rw [show coolingLoop.guard (Cooling.start processors head).temperature =
        coolingLoop.guard (coolingLoop.state initialTemperature 0) from rfl, hwarm] at hcold
      cases hcold
  | @step n s d cooled warm exits _ =>
      have hlt := (coolingLoop_guard_iff n).mp (by rw [← cooled.temperature_eq]; exact warm)
      have hge : ¬ n + 1 < coolingSteps := by
        rw [← coolingLoop_guard_iff, ← (cooled.step warm exits).temperature_eq, hcold]
        simp
      omega

theorem exists_cooled (processors : Nat) (test : Test) (hrand : Recurrent rand head.length)
    (hlength : 2 ≤ head.length) {n : Nat} (hn : n ≤ coolingSteps) :
    ∃ s, Cooled processors head rand test n s := by
  induction n with
  | zero => exact ⟨_, .start⟩
  | succ n ih =>
      obtain ⟨s, hs⟩ := ih (by omega)
      obtain ⟨d, hd⟩ := drawLoop_terminates hrand hlength s.draws
      refine ⟨_, hs.step ?_ hd⟩
      rw [hs.temperature_eq, coolingLoop_guard_iff]
      omega

theorem completes (hrand : Recurrent rand head.length) (hlength : 2 ≤ head.length) :
    Completes processors head rand test := by
  obtain ⟨final, hfinal⟩ := exists_cooled processors test hrand hlength (Nat.le_refl coolingSteps)
  refine ⟨final, hfinal, ?_⟩
  rw [hfinal.temperature_eq]
  simpa using mt (coolingLoop_guard_iff coolingSteps).mp (Nat.lt_irrefl _)

end

/-- With at least two processes every neighbour is found and all cooling steps are made;
with one process the first neighbour is never found. -/
theorem simulatedAnnealing_completes_iff (processors : Nat) (_ : 1 ≤ processors)
    (input : List Request) (hinput : 1 ≤ input.length) (rand : Nat → Nat)
    (hrand : Recurrent rand input.length) (test : Test) :
    (NeighborReturns rand input.length ∧
      Completes processors (createProcesses input) rand test) ↔ 2 ≤ input.length := by
  have hcount : (createProcesses input).length = input.length := by simp [createProcesses_eq]
  constructor
  · rintro ⟨hreturns, _⟩
    by_contra hlt
    have hone : input.length = 1 := by omega
    rw [hone] at hreturns
    obtain ⟨_, _, d, hexits, _⟩ := hreturns 0 []
    exact drawLoop_diverges 0 ⟨d, hexits⟩
  · intro hlength
    constructor
    · intro draws assignments
      obtain ⟨d, hexits⟩ := drawLoop_terminates hrand hlength draws
      exact ⟨_, _, d, hexits, rfl, rfl⟩
    · apply completes
      · rw [hcount]
        exact hrand
      · rw [hcount]
        exact hlength

theorem simulatedAnnealing_one_never : ¬ ∀ processors input rand test, 1 ≤ processors →
    1 ≤ input.length → Recurrent rand input.length →
    NeighborReturns rand input.length ∧
      Completes processors (createProcesses input) rand test := by
  intro h
  have hrecurrent : Recurrent (fun n => n) 1 := by
    intro r hr k
    exact ⟨k, Nat.le_refl k, by simp at hr; rw [hr]; exact Nat.mod_one k⟩
  obtain ⟨hreturns, _⟩ := h 1 [⟨1, 0, 1⟩] (fun n => n) (fun _ _ _ => true) (by decide)
    (by decide) hrecurrent
  obtain ⟨_, _, d, hexits, _⟩ := hreturns 0 []
  exact drawLoop_diverges 0 ⟨d, hexits⟩

theorem simulatedAnnealing_two_completes :
    NeighborReturns (fun n => n) 2 ∧ Completes 1 (createProcesses [⟨1, 0, 1⟩, ⟨2, 0, 3⟩])
      (fun n => n) (fun _ _ _ => false) := by
  have hrand : Recurrent (fun n => n) 2 := by
    intro r hr k
    exact ⟨2 * k + r, by omega, by change (2 * k + r) % 2 = r; omega⟩
  exact (simulatedAnnealing_completes_iff 1 (by decide) [⟨1, 0, 1⟩, ⟨2, 0, 3⟩] (by decide)
    (fun n => n) hrand (fun _ _ _ => false)).mpr (Nat.le_refl 2)

end SyscallSched.Simulators.Annealing
