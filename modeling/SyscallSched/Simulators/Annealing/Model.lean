import SyscallSched.Foundation.Loop
import Mathlib.Data.List.Basic
import Mathlib.Logic.Function.Basic

/-!
# Simulated annealing

The functions of `sched_algo_sa.c`.  An assignment is the list of processor
numbers of the processes.  The chances of one cooling step are a `Choice`: the
two positions that `generate_neighbor` ends up with and the outcome of the
Metropolis test.  How the positions come from a stream of `rand()` values is
`GenerateNeighbor`.  As before an `int` is an integer.
-/

namespace SyscallSched.Simulators.Annealing

open SyscallSched.Foundation

structure Process where
  pid : Int
  «at» : Int
  bt : Int
  pr : Int
  ct : Int
  tat : Int
  wt : Int
  rt : Int
  deriving DecidableEq, Repr

/-- The three numbers that one call of `create_process` reads. -/
structure Request where
  pid : Int
  «at» : Int
  bt : Int
  deriving DecidableEq, Repr

def newProcess (v : Request) : Process where
  pid := v.pid
  «at» := v.at
  bt := v.bt
  pr := -1
  ct := -1
  tat := -1
  wt := -1
  rt := -1

def createProcess (head : List Process) (v : Request) : List Process :=
  head ++ [newProcess v]

def createProcesses (input : List Request) : List Process :=
  input.foldl createProcess []

/-! ## `calculate_metrics` -/

def startTime (load : Nat → Int) (processor : Nat) (arrivalTime : Int) : Int :=
  if load processor > arrivalTime then load processor else arrivalTime

def Process.place (load : Nat → Int) (processor : Nat) (p : Process) :
    Process :=
  let start := startTime load processor p.at
  let ct := start + p.bt
  let tat := ct - p.at
  { p with
    ct := ct, tat := tat, wt := tat - p.bt, rt := start - p.at,
    pr := processor }

def placeAll (load : Nat → Int) :
    List Process → List Nat → List Process × (Nat → Int)
  | p :: procArray, processor :: assignments =>
      let placed := p.place load processor
      let rest := placeAll (Function.update load processor placed.ct) procArray
        assignments
      (placed :: rest.1, rest.2)
  | procArray, _ => (procArray, load)

/-- The largest load. -/
def interval (processors : Nat) (load : Nat → Int) : Int :=
  (List.range' 1 (processors - 1)).foldl
    (fun interval i => if load i > interval then load i else interval) (load 0)

/-- The array as `calculate_metrics` leaves it and the returned interval. -/
def calculateMetrics (processors : Nat) (procArray : List Process)
    (assignments : List Nat) : List Process × Int :=
  let placed := placeAll (fun _ => 0) procArray assignments
  (placed.1, interval processors placed.2)

/-! ## `generate_neighbor` -/

def swap (assignments : List Nat) (process1 process2 : Nat) : List Nat :=
  (assignments.set process1 (assignments.getD process2 0)).set process2
    (assignments.getD process1 0)

structure Draw where
  /-- How many values of the stream were read. -/
  draws : Nat
  process1 : Nat
  process2 : Nat
  deriving DecidableEq, Repr

def drawLoop (rand : Nat → Nat) (processes : Nat) : Loop Draw where
  guard d := d.process1 == d.process2
  body d :=
    { d with draws := d.draws + 1, process2 := rand d.draws % processes }

def drawStart (rand : Nat → Nat) (processes draws : Nat) : Draw where
  draws := draws + 2
  process1 := rand draws % processes
  process2 := rand (draws + 1) % processes

/-- `generate_neighbor` returns after reading the stream up to `draws'`. -/
def GenerateNeighbor (rand : Nat → Nat) (processes draws : Nat)
    (assignments assignments' : List Nat) (draws' : Nat) : Prop :=
  ∃ d, (drawLoop rand processes).Exits (drawStart rand processes draws) d ∧
    assignments' = swap assignments d.process1 d.process2 ∧ draws' = d.draws

/-! ## `simulated_annealing` -/

structure Choice where
  process1 : Nat
  process2 : Nat
  accept : Bool
  deriving DecidableEq, Repr

structure Search where
  procArray : List Process
  currentAssignments : List Nat
  bestAssignments : List Nat
  bestInterval : Int
  /-- The neighbours that were evaluated, oldest first. -/
  neighbours : List (List Nat)
  deriving DecidableEq, Repr

def initialAssignments (processors processes : Nat) : List Nat :=
  (List.range processes).map (· % processors)

def searchStart (processors : Nat) (head : List Process) : Search :=
  let currentAssignments := initialAssignments processors head.length
  let metrics := calculateMetrics processors head currentAssignments
  { procArray := metrics.1
    currentAssignments
    bestAssignments := currentAssignments
    bestInterval := metrics.2
    neighbours := [] }

def cool (processors : Nat) (s : Search) (c : Choice) : Search :=
  let newAssignments := swap s.currentAssignments c.process1 c.process2
  let current := calculateMetrics processors s.procArray s.currentAssignments
  let new := calculateMetrics processors current.1 newAssignments
  let accepted := decide (new.2 < current.2) || c.accept
  let currentAssignments :=
    if accepted then newAssignments else s.currentAssignments
  let currentInterval := if accepted then new.2 else current.2
  { procArray := new.1
    currentAssignments
    bestAssignments :=
      if currentInterval < s.bestInterval then currentAssignments
      else s.bestAssignments
    bestInterval :=
      if currentInterval < s.bestInterval then currentInterval
      else s.bestInterval
    neighbours := s.neighbours ++ [newAssignments] }

def search (processors : Nat) (head : List Process) (choices : List Choice) :
    Search :=
  choices.foldl (cool processors) (searchStart processors head)

def writeBack (temp p : Process) : Process :=
  { temp with pr := p.pr, ct := p.ct, tat := p.tat, wt := p.wt, rt := p.rt }

/-- The list that is returned and the interval that is printed. -/
def simulatedAnnealing (processors : Nat) (head : List Process)
    (choices : List Choice) : List Process × Int :=
  let s := search processors head choices
  let metrics := calculateMetrics processors s.procArray s.bestAssignments
  (List.zipWith writeBack head metrics.1, s.bestInterval)

end SyscallSched.Simulators.Annealing
