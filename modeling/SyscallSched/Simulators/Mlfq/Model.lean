import SyscallSched.Foundation.ArrayQueue
import SyscallSched.Foundation.Loop
import SyscallSched.Simulators.Process

/-!
# The multilevel feedback queue

The function `mlfq` of `sched_algo_mlfq_existing.c`.  Its nested loops are one
loop over the states between two tests: `level` is the loop variable of the
`for` loop, which has ended when it is `LEVELS`, and `allDone` is the flag of
the current pass.  The lines that `enqueue` prints when it drops a process are
part of the state.
-/

namespace SyscallSched.Simulators.Mlfq

open SyscallSched.Foundation

def MAX : Int := 100

def LEVELS : Nat := 3

def quantum : Nat → Int
  | 0 => 2
  | 1 => 4
  | _ => 8

structure State where
  currentTime : Int
  head : List Process
  queue : Nat → ArrayQueue Int
  /-- For every `Queue overflow` line its level and the entries then live. -/
  overflows : List (Nat × Nat)
  level : Nat
  allDone : Bool

def enqueue (s : State) (level : Nat) (pid : Int) : State :=
  if (s.queue level).rear = MAX - 1 then
    { s with overflows := s.overflows ++ [(level, (s.queue level).live.length)] }
  else
    { s with queue := Function.update s.queue level ((s.queue level).push pid) }

/-- The clock when `ptr` is dispatched. -/
def dispatchTime (currentTime : Int) (ptr : Process) : Int :=
  if ptr.at > currentTime then ptr.at else currentTime

def finish (s : State) (ptr : Process) : State :=
  let currentTime := dispatchTime s.currentTime ptr + ptr.remain
  { s with
    currentTime
    head := updateProcess (Process.complete currentTime) ptr.pid s.head
    allDone := false }

/-- The level to which a process preempted at `level` is appended. -/
def demotedLevel (level : Nat) : Nat :=
  if level < LEVELS - 1 then level + 1 else level

def preempt (s : State) (ptr : Process) : State :=
  let currentTime := dispatchTime s.currentTime ptr + quantum s.level
  enqueue { s with
    currentTime
    head := updateProcess (Process.preempt (quantum s.level)) ptr.pid s.head
    allDone := false } (demotedLevel s.level) ptr.pid

/-- One iteration of the innermost loop that is running.  A pid without a
record would be a null dereference; the loop then makes no progress. -/
def step (s : State) : State :=
  if s.level < LEVELS then
    match (s.queue s.level).pop with
    | none => { s with level := s.level + 1 }
    | some (pid, queue) =>
        let popped := { s with queue := Function.update s.queue s.level queue }
        match findProcess s.head pid with
        | none => s
        | some ptr =>
            if ptr.remain ≤ quantum s.level then finish popped ptr
            else preempt popped ptr
  else
    { s with currentTime := s.currentTime + 1, level := 0, allDone := true }

def loop : Loop State where
  guard s := !(s.level == LEVELS && s.allDone)
  body := step

theorem guard_of_level_lt {s : State} (h : s.level < LEVELS) :
    loop.guard s = true := by
  have hne : (s.level == LEVELS) = false := by
    simp only [beq_eq_false_iff_ne]
    omega
  simp [loop, hne]

def start (head : List Process) : State :=
  head.foldl (fun s temp => enqueue s 0 temp.pid)
    { currentTime := 0, head, queue := fun _ => ArrayQueue.empty fun _ => 0,
      overflows := [], level := 0, allDone := true }

def Returns (head : List Process) (final : State) : Prop :=
  loop.Exits (start head) final

def State.live (s : State) (level : Nat) : List Int := (s.queue level).live

end SyscallSched.Simulators.Mlfq
