import SyscallSched.Foundation.ArrayQueue
import SyscallSched.Foundation.Loop
import SyscallSched.Simulators.Process

/-!
# Round robin and shortest job first

The functions of `sched_algo_mlfqs_improved.c`.  `enqueue`, `rr` and `sjf` use
the queue only through the membership loop, the append block and `dequeue`;
they are written over these three operations.  `arrayOps` is the source's
queue: an array with two indices, on which every store is recorded.  `fifoOps`
is the queue read as the list of its live entries.
-/

namespace SyscallSched.Simulators.Mlfqs

open SyscallSched.Foundation

def MAX : Int := 100

/-- `time_quantum_rr`, which the program never assigns. -/
def timeQuantumRr : Int := 2

structure QueueOps (Q : Type) where
  isInQueue : Q → Int → Bool
  push : Q → Int → Q
  dequeue : Q → Int × Q

/-! ## The two queues -/

/-- The array `queue` with `front` and `rear`; `writes` lists the index of
every store `queue[*rear] = ...`, oldest first. -/
structure Queue extends ArrayQueue Int where
  writes : List Int

def Queue.declared (cell : Int → Int) : Queue :=
  { ArrayQueue.empty cell with writes := [] }

def arrayOps : QueueOps Queue where
  isInQueue queue pid := queue.window.contains pid
  push queue pid :=
    { queue.toArrayQueue.push pid with
      writes := queue.writes ++ [(queue.toArrayQueue.push pid).rear] }
  dequeue queue :=
    match queue.toArrayQueue.pop with
    | none => (-1, queue)
    | some (pid, queue') => (pid, { queue' with writes := queue.writes })

/-- The live entries, oldest first.  The membership loop of an empty queue
still reads one cell, `queue[-1]`; `stale` is its value, and `none` stands for
a loop that looks at live entries only. -/
def fifoOps (stale : Option Int) : QueueOps (List Int) where
  isInQueue queue pid :=
    if queue = [] then decide (stale = some pid) else queue.contains pid
  push queue pid := queue ++ [pid]
  dequeue queue :=
    match queue with
    | [] => (-1, [])
    | pid :: rest => (pid, rest)

/-! ## The program -/

structure Sim where
  currentTime : Int
  timeQuantumSjf : Int
  head : List Process
  deriving DecidableEq, Repr

def Sim.init (head : List Process) : Sim := ⟨0, 0, head⟩

structure Run (Q : Type) where
  sim : Sim
  queue : Q

section Program

variable {Q : Type} (ops : QueueOps Q)

/-- Append `pid` unless the membership loop finds it. -/
def add (queue : Q) (pid : Int) : Q :=
  if ops.isInQueue queue pid then queue else ops.push queue pid

def scan (currentTime : Int) (head : List Process) (queue : Q) : Q :=
  head.foldl
    (fun queue temp =>
      if temp.Ready currentTime then add ops queue temp.pid else queue)
    queue

def enqueue (currentTime : Int) (head : List Process) (queue : Q)
    (pid : Int) : Q :=
  let queue := scan ops currentTime head queue
  if pid ≠ -1 then add ops queue pid else queue

def allProcessesCompleted (head : List Process) : Bool :=
  head.all fun temp => !decide (temp.remain > 0)

/-- The branch `pid == -1`. -/
def idle (sim : Sim) (queue : Q) : Run Q :=
  let currentTime := sim.currentTime + 1
  { sim := { sim with currentTime }
    queue := enqueue ops currentTime sim.head queue (-1) }

/-- The branch `ptr->remain <= quantum`; it does not look for arrivals. -/
def finish (sim : Sim) (queue : Q) (ptr : Process) : Run Q :=
  let currentTime := sim.currentTime + ptr.remain
  let head := updateProcess (Process.complete currentTime) ptr.pid sim.head
  { sim := { sim with currentTime, head }, queue }

/-- The branch that preempts `ptr`. -/
def requeue (quantum : Int) (sim : Sim) (queue : Q) (ptr : Process) : Run Q :=
  let currentTime := sim.currentTime + quantum
  let head := updateProcess (Process.preempt quantum) ptr.pid sim.head
  { sim := { sim with currentTime, head }
    queue := enqueue ops currentTime head queue ptr.pid }

/-- The body of the `while` loops of `rr` and `sjf`.  A pid without a record
would be a null dereference; the loop then makes no progress. -/
def dispatch (quantum : Int) (run : Run Q) : Run Q :=
  let (pid, queue) := ops.dequeue run.queue
  if pid = -1 then idle ops run.sim queue
  else
    match findProcess run.sim.head pid with
    | none => run
    | some ptr =>
        if ptr.remain ≤ quantum then finish run.sim queue ptr
        else requeue ops quantum run.sim queue ptr

def serveLoop (quantum : Int) : Loop (Run Q) where
  guard run := !allProcessesCompleted run.sim.head
  body run := dispatch ops quantum run

/-- The state of `rr` or `sjf` before the first test of the loop; `queue` is
the local queue as declared. -/
def start (sim : Sim) (queue : Q) : Run Q :=
  { sim, queue := enqueue ops sim.currentTime sim.head queue (-1) }

def rrLoop : Loop (Run Q) := serveLoop ops timeQuantumRr

def rrStart (sim : Sim) (queue : Q) : Run Q := start ops sim queue

def RrReturns (sim : Sim) (queue : Q) (sim' : Sim) : Prop :=
  ∃ run, (rrLoop ops).Exits (rrStart ops sim queue) run ∧ run.sim = sim'

end Program

/-- The inner `for` loop of `dynamic_time_quantum`: `m` comparisons of
neighbours from the front of the array. -/
def bubblePass : Nat → List Process → List Process
  | m + 1, first :: second :: rest =>
      if first.remain > second.remain then
        second :: bubblePass m (first :: rest)
      else first :: bubblePass m (second :: rest)
  | _, sorted => sorted

def bubbleSort (count : Nat) (sorted : List Process) : List Process :=
  (List.range (count - 1)).foldl
    (fun sorted j => bubblePass (count - j - 1) sorted) sorted

def dynamicTimeQuantum (head : List Process) (timeQuantum : Int) : Int :=
  let sorted := head.filter fun temp => decide (temp.remain > 0)
  let count := sorted.length
  let position := 2 * count / 3
  let position := if position ≥ count then count - 1 else position
  match (bubbleSort count sorted)[position]? with
  | none => timeQuantum
  | some temp => temp.remain

section Sjf

variable {Q : Type} (ops : QueueOps Q)

/-- The loop of `sjf`, which reads the global quantum in every iteration. -/
def sjfLoop : Loop (Run Q) where
  guard run := !allProcessesCompleted run.sim.head
  body run := dispatch ops run.sim.timeQuantumSjf run

def sjfStart (sim : Sim) (queue : Q) : Run Q :=
  let run := start ops sim queue
  { run with sim := { sim with
      timeQuantumSjf := dynamicTimeQuantum sim.head sim.timeQuantumSjf } }

def SjfReturns (sim : Sim) (queue : Q) (sim' : Sim) : Prop :=
  ∃ run, (sjfLoop ops).Exits (sjfStart ops sim queue) run ∧ run.sim = sim'

end Sjf

/-- `enqueue` does not read the quantum. -/
theorem sjfStart_eq {Q : Type} (ops : QueueOps Q) (sim : Sim) (queue : Q) :
    sjfStart ops sim queue = start ops { sim with
      timeQuantumSjf := dynamicTimeQuantum sim.head sim.timeQuantumSjf } queue :=
  rfl

section Projections

variable {Q : Type} (ops : QueueOps Q) (sim : Sim) (queue : Q)
  (quantum : Int) (ptr : Process)

@[simp] theorem start_sim : (start ops sim queue).sim = sim := rfl

@[simp] theorem start_queue : (start ops sim queue).queue =
    enqueue ops sim.currentTime sim.head queue (-1) := rfl

@[simp] theorem idle_sim : (idle ops sim queue).sim =
    { sim with currentTime := sim.currentTime + 1 } := rfl

@[simp] theorem idle_queue : (idle ops sim queue).queue =
    enqueue ops (sim.currentTime + 1) sim.head queue (-1) := rfl

@[simp] theorem finish_sim : (finish sim queue ptr).sim =
    { sim with
      currentTime := sim.currentTime + ptr.remain
      head := updateProcess (Process.complete (sim.currentTime + ptr.remain))
        ptr.pid sim.head } := rfl

@[simp] theorem finish_queue : (finish sim queue ptr).queue = queue := rfl

@[simp] theorem requeue_sim : (requeue ops quantum sim queue ptr).sim =
    { sim with
      currentTime := sim.currentTime + quantum
      head := updateProcess (Process.preempt quantum) ptr.pid sim.head } := rfl

@[simp] theorem requeue_queue : (requeue ops quantum sim queue ptr).queue =
    enqueue ops (sim.currentTime + quantum)
      (updateProcess (Process.preempt quantum) ptr.pid sim.head) queue
      ptr.pid := rfl

@[simp] theorem serveLoop_guard (run : Run Q) :
    (serveLoop ops quantum).guard run = !allProcessesCompleted run.sim.head := rfl

end Projections

/-- The quantum is not assigned inside the loops. -/
@[simp] theorem dispatch_timeQuantumSjf {Q : Type} (ops : QueueOps Q)
    (quantum : Int) (run : Run Q) :
    (dispatch ops quantum run).sim.timeQuantumSjf = run.sim.timeQuantumSjf := by
  simp only [dispatch]
  split
  · rfl
  · split
    · rfl
    · split <;> rfl

/-- Columns of the table that no iteration writes. -/
theorem map_dispatch {Q : Type} (ops : QueueOps Q) (quantum : Int) {α : Type}
    (g : Process → α) (hcomplete : ∀ t p, g (Process.complete t p) = g p)
    (hpreempt : ∀ d p, g (Process.preempt d p) = g p) (run : Run Q) :
    (dispatch ops quantum run).sim.head.map g = run.sim.head.map g := by
  simp only [dispatch]
  split
  · rfl
  · split
    · rfl
    · split
      · exact map_updateProcess g (hcomplete _) _ _
      · exact map_updateProcess g (hpreempt _) _ _

theorem sjfLoop_state {Q : Type} (ops : QueueOps Q) (run : Run Q) (n : Nat) :
    (sjfLoop ops).state run n =
      (serveLoop ops run.sim.timeQuantumSjf).state run n := by
  have hsame := Loop.lockstep (sjfLoop ops)
    (serveLoop ops run.sim.timeQuantumSjf)
    (R := fun s t => s = t ∧ s.sim.timeQuantumSjf = run.sim.timeQuantumSjf)
    (fun s t h => by rw [h.1]; rfl)
    (fun s t h _ => by
      obtain ⟨rfl, hquantum⟩ := h
      refine ⟨?_, ?_⟩
      · simp only [sjfLoop, serveLoop, hquantum]
      · simp only [sjfLoop, dispatch_timeQuantumSjf, hquantum])
    (s := run) (t := run) ⟨rfl, rfl⟩ n
  exact hsame.1

end SyscallSched.Simulators.Mlfqs
