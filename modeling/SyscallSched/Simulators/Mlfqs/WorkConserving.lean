import SyscallSched.Simulators.Mlfqs.Correctness

/-!
# When `rr` and `sjf` idle

The idle branch is taken whenever the queue is empty.  Arrivals are looked for
by `enqueue` only, which an iteration calls after an idle tick and after a
preemption, but not after a completion.  A loop is therefore work conserving
exactly when no iteration leaves the queue empty behind a ready process, and
this is decided by the state before the iteration.
-/

namespace SyscallSched.Simulators.Mlfqs

open SyscallSched.Foundation

def NoneReady (sim : Sim) : Prop :=
  ∀ p ∈ sim.head, ¬ p.Ready sim.currentTime

instance (sim : Sim) : Decidable (NoneReady sim) :=
  inferInstanceAs (Decidable (∀ p ∈ sim.head, ¬ p.Ready sim.currentTime))

def WorkConserving {Q : Type} (ops : QueueOps Q) (loop : Loop (Run Q))
    (run : Run Q) : Prop :=
  ∀ n, loop.guard (loop.state run n) = true →
    isIdle ops (loop.state run n) = true → NoneReady (loop.state run n).sim

/-- The only ready process is hidden by the stale cell. -/
def OnlyStale (stale : Option Int) (t : Int) (head : List Process) : Prop :=
  (∃ p ∈ head, p.Ready t) ∧ ∀ p ∈ head, p.Ready t → stale = some p.pid

instance (stale : Option Int) (t : Int) (head : List Process) :
    Decidable (OnlyStale stale t head) :=
  inferInstanceAs (Decidable (_ ∧ _))

/-- A condition on the state before an iteration that serves with `quantum`:
a completion that empties the queue ends before any other unfinished process
arrives, and an `enqueue` on an empty queue does not miss the only ready
process because of the stale cell. -/
def SeesArrivals (stale : Option Int) (quantum : Int) (sim : Sim) :
    List Int → Prop
  | [] => ¬ OnlyStale stale (sim.currentTime + 1) sim.head
  | [pid] => ∀ ptr ∈ sim.head, ptr.pid = pid →
      (ptr.remain ≤ quantum → ∀ q ∈ sim.head, q.pid ≠ pid →
        ¬ q.Ready (sim.currentTime + ptr.remain)) ∧
      (quantum < ptr.remain →
        ¬ OnlyStale stale (sim.currentTime + quantum) sim.head)
  | _ :: _ :: _ => True

instance (stale : Option Int) (quantum : Int) (sim : Sim) :
    (queue : List Int) → Decidable (SeesArrivals stale quantum sim queue)
  | [] => inferInstanceAs (Decidable (¬ _))
  | [_] => inferInstanceAs (Decidable (∀ ptr ∈ sim.head, _))
  | _ :: _ :: _ => inferInstanceAs (Decidable True)

theorem seesArrivals_singleton {stale : Option Int} {quantum : Int} {sim : Sim}
    (hnodup : (sim.head.map Process.pid).Nodup) {ptr : Process}
    (hptr : ptr ∈ sim.head) :
    SeesArrivals stale quantum sim [ptr.pid] ↔
      (ptr.remain ≤ quantum → ∀ q ∈ sim.head, q.pid ≠ ptr.pid →
        ¬ q.Ready (sim.currentTime + ptr.remain)) ∧
      (quantum < ptr.remain →
        ¬ OnlyStale stale (sim.currentTime + quantum) sim.head) := by
  constructor
  · intro h
    exact h ptr hptr rfl
  · intro h p hp hpid
    rw [eq_of_pid_eq hnodup hp hptr hpid]
    exact h

/-! ## Runs over live entries -/

def Visible (run : Run (List Int)) : Prop :=
  run.queue = [] → NoneReady run.sim

variable {stale : Option Int} {quantum : Int} {run : Run (List Int)}

theorem noneReady_of_completed {sim : Sim}
    (h : allProcessesCompleted sim.head = true) : NoneReady sim := by
  intro p hp hready
  have hle := allProcessesCompleted_iff.mp h p hp
  have hpos := hready.2
  omega

theorem visible_enqueue_iff (sim : Sim) :
    (enqueue (fifoOps stale) sim.currentTime sim.head [] (-1) = [] →
        NoneReady sim) ↔ ¬ OnlyStale stale sim.currentTime sim.head := by
  rw [enqueue_eq_nil_iff]
  constructor
  · rintro h ⟨⟨p, hp, hready⟩, hall⟩
    exact h ⟨rfl, hall, .inl rfl⟩ p hp hready
  · rintro h ⟨-, hall, -⟩ p hp hready
    exact h ⟨⟨p, hp, hready⟩, hall⟩

theorem exists_ready_preempt_iff (hnodup : (run.sim.head.map Process.pid).Nodup)
    {ptr : Process} (hptr : ptr ∈ run.sim.head)
    (hready : ptr.Ready run.sim.currentTime) (hquantum : 0 ≤ quantum)
    (hlt : quantum < ptr.remain) (P : Int → Prop) :
    (∃ p ∈ updateProcess (Process.preempt quantum) ptr.pid run.sim.head,
        p.Ready (run.sim.currentTime + quantum) ∧ P p.pid) ↔
      ∃ p ∈ run.sim.head, p.Ready (run.sim.currentTime + quantum) ∧ P p.pid := by
  have hfind := findProcess_of_mem hnodup hptr
  have hptr' : ptr.Ready (run.sim.currentTime + quantum) :=
    hready.mono (by omega)
  constructor
  · rintro ⟨p, hp, hp', hP⟩
    rcases (mem_updateProcess hnodup hfind).mp hp with rfl | ⟨hp, -⟩
    · exact ⟨ptr, hptr, hptr', hP⟩
    · exact ⟨p, hp, hp', hP⟩
  · rintro ⟨p, hp, hp', hP⟩
    by_cases heq : p.pid = ptr.pid
    · refine ⟨ptr.preempt quantum,
        (mem_updateProcess hnodup hfind).mpr (.inl rfl), ⟨hptr'.1, ?_⟩, ?_⟩
      · simp only [preempt_remain]
        omega
      · exact heq ▸ hP
    · exact ⟨p, (mem_updateProcess hnodup hfind).mpr (.inr ⟨hp, heq⟩), hp', hP⟩

theorem visible_finish_iff (h : Queued run) {ptr : Process} {rest : List Int}
    (hqueue : run.queue = ptr.pid :: rest) (hptr : ptr ∈ run.sim.head)
    (hle : ptr.remain ≤ quantum) :
    Visible (finish run.sim rest ptr) ↔
      SeesArrivals stale quantum run.sim run.queue := by
  have hfind := findProcess_of_mem h.nodup hptr
  rw [hqueue]
  cases rest with
  | cons pid rest => simp [Visible, SeesArrivals]
  | nil =>
      have hsees : SeesArrivals stale quantum run.sim [ptr.pid] ↔
          ∀ q ∈ run.sim.head, q.pid ≠ ptr.pid →
            ¬ q.Ready (run.sim.currentTime + ptr.remain) := by
        have hnot : ¬ quantum < ptr.remain := by omega
        simp [seesArrivals_singleton h.nodup hptr, hle, hnot]
      rw [hsees]
      constructor
      · intro hvis q hq hne
        refine hvis rfl q ?_
        exact (mem_updateProcess h.nodup hfind).mpr (.inr ⟨hq, hne⟩)
      · intro hnone _ q hq
        rcases (mem_updateProcess h.nodup hfind).mp hq with rfl | ⟨hq, hne⟩
        · intro hready
          have := hready.2
          simp at this
        · exact hnone q hq hne

theorem visible_requeue_iff (h : Queued run) {ptr : Process} {rest : List Int}
    (hqueue : run.queue = ptr.pid :: rest) (hptr : ptr ∈ run.sim.head)
    (hready : ptr.Ready run.sim.currentTime) (hquantum : 0 ≤ quantum)
    (hlt : quantum < ptr.remain) :
    Visible (requeue (fifoOps stale) quantum run.sim rest ptr) ↔
      SeesArrivals stale quantum run.sim run.queue := by
  have hptr' : ptr.Ready (run.sim.currentTime + quantum) :=
    hready.mono (by omega)
  rw [hqueue]
  cases rest with
  | cons pid rest =>
      simp [Visible, SeesArrivals, enqueue_eq_nil_iff]
  | nil =>
      have hsees : SeesArrivals stale quantum run.sim [ptr.pid] ↔
          ¬ OnlyStale stale (run.sim.currentTime + quantum) run.sim.head := by
        have hnot : ¬ ptr.remain ≤ quantum := by omega
        simp [seesArrivals_singleton h.nodup hptr, hlt, hnot]
      have hiff := exists_ready_preempt_iff h.nodup hptr hready hquantum hlt
      rw [hsees, Visible, requeue_queue, requeue_sim, enqueue_eq_nil_iff]
      constructor
      · rintro hvis ⟨-, hall⟩
        have hstale : stale = some ptr.pid := hall ptr hptr hptr'
        have hall' : ∀ p ∈ updateProcess (Process.preempt quantum) ptr.pid
            run.sim.head, p.Ready (run.sim.currentTime + quantum) →
              stale = some p.pid := by
          intro p hp hp'
          by_contra hP
          obtain ⟨q, hq, hq', hQ⟩ :=
            (hiff fun pid => stale ≠ some pid).mp ⟨p, hp, hp', hP⟩
          exact hQ (hall q hq hq')
        obtain ⟨p, hp, hp', -⟩ :=
          (hiff fun _ => True).mpr ⟨ptr, hptr, hptr', trivial⟩
        exact hvis ⟨rfl, hall', .inr hstale⟩ p hp hp'
      · rintro honly ⟨-, hall, hstale⟩
        refine absurd ⟨⟨ptr, hptr, hptr'⟩, ?_⟩ honly
        intro q hq hq'
        by_contra hQ
        obtain ⟨p, hp, hp', hP⟩ :=
          (hiff fun pid => stale ≠ some pid).mpr ⟨q, hq, hq', hQ⟩
        exact hP (hall p hp hp')

theorem visible_dispatch_iff (h : Queued run) (hquantum : 0 ≤ quantum) :
    Visible (dispatch (fifoOps stale) quantum run) ↔
      SeesArrivals stale quantum run.sim run.queue := by
  rcases dispatch_cases stale quantum h with
    ⟨hnil, hstep⟩ | ⟨ptr, rest, hqueue, hptr, hready, -, hcase⟩
  · rw [hstep, hnil, Visible, idle_queue]
    exact visible_enqueue_iff { run.sim with currentTime := run.sim.currentTime + 1 }
  · rcases hcase with ⟨hle, hstep⟩ | ⟨hlt, hstep⟩
    · rw [hstep]
      exact visible_finish_iff h hqueue hptr hle
    · rw [hstep]
      exact visible_requeue_iff h hqueue hptr hready hquantum hlt

theorem workConserving_fifo_iff (stale : Option Int) (h : Queued run)
    (hquantum : 0 ≤ quantum) :
    WorkConserving (fifoOps stale) (serveLoop (fifoOps stale) quantum) run ↔
      Visible run ∧ ∀ n,
        (serveLoop (fifoOps stale) quantum).guard
            ((serveLoop (fifoOps stale) quantum).state run n) = true →
          SeesArrivals stale quantum
            ((serveLoop (fifoOps stale) quantum).state run n).sim
            ((serveLoop (fifoOps stale) quantum).state run n).queue := by
  have hqueued : ∀ n, Queued ((serveLoop (fifoOps stale) quantum).state run n) :=
    queued_serveLoop h hquantum
  have hall : WorkConserving (fifoOps stale)
        (serveLoop (fifoOps stale) quantum) run ↔
      ∀ n, Visible ((serveLoop (fifoOps stale) quantum).state run n) := by
    constructor
    · intro hwork n hnil
      cases hdone : allProcessesCompleted
          ((serveLoop (fifoOps stale) quantum).state run n).sim.head with
      | true => exact noneReady_of_completed hdone
      | false =>
          exact hwork n (by simp [hdone]) ((isIdle_fifo (hqueued n)).mpr hnil)
    · intro hvis n _ hidle
      exact hvis n ((isIdle_fifo (hqueued n)).mp hidle)
  rw [hall, Loop.forall_state_iff]
  refine and_congr_right fun _ => forall_congr' fun n => imp_congr_right fun _ => ?_
  exact visible_dispatch_iff (hqueued n) hquantum

/-! ## Runs over the array -/

theorem workConserving_array_iff (sim : Sim) (hpids : ProperPids sim.head)
    (cell : Int → Int)
    (hquantum : allProcessesCompleted sim.head = false → 0 ≤ quantum) :
    WorkConserving arrayOps (serveLoop arrayOps quantum)
        (start arrayOps sim (Queue.declared cell)) ↔
      ¬ OnlyStale (some (cell (-1))) sim.currentTime sim.head ∧ ∀ n,
        (serveLoop arrayOps quantum).guard ((serveLoop arrayOps quantum).state
            (start arrayOps sim (Queue.declared cell)) n) = true →
          SeesArrivals (some (cell (-1))) quantum
            ((serveLoop arrayOps quantum).state
              (start arrayOps sim (Queue.declared cell)) n).sim
            ((serveLoop arrayOps quantum).state
              (start arrayOps sim (Queue.declared cell)) n).queue.live := by
  cases hdone : allProcessesCompleted sim.head with
  | true =>
      have hguard : (serveLoop arrayOps quantum).guard
          (start arrayOps sim (Queue.declared cell)) = false := by
        simp [hdone]
      have hnone := noneReady_of_completed hdone
      simp only [WorkConserving, Loop.state_of_not_guard _ hguard, hguard]
      simp only [Bool.false_eq_true, false_implies, implies_true, and_true, true_iff]
      rintro ⟨⟨p, hp, hready⟩, -⟩
      exact hnone p hp hready
  | false =>
      have hqueued : Queued (start (fifoOps (some (cell (-1)))) sim []) :=
        queued_start hpids
      have hfifo := workConserving_fifo_iff (some (cell (-1))) hqueued
        (hquantum hdone)
      have hvis : Visible (start (fifoOps (some (cell (-1)))) sim []) ↔
          ¬ OnlyStale (some (cell (-1))) sim.currentTime sim.head :=
        visible_enqueue_iff sim
      rw [hvis] at hfifo
      have hidle : ∀ n, isIdle arrayOps ((serveLoop arrayOps quantum).state
          (start arrayOps sim (Queue.declared cell)) n) =
          isIdle (fifoOps (some (cell (-1))))
            ((serveLoop (fifoOps (some (cell (-1)))) quantum).state
              (start (fifoOps (some (cell (-1)))) sim []) n) := by
        intro n
        unfold isIdle
        rw [arrayRun_dequeue]
      simp only [WorkConserving, serveLoop_guard, hidle, arrayRun_live, arrayRun_sim]
      simpa only [WorkConserving, serveLoop_guard] using hfifo

/-- `rr` and `sjf` idle past a ready process exactly when some iteration of
the run does not see the arrivals. -/
theorem rr_sjf_workConserving_iff (sim : Sim) (hpids : ProperPids sim.head)
    (cell : Int → Int) :
    (WorkConserving arrayOps (rrLoop arrayOps)
        (rrStart arrayOps sim (Queue.declared cell)) ↔
      ¬ OnlyStale (some (cell (-1))) sim.currentTime sim.head ∧ ∀ n,
        let run := (rrLoop arrayOps).state
          (rrStart arrayOps sim (Queue.declared cell)) n
        (rrLoop arrayOps).guard run = true →
          SeesArrivals (some (cell (-1))) timeQuantumRr run.sim
            run.queue.live) ∧
    (WorkConserving arrayOps (sjfLoop arrayOps)
        (sjfStart arrayOps sim (Queue.declared cell)) ↔
      ¬ OnlyStale (some (cell (-1))) sim.currentTime sim.head ∧ ∀ n,
        let run := (sjfLoop arrayOps).state
          (sjfStart arrayOps sim (Queue.declared cell)) n
        (sjfLoop arrayOps).guard run = true →
          SeesArrivals (some (cell (-1)))
            (dynamicTimeQuantum sim.head sim.timeQuantumSjf) run.sim
            run.queue.live) := by
  constructor
  · exact workConserving_array_iff sim hpids cell fun _ => by decide
  · have hquantum : allProcessesCompleted sim.head = false →
        0 ≤ dynamicTimeQuantum sim.head sim.timeQuantumSjf := by
      intro hactive
      exact Int.le_of_lt (dynamicTimeQuantum_pos hactive sim.timeQuantumSjf)
    have harray := workConserving_array_iff { sim with
        timeQuantumSjf := dynamicTimeQuantum sim.head sim.timeQuantumSjf }
      hpids cell hquantum
    simp only [WorkConserving, sjfLoop_state, sjfStart_eq, start_sim]
    exact harray

/-- The second process arrives while the first one runs to completion. -/
def lateArrival : Sim :=
  Sim.init (assignProcessors 1 (createProcesses (-1) [⟨1, 0, 2⟩, ⟨2, 1, 1⟩]))

theorem lateArrival_not_workConserving :
    ¬ WorkConserving arrayOps (rrLoop arrayOps)
        (rrStart arrayOps lateArrival (Queue.declared fun _ => 0)) ∧
      ¬ WorkConserving arrayOps (sjfLoop arrayOps)
        (sjfStart arrayOps lateArrival (Queue.declared fun _ => 0)) := by
  constructor
  · intro h
    have hnone := h 1 (by decide) (by decide)
    revert hnone
    decide
  · intro h
    have hnone := h 1 (by decide) (by decide)
    revert hnone
    decide

/-- The simulators idle before the first process and before the last one; the other two
arrive while the first one has its turns. -/
def spacedArrivals : Sim :=
  Sim.init (assignProcessors 1 (createProcesses (-1)
    [⟨1, 1, 9⟩, ⟨2, 2, 2⟩, ⟨3, 4, 1⟩, ⟨4, 20, 2⟩]))

theorem spacedArrivals_workConserving :
    WorkConserving arrayOps (rrLoop arrayOps)
        (rrStart arrayOps spacedArrivals (Queue.declared fun _ => 0)) ∧
      WorkConserving arrayOps (sjfLoop arrayOps)
        (sjfStart arrayOps spacedArrivals (Queue.declared fun _ => 0)) := by
  have hiff := rr_sjf_workConserving_iff spacedArrivals
    (properPids_input 1 (-1) (by decide) (by decide)) fun _ => 0
  have hfirst : ¬ OnlyStale (some 0) spacedArrivals.currentTime spacedArrivals.head := by decide
  constructor
  · apply hiff.1.mpr
    refine ⟨hfirst, ?_⟩
    have hsees : ∀ n < 16, SeesArrivals (some 0) timeQuantumRr
        ((rrLoop arrayOps).state (rrStart arrayOps spacedArrivals
          (Queue.declared fun _ => 0)) n).sim
        ((rrLoop arrayOps).state (rrStart arrayOps spacedArrivals
          (Queue.declared fun _ => 0)) n).queue.live := by decide +kernel
    intro n run hguard
    exact hsees n (Loop.lt_of_exit _ (by decide +kernel) hguard)
  · apply hiff.2.mpr
    refine ⟨hfirst, ?_⟩
    have hsees : ∀ n < 16, SeesArrivals (some 0)
        (dynamicTimeQuantum spacedArrivals.head spacedArrivals.timeQuantumSjf)
        ((sjfLoop arrayOps).state (sjfStart arrayOps spacedArrivals
          (Queue.declared fun _ => 0)) n).sim
        ((sjfLoop arrayOps).state (sjfStart arrayOps spacedArrivals
          (Queue.declared fun _ => 0)) n).queue.live := by decide +kernel
    intro n run hguard
    exact hsees n (Loop.lt_of_exit _ (by decide +kernel) hguard)

end SyscallSched.Simulators.Mlfqs
