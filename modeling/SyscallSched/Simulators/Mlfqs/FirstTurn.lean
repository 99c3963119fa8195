import SyscallSched.Simulators.Mlfqs.Correctness
import SyscallSched.Simulators.Mlfqs.Quantum

/-!
# Processes that `sjf` finishes at once

A process that needs no more than the quantum keeps its record until it is dispatched,
and its first dispatch is then its last.  Every process of a list with distinct pids is
dispatched, so the rank of the quantum counts processes that finish in their first turn.
-/

namespace SyscallSched.Simulators.Mlfqs

open SyscallSched.Foundation

section

variable {Q : Type} (ops : QueueOps Q)

def nextPid (run : Run Q) : Int := (ops.dequeue run.queue).1

def FinishesFirst (loop : Loop (Run Q)) (run : Run Q) (p : Process) : Prop :=
  ∃ n, loop.guard (loop.state run n) = true ∧ nextPid ops (loop.state run n) = p.pid ∧
    (∀ m, m < n → nextPid ops (loop.state run m) ≠ p.pid) ∧
    findProcess (loop.state run n).sim.head p.pid = some p ∧
    findProcess (loop.state run (n + 1)).sim.head p.pid =
      some (p.complete (loop.state run (n + 1)).sim.currentTime)

end

/-- In `sjf` started in `sim`, `rank + 1` of the unfinished processes finish in their first
dispatch. -/
def TwoThirdsFinish (sim : Sim) (cell : Int → Int) : Prop :=
  ∃ done : List Process, done.Sublist (unfinished sim.head) ∧
    rank (unfinished sim.head).length + 1 ≤ done.length ∧
    ∀ p ∈ done, FinishesFirst arrayOps (sjfLoop arrayOps)
      (sjfStart arrayOps sim (Queue.declared cell)) p

variable {stale : Option Int} {quantum : Int} {run : Run (List Int)} {p : Process}

/-! ## A process is left alone until its turn -/

theorem nextPid_cons (stale : Option Int) {pid : Int} {rest : List Int}
    (h : run.queue = pid :: rest) :
    nextPid (fifoOps stale) run = pid := by
  simp [nextPid, fifoOps, h]

theorem exists_rest_of_nextPid {pid : Int} (h : nextPid (fifoOps stale) run = pid)
    (hne : pid ≠ -1) : ∃ rest, run.queue = pid :: rest := by
  cases hqueue : run.queue with
  | nil =>
      rw [nextPid, hqueue] at h
      exact absurd h.symm hne
  | cons first rest =>
      rw [nextPid_cons stale hqueue] at h
      exact ⟨rest, by rw [h]⟩

theorem mem_dispatch (h : Queued run) (hp : p ∈ run.sim.head)
    (hne : nextPid (fifoOps stale) run ≠ p.pid) :
    p ∈ (dispatch (fifoOps stale) quantum run).sim.head := by
  rcases dispatch_cases stale quantum h with
    ⟨_, hstep⟩ | ⟨ptr, rest, hqueue, hptr, _, hfind, ⟨_, hstep⟩ | ⟨_, hstep⟩⟩
  · rw [hstep, idle_sim]
    exact hp
  · rw [nextPid_cons stale hqueue] at hne
    rw [hstep, finish_sim]
    exact (mem_updateProcess h.nodup hfind).mpr (.inr ⟨hp, hne.symm⟩)
  · rw [nextPid_cons stale hqueue] at hne
    rw [hstep, requeue_sim]
    exact (mem_updateProcess h.nodup hfind).mpr (.inr ⟨hp, hne.symm⟩)

theorem mem_serveLoop (h : Queued run) (hquantum : 0 ≤ quantum) (hp : p ∈ run.sim.head)
    {n : Nat} (hne : ∀ m, m < n →
      nextPid (fifoOps stale) ((serveLoop (fifoOps stale) quantum).state run m) ≠ p.pid) :
    p ∈ ((serveLoop (fifoOps stale) quantum).state run n).sim.head := by
  induction n with
  | zero => exact hp
  | succ n ih =>
      have hkept := ih fun m hm => hne m (by omega)
      have hqueued : Queued ((serveLoop (fifoOps stale) quantum).state run n) :=
        queued_serveLoop h hquantum n
      rw [Loop.state_succ]
      cases hguard : (serveLoop (fifoOps stale) quantum).guard
          ((serveLoop (fifoOps stale) quantum).state run n) with
      | true =>
          rw [Loop.next_of_guard _ hguard]
          exact mem_dispatch hqueued hkept (hne n (by omega))
      | false =>
          rw [Loop.next_of_not_guard _ hguard]
          exact hkept

theorem guard_of_unfinished (hp : p ∈ run.sim.head) (hpos : 0 < p.remain) :
    (serveLoop (fifoOps stale) quantum).guard run = true := by
  cases hdone : allProcessesCompleted run.sim.head with
  | false => simp [hdone]
  | true =>
      have hle := allProcessesCompleted_iff.mp hdone p hp
      omega

theorem exists_turn (h : Queued run) (hfresh : FreshCell stale run.sim.head)
    (hquantum : 1 ≤ quantum) (hp : p ∈ run.sim.head) (hpos : 0 < p.remain) :
    ∃ n, nextPid (fifoOps stale) ((serveLoop (fifoOps stale) quantum).state run n) = p.pid := by
  by_contra hnever
  obtain ⟨final, n, hn, hguard⟩ := serveLoop_terminates h hfresh hquantum
  have hkept : p ∈ ((serveLoop (fifoOps stale) quantum).state run n).sim.head :=
    mem_serveLoop h (by omega) hp fun m _ hm => hnever ⟨m, hm⟩
  rw [hn] at hkept
  rw [guard_of_unfinished hkept hpos] at hguard
  cases hguard

theorem finishesFirst_serveLoop (h : Queued run) (hfresh : FreshCell stale run.sim.head)
    (hquantum : 1 ≤ quantum) (hp : p ∈ run.sim.head) (hpos : 0 < p.remain)
    (hle : p.remain ≤ quantum) :
    FinishesFirst (fifoOps stale) (serveLoop (fifoOps stale) quantum) run p := by
  classical
  have hturn := exists_turn h hfresh hquantum hp hpos
  have hfirst : ∀ m, m < Nat.find hturn →
      nextPid (fifoOps stale) ((serveLoop (fifoOps stale) quantum).state run m) ≠ p.pid :=
    fun m hm => Nat.find_min hturn hm
  have hnext := Nat.find_spec hturn
  generalize Nat.find hturn = n at hfirst hnext
  have hkept := mem_serveLoop h (by omega) hp hfirst
  have hqueued : Queued ((serveLoop (fifoOps stale) quantum).state run n) :=
    queued_serveLoop h (by omega) n
  have hguard : (serveLoop (fifoOps stale) quantum).guard
      ((serveLoop (fifoOps stale) quantum).state run n) = true :=
    guard_of_unfinished hkept hpos
  obtain ⟨rest, hqueue⟩ := exists_rest_of_nextPid hnext (hqueued.ne_sentinel p hkept)
  have hfind := findProcess_of_mem hqueued.nodup hkept
  refine ⟨n, hguard, hnext, hfirst, hfind, ?_⟩
  have hstep : (serveLoop (fifoOps stale) quantum).body
      ((serveLoop (fifoOps stale) quantum).state run n) =
        finish ((serveLoop (fifoOps stale) quantum).state run n).sim rest p :=
    (dispatch_cons stale quantum hqueued hqueue hkept).trans (if_pos hle)
  rw [Loop.state_succ_of_guard _ hguard, hstep, finish_sim]
  simp only
  rw [findProcess_updateProcess (complete_pid _), if_pos rfl, hfind]
  rfl

/-! ## The array of the source -/

theorem arrayRun_nextPid (quantum : Int) (sim : Sim) (cell : Int → Int) (n : Nat) :
    nextPid arrayOps ((serveLoop arrayOps quantum).state
        (start arrayOps sim (Queue.declared cell)) n) =
      nextPid (fifoOps (some (cell (-1)))) ((serveLoop (fifoOps (some (cell (-1)))) quantum).state
        (start (fifoOps (some (cell (-1)))) sim []) n) :=
  arrayRun_dequeue quantum sim cell n

theorem finishesFirst_array_iff (cell : Int → Int) (sim : Sim) (quantum : Int) (p : Process) :
    FinishesFirst arrayOps (serveLoop arrayOps quantum)
        (start arrayOps sim (Queue.declared cell)) p ↔
      FinishesFirst (fifoOps (some (cell (-1)))) (serveLoop (fifoOps (some (cell (-1)))) quantum)
        (start (fifoOps (some (cell (-1)))) sim []) p := by
  unfold FinishesFirst
  simp only [serveLoop_guard, arrayRun_nextPid, arrayRun_sim]

theorem finishesFirst_sjf_iff (cell : Int → Int) (sim : Sim) (p : Process) :
    FinishesFirst arrayOps (sjfLoop arrayOps) (sjfStart arrayOps sim (Queue.declared cell)) p ↔
      FinishesFirst (fifoOps (some (cell (-1)))) (serveLoop (fifoOps (some (cell (-1))))
          (dynamicTimeQuantum sim.head sim.timeQuantumSjf))
        (start (fifoOps (some (cell (-1)))) { sim with
          timeQuantumSjf := dynamicTimeQuantum sim.head sim.timeQuantumSjf } []) p := by
  rw [← finishesFirst_array_iff]
  unfold FinishesFirst
  simp only [sjfLoop_state, sjfStart_eq, start_sim]
  exact Iff.rfl

theorem twoThirdsFinish {sim : Sim} (hpids : ProperPids sim.head) {cell : Int → Int}
    (hcell : ∀ p ∈ sim.head, cell (-1) ≠ p.pid) (hne : unfinished sim.head ≠ []) :
    TwoThirdsFinish sim cell := by
  have hfresh : FreshCell (some (cell (-1))) sim.head := by
    intro pid hpid heq
    obtain ⟨p, hp, rfl⟩ := List.mem_map.mp hpid
    exact hcell p hp (Option.some.inj heq)
  have hactive : allProcessesCompleted sim.head = false := by
    obtain ⟨p, hp⟩ := List.exists_mem_of_ne_nil _ hne
    obtain ⟨hp, hpos⟩ := List.mem_filter.mp hp
    simpa [allProcessesCompleted] using ⟨p, hp, by simpa using hpos⟩
  have hquantum : 1 ≤ dynamicTimeQuantum sim.head sim.timeQuantumSjf :=
    dynamicTimeQuantum_pos hactive _
  refine ⟨(unfinished sim.head).filter fun p =>
    decide (p.remain ≤ dynamicTimeQuantum sim.head sim.timeQuantumSjf),
    List.filter_sublist, ?_, ?_⟩
  · rw [← List.countP_eq_length_filter]
    exact rank_lt_countP hne sim.timeQuantumSjf
  · intro p hp
    obtain ⟨hp, hle⟩ := List.mem_filter.mp hp
    obtain ⟨hp, hpos⟩ := List.mem_filter.mp hp
    exact (finishesFirst_sjf_iff cell sim p).mpr (finishesFirst_serveLoop (queued_start hpids)
      hfresh hquantum hp (by simpa using hpos) (by simpa using hle))

theorem dynamicTimeQuantum_twoThirds (sim : Sim) (declared : Nat → Process)
    (cell : Int → Int) :
    let c := (unfinished sim.head).length
    let call := dynamicTimeQuantumArray sim declared
    call.1 = { sim with timeQuantumSjf := call.1.timeQuantumSjf } ∧
    (∀ i ∈ call.2, i < c) ∧
    (c = 0 → call.1 = sim) ∧
    (1 ≤ c → ∀ ordered : List Int, ordered.Perm ((unfinished sim.head).map Process.remain) →
      ordered.Pairwise (· ≤ ·) → ordered[2 * c / 3]? = some call.1.timeQuantumSjf) ∧
    (1 ≤ c → ProperPids sim.head → (∀ p ∈ sim.head, cell (-1) ≠ p.pid) →
      TwoThirdsFinish sim cell) := by
  intro c call
  obtain ⟨hcall, hindices⟩ := dynamicTimeQuantumArray_spec sim declared
  have hquantum : call.1.timeQuantumSjf =
      dynamicTimeQuantum sim.head sim.timeQuantumSjf := by
    rw [hcall]
  refine ⟨?_, hindices, ?_, ?_, ?_⟩
  · rw [hquantum]
    exact hcall
  · intro hc
    have hdone : allProcessesCompleted sim.head = true := by
      rw [allProcessesCompleted_iff]
      intro p hp
      by_contra hpos
      have hnil : unfinished sim.head = [] := List.length_eq_zero_iff.mp hc
      have hmem : p ∈ unfinished sim.head := by
        simp only [unfinished, List.mem_filter, decide_eq_true_eq]
        exact ⟨hp, by omega⟩
      rw [hnil] at hmem
      cases hmem
    exact hcall.trans (by rw [dynamicTimeQuantum_completed hdone])
  · intro hc ordered hperm hsorted
    rw [hquantum]
    exact dynamicTimeQuantum_rank (List.length_pos_iff.mp hc) _ hperm hsorted
  · intro hc hpids hcell
    exact twoThirdsFinish hpids hcell (List.length_pos_iff.mp hc)

theorem dynamicTimeQuantum_twoThirds_three :
    TwoThirdsFinish (Sim.init (assignProcessors 1
      (createProcesses (-1) [⟨1, 0, 5⟩, ⟨2, 1, 3⟩, ⟨3, 1, 2⟩]))) (fun _ => 0) := by
  obtain ⟨_, _, _, _, hfinish⟩ := dynamicTimeQuantum_twoThirds (Sim.init (assignProcessors 1
    (createProcesses (-1) [⟨1, 0, 5⟩, ⟨2, 1, 3⟩, ⟨3, 1, 2⟩])))
    (fun _ => ⟨0, 0, 0, 0, 0, 0, 0, 0, 0⟩) (fun _ => 0)
  exact hfinish (by decide) (properPids_input 1 (-1) (by decide) (by decide)) (by decide)

/-! ## Lists that are not served in full -/

theorem findProcess_identity {head head' : List Process}
    (h : head.map identity = head'.map identity) (pid : Int) :
    (findProcess head pid).map identity = (findProcess head' pid).map identity := by
  induction head generalizing head' with
  | nil =>
      cases head' with
      | nil => rfl
      | cons p' rest' => cases h
  | cons p rest ih =>
      cases head' with
      | nil => cases h
      | cons p' rest' =>
          obtain ⟨hp, hrest⟩ := List.cons.inj h
          have hpid : p.pid = p'.pid := congrArg Prod.fst hp
          unfold findProcess
          rw [List.find?_cons, List.find?_cons, hpid]
          cases p'.pid == pid with
          | true => exact congrArg some hp
          | false => exact ih hrest

/-- Nothing but the first record with its pid finishes in a turn. -/
theorem identity_of_finishesFirst {Q : Type} {ops : QueueOps Q} {run : Run Q}
    (h : FinishesFirst ops (serveLoop ops quantum) run p) :
    (findProcess run.sim.head p.pid).map identity = some (identity p) := by
  obtain ⟨n, _, _, _, hfind, _⟩ := h
  rw [← findProcess_identity (map_identity_serveLoop ops quantum run n) p.pid, hfind]
  rfl

def duplicates : Sim :=
  Sim.init (assignProcessors 1 (createProcesses (-1) [⟨7, 0, 1⟩, ⟨7, 0, 2⟩]))

def single (pid : Int) : Sim :=
  Sim.init (assignProcessors 1 (createProcesses (-1) [⟨pid, 0, 1⟩]))

/-- Of two records with one pid only the first is ever dispatched. -/
theorem duplicates_not_twoThirds (cell : Int → Int) : ¬ TwoThirdsFinish duplicates cell := by
  rintro ⟨done, hsub, hlength, hdone⟩
  have hall := hsub.eq_of_length_le hlength
  have hmem : (⟨7, 0, 2, 0, -1, -1, -1, -1, 2⟩ : Process) ∈ done := by
    rw [hall]
    decide
  have hfirst := identity_of_finishesFirst
    ((finishesFirst_sjf_iff cell duplicates _).mp (hdone _ hmem))
  rw [start_sim] at hfirst
  revert hfirst
  decide

/-- The pid `-1` is taken for an empty queue. -/
theorem sentinel_not_twoThirds : ¬ TwoThirdsFinish (single (-1)) (fun _ => 0) := by
  rintro ⟨done, hsub, hlength, hdone⟩
  have hall := hsub.eq_of_length_le hlength
  have hmem : (⟨-1, 0, 1, 0, -1, -1, -1, -1, 1⟩ : Process) ∈ done := by
    rw [hall]
    decide
  obtain ⟨n, _, _, hfirst, _, hafter⟩ := hdone _ hmem
  cases n with
  | zero =>
      revert hafter
      decide
  | succ n => exact hfirst 0 (by omega) (by decide)

/-- A single process whose pid lies in `queue[-1]` is never appended to the queue. -/
theorem queue_of_hidden {pid : Int} (hstale : stale = some pid) {head : List Process}
    (hhead : ∀ p ∈ head, p.pid = pid) (n : Nat) (hrun : run.queue = [] ∧ run.sim.head = head) :
    ((serveLoop (fifoOps stale) quantum).state run n).queue = [] := by
  have hempty := Loop.invariant (serveLoop (fifoOps stale) quantum)
    (P := fun run => run.queue = [] ∧ run.sim.head = head) hrun (by
      rintro run ⟨hqueue, hsame⟩ _
      have hstep : dispatch (fifoOps stale) quantum run = idle (fifoOps stale) run.sim [] := by
        simp [dispatch, fifoOps, hqueue]
      change (dispatch _ _ run).queue = [] ∧ (dispatch _ _ run).sim.head = _
      rw [hstep, idle_queue, idle_sim, enqueue_eq_nil_iff, hsame]
      refine ⟨⟨rfl, ?_, .inl rfl⟩, rfl⟩
      intro p hp _
      rw [hstale, hhead p hp]) n
  exact hempty.1

theorem hidden_not_twoThirds : ¬ TwoThirdsFinish (single 7) (fun _ => 7) := by
  rintro ⟨done, hsub, hlength, hdone⟩
  have hall := hsub.eq_of_length_le hlength
  have hmem : (⟨7, 0, 1, 0, -1, -1, -1, -1, 1⟩ : Process) ∈ done := by
    rw [hall]
    decide
  obtain ⟨n, _, hnext, _⟩ := (finishesFirst_sjf_iff _ (single 7) _).mp (hdone _ hmem)
  obtain ⟨rest, hqueue⟩ := exists_rest_of_nextPid hnext (by decide)
  rw [queue_of_hidden rfl (by decide) n ⟨by decide, rfl⟩] at hqueue
  cases hqueue

/-- Without conditions on the pids and on `queue[-1]` the count is not reached. -/
theorem twoThirds_fails : ¬ TwoThirdsFinish duplicates (fun _ => 0) ∧
    ¬ TwoThirdsFinish (single (-1)) (fun _ => 0) ∧ ¬ TwoThirdsFinish (single 7) (fun _ => 7) :=
  ⟨duplicates_not_twoThirds _, sentinel_not_twoThirds, hidden_not_twoThirds⟩

end SyscallSched.Simulators.Mlfqs
