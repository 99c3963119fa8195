import SyscallSched.Simulators.Mlfq.Response
import SyscallSched.Simulators.Mlfqs.Response

/-!
# The response time in the three queue simulators

`rr`, `sjf` and `mlfq` store the same expression in `rt`.  It is the time from the arrival
to the first dispatch for exactly those processes that are not interrupted afterwards.
-/

namespace SyscallSched.Simulators

open SyscallSched.Foundation

/-- For every finished process of a run of `rr`, of `sjf` and of `mlfq`: `rt` is the clock of
the first dispatch less the arrival if and only if each preemption finds no other process
that would be served before the process is served again. -/
theorem rt_eq_firstTurn_iff (sim : Mlfqs.Sim) (hpids : Mlfqs.ProperPids sim.head)
    (hfresh : ∀ p ∈ sim.head, p.remain = p.bt ∧ 1 ≤ p.bt) (cell : Int → Int) (k : Nat) :
    (let loop : Loop (Mlfqs.Run Mlfqs.Queue) := Mlfqs.rrLoop Mlfqs.arrayOps
      let run := Mlfqs.rrStart Mlfqs.arrayOps sim (Mlfqs.Queue.declared cell)
      ∀ q ∈ (loop.state run k).sim.head, q.remain = 0 →
        (Mlfqs.RespondsAtFirstTurn Mlfqs.arrayOps loop run q ↔
          ∀ n, ∀ ptr ∈ (loop.state run n).sim.head, ptr.pid = q.pid →
            Mlfqs.nextPid Mlfqs.arrayOps (loop.state run n) = q.pid →
              Mlfqs.timeQuantumRr < ptr.remain →
                Mlfqs.ResumesAtOnce (some (cell (-1))) Mlfqs.timeQuantumRr
                  (loop.state run n).sim q.pid (loop.state run n).queue.live.tail)) ∧
    (let loop : Loop (Mlfqs.Run Mlfqs.Queue) := Mlfqs.sjfLoop Mlfqs.arrayOps
      let run := Mlfqs.sjfStart Mlfqs.arrayOps sim (Mlfqs.Queue.declared cell)
      let quantum := Mlfqs.dynamicTimeQuantum sim.head sim.timeQuantumSjf
      ∀ q ∈ (loop.state run k).sim.head, q.remain = 0 →
        (Mlfqs.RespondsAtFirstTurn Mlfqs.arrayOps loop run q ↔
          ∀ n, ∀ ptr ∈ (loop.state run n).sim.head, ptr.pid = q.pid →
            Mlfqs.nextPid Mlfqs.arrayOps (loop.state run n) = q.pid →
              quantum < ptr.remain →
                Mlfqs.ResumesAtOnce (some (cell (-1))) quantum
                  (loop.state run n).sim q.pid (loop.state run n).queue.live.tail)) ∧
    (let run := Mlfq.loop.state (Mlfq.start sim.head)
      ∀ q ∈ (run k).head, q.remain = 0 →
        (Mlfq.RespondsAtFirstTurn sim.head q ↔
          ∀ n ptr, Mlfq.Dispatched (run n) ptr → ptr.pid = q.pid →
            Mlfq.quantum (run n).level < ptr.remain → Mlfq.Alone (run n) q.pid)) := by
  refine ⟨?_, ?_, ?_⟩
  · intro loop run q hq hdone
    exact Mlfqs.respondsAtFirstTurn_array_iff sim hpids hfresh cell (fun _ => by decide) hq hdone
  · intro loop run quantum q hq hdone
    have hquantum : Mlfqs.allProcessesCompleted sim.head = false → 1 ≤ quantum :=
      fun hactive => Mlfqs.dynamicTimeQuantum_pos hactive sim.timeQuantumSjf
    have harray := Mlfqs.respondsAtFirstTurn_array_iff (k := k) (q := q)
      { sim with timeQuantumSjf := quantum } hpids hfresh cell hquantum
    simp only [loop, run, Mlfqs.RespondsAtFirstTurn, Mlfqs.FirstTurn, Mlfqs.sjfLoop_state,
      Mlfqs.sjfStart_eq, Mlfqs.start_sim] at hq ⊢
    exact harray hq hdone
  · intro run q hq hdone
    have hbt : ∀ p ∈ sim.head, 1 ≤ p.bt := fun p hp => (hfresh p hp).2
    exact Mlfq.respondsAtFirstTurn_iff
      ⟨hpids.nodup, hbt, fun p hp => (hfresh p hp).1⟩ hq hdone

def interrupted : Mlfqs.Sim :=
  Mlfqs.Sim.init (assignProcessors 1 (createProcesses (-1)
    [⟨1, 0, 4⟩, ⟨2, 0, 1⟩, ⟨3, 0, 1⟩, ⟨4, 0, 1⟩]))

/-- The quantum that `sjf` chooses is one unit. -/
theorem sjfStart_interrupted :
    Mlfqs.sjfStart Mlfqs.arrayOps interrupted (Mlfqs.Queue.declared fun _ => 0) =
      Mlfqs.start Mlfqs.arrayOps { interrupted with timeQuantumSjf := 1 }
        (Mlfqs.Queue.declared fun _ => 0) := by
  have hquantum : Mlfqs.dynamicTimeQuantum interrupted.head interrupted.timeQuantumSjf = 1 := by
    decide
  rw [Mlfqs.sjfStart_eq, hquantum]

/-- The long process is dispatched when it arrives, and its `rt` is not zero. -/
theorem interrupted_not_responds :
    (Mlfqs.ProperPids interrupted.head ∧ ∀ p ∈ interrupted.head, p.remain = p.bt ∧ 1 ≤ p.bt) ∧
    (¬ ∀ q ∈ ((Mlfqs.rrLoop Mlfqs.arrayOps).state (Mlfqs.rrStart Mlfqs.arrayOps interrupted
        (Mlfqs.Queue.declared fun _ => 0)) 5).sim.head, q.remain = 0 →
      Mlfqs.RespondsAtFirstTurn Mlfqs.arrayOps (Mlfqs.rrLoop Mlfqs.arrayOps)
        (Mlfqs.rrStart Mlfqs.arrayOps interrupted (Mlfqs.Queue.declared fun _ => 0)) q) ∧
    (¬ ∀ q ∈ ((Mlfqs.sjfLoop Mlfqs.arrayOps).state (Mlfqs.sjfStart Mlfqs.arrayOps interrupted
        (Mlfqs.Queue.declared fun _ => 0)) 7).sim.head, q.remain = 0 →
      Mlfqs.RespondsAtFirstTurn Mlfqs.arrayOps (Mlfqs.sjfLoop Mlfqs.arrayOps)
        (Mlfqs.sjfStart Mlfqs.arrayOps interrupted (Mlfqs.Queue.declared fun _ => 0)) q) ∧
    ¬ ∀ q ∈ (Mlfq.loop.state (Mlfq.start interrupted.head) 6).head, q.remain = 0 →
      Mlfq.RespondsAtFirstTurn interrupted.head q := by
  refine ⟨⟨Mlfqs.properPids_input 1 (-1) (by decide) (by decide), by decide⟩, ?_, ?_, ?_⟩
  · intro h
    obtain ⟨n, hfirst, hrt⟩ := h ⟨1, 0, 4, 0, 7, 7, 3, 3, 0⟩ (by decide) rfl
    rw [hfirst.unique (n := 0) ⟨by decide, by decide, by simp⟩] at hrt
    revert hrt
    decide
  · rw [sjfStart_interrupted]
    intro h
    obtain ⟨n, hfirst, hrt⟩ := h ⟨1, 0, 4, 0, 7, 7, 3, 3, 0⟩ (by decide) rfl
    rw [hfirst.unique (n := 0) ⟨by decide, by decide, by simp⟩] at hrt
    revert hrt
    decide
  · intro h
    obtain ⟨n, ptr, hfirst, hpid, hrt⟩ := h ⟨1, 0, 4, 0, 7, 7, 3, 3, 0⟩ (by decide +kernel) rfl
    have hstart : Mlfq.FirstTurn interrupted.head ⟨1, 0, 4, 0, -1, -1, -1, -1, 4⟩ 0 :=
      ⟨⟨by decide, by decide⟩, by simp⟩
    obtain ⟨rfl, rfl⟩ := hfirst.unique hstart hpid
    revert hrt
    decide

def spread : Mlfqs.Sim :=
  Mlfqs.Sim.init (assignProcessors 1 (createProcesses (-1)
    [⟨1, 0, 1⟩, ⟨2, 1, 2⟩, ⟨3, 2, 2⟩, ⟨4, 3, 9⟩]))

def rrSpread (n : Nat) : Mlfqs.Run Mlfqs.Queue :=
  (Mlfqs.rrLoop Mlfqs.arrayOps).state
    (Mlfqs.rrStart Mlfqs.arrayOps spread (Mlfqs.Queue.declared fun _ => 0)) n

def sjfSpread (n : Nat) : Mlfqs.Run Mlfqs.Queue :=
  (Mlfqs.sjfLoop Mlfqs.arrayOps).state
    (Mlfqs.sjfStart Mlfqs.arrayOps spread (Mlfqs.Queue.declared fun _ => 0)) n

def mlfqSpread (n : Nat) : Mlfq.State := Mlfq.loop.state (Mlfq.start spread.head) n

def ResumesIn (quantum pid : Int) (run : Mlfqs.Run Mlfqs.Queue) : Prop :=
  ∀ ptr ∈ run.sim.head, ptr.pid = pid → Mlfqs.nextPid Mlfqs.arrayOps run = pid →
    quantum < ptr.remain →
      Mlfqs.ResumesAtOnce (some 0) quantum run.sim pid run.queue.live.tail

instance (quantum pid : Int) (run : Mlfqs.Run Mlfqs.Queue) :
    Decidable (ResumesIn quantum pid run) :=
  inferInstanceAs (Decidable (∀ ptr ∈ _, _))

def AloneIn (pid : Int) (s : Mlfq.State) : Prop :=
  ∀ ptr ∈ s.head, Mlfq.dispatches ptr.pid s = true → ptr.pid = pid →
    Mlfq.quantum s.level < ptr.remain → Mlfq.Alone s pid

instance (pid : Int) (s : Mlfq.State) : Decidable (AloneIn pid s) :=
  inferInstanceAs (Decidable (∀ ptr ∈ _, _))

theorem rrSpread_resumes {q : Process} (hq : q ∈ (rrSpread 10).sim.head) (n : Nat) :
    ResumesIn Mlfqs.timeQuantumRr q.pid (rrSpread n) := by
  have hall : ∀ q ∈ (rrSpread 10).sim.head, ∀ n < 11,
      ResumesIn Mlfqs.timeQuantumRr q.pid (rrSpread n) := by decide +kernel
  have hexit : (Mlfqs.rrLoop Mlfqs.arrayOps).guard (rrSpread 10) = false := by decide +kernel
  exact Loop.forall_state_of_exit _ hexit (hall q hq) n

theorem sjfSpread_resumes {q : Process} (hq : q ∈ (sjfSpread 10).sim.head) (n : Nat) :
    ResumesIn (Mlfqs.dynamicTimeQuantum spread.head spread.timeQuantumSjf) q.pid
      (sjfSpread n) := by
  have hall : ∀ q ∈ (sjfSpread 10).sim.head, ∀ n < 11,
      ResumesIn (Mlfqs.dynamicTimeQuantum spread.head spread.timeQuantumSjf) q.pid
        (sjfSpread n) := by decide +kernel
  have hexit : (Mlfqs.sjfLoop Mlfqs.arrayOps).guard (sjfSpread 10) = false := by decide +kernel
  exact Loop.forall_state_of_exit _ hexit (hall q hq) n

theorem mlfqSpread_alone {q : Process} (hq : q ∈ (mlfqSpread 13).head) (n : Nat) :
    AloneIn q.pid (mlfqSpread n) := by
  have hall : ∀ q ∈ (mlfqSpread 13).head, ∀ n < 14, AloneIn q.pid (mlfqSpread n) := by
    decide +kernel
  have hexit : Mlfq.loop.guard (mlfqSpread 13) = false := by decide +kernel
  exact Loop.forall_state_of_exit _ hexit (hall q hq) n

theorem spread_responds :
    (∀ q ∈ (rrSpread 10).sim.head, q.remain = 0 ∧ Mlfqs.RespondsAtFirstTurn Mlfqs.arrayOps
      (Mlfqs.rrLoop Mlfqs.arrayOps) (rrSpread 0) q) ∧
    (∀ q ∈ (sjfSpread 10).sim.head, q.remain = 0 ∧ Mlfqs.RespondsAtFirstTurn Mlfqs.arrayOps
      (Mlfqs.sjfLoop Mlfqs.arrayOps) (sjfSpread 0) q) ∧
    ∀ q ∈ (mlfqSpread 13).head, q.remain = 0 ∧ Mlfq.RespondsAtFirstTurn spread.head q := by
  have hpids : Mlfqs.ProperPids spread.head :=
    Mlfqs.properPids_input 1 (-1) (by decide) (by decide)
  have hfresh : ∀ p ∈ spread.head, p.remain = p.bt ∧ 1 ≤ p.bt := by decide
  have hdone : (∀ q ∈ (rrSpread 10).sim.head, q.remain = 0) ∧
      (∀ q ∈ (sjfSpread 10).sim.head, q.remain = 0) ∧
        ∀ q ∈ (mlfqSpread 13).head, q.remain = 0 := by decide +kernel
  obtain ⟨hrr, hsjf, hmlfq⟩ := hdone
  refine ⟨?_, ?_, ?_⟩
  · intro q hq
    have hiff := (rt_eq_firstTurn_iff spread hpids hfresh (fun _ => 0) 10).1 q hq (hrr q hq)
    exact ⟨hrr q hq, hiff.mpr (rrSpread_resumes hq)⟩
  · intro q hq
    have hiff := (rt_eq_firstTurn_iff spread hpids hfresh (fun _ => 0) 10).2.1 q hq (hsjf q hq)
    exact ⟨hsjf q hq, hiff.mpr (sjfSpread_resumes hq)⟩
  · intro q hq
    have hiff := (rt_eq_firstTurn_iff spread hpids hfresh (fun _ => 0) 13).2.2 q hq (hmlfq q hq)
    refine ⟨hmlfq q hq, hiff.mpr ?_⟩
    intro n ptr hptr
    exact mlfqSpread_alone hq n ptr (findProcess_mem hptr.found) hptr.turn

end SyscallSched.Simulators
