import SyscallSched.Simulators.Process
import SyscallSched.Simulators.Mlfqs.Invariant

/-!
# Total correctness of `rr`

Every record is `Accounted` for, and two finished records have different
completion times.  The clock is the time served plus the idle ticks.
-/

namespace SyscallSched.Simulators.Mlfqs

open SyscallSched.Foundation

/-- Records are accounted for and finished ones ended at different times. -/
structure Sound (run : Run (List Int)) : Prop extends Queued run where
  accounted : ∀ p ∈ run.sim.head, Accounted run.sim.currentTime p
  ct_ne : ∀ p ∈ run.sim.head, ∀ q ∈ run.sim.head, p.pid ≠ q.pid →
    p.remain = 0 → q.remain = 0 → p.ct ≠ q.ct

variable {stale : Option Int} {quantum : Int} {run : Run (List Int)}

theorem sound_start {sim : Sim} (hpids : ProperPids sim.head)
    (hfresh : ∀ p ∈ sim.head, p.remain = p.bt ∧ 1 ≤ p.bt) :
    Sound (start (fifoOps stale) sim []) where
  toQueued := queued_start hpids
  accounted := by
    intro p hp
    obtain ⟨hremain, hbt⟩ := hfresh p hp
    constructor <;> omega
  ct_ne := by
    intro p hp q _ _ hzero
    obtain ⟨hremain, hbt⟩ := hfresh p hp
    omega

theorem sound_idle (h : Sound run) :
    Sound (idle (fifoOps stale) run.sim []) where
  toQueued := queued_idle h.toQueued
  accounted := by
    intro p hp
    exact (h.accounted p hp).mono (by rw [idle_sim]; simp)
  ct_ne := h.ct_ne

theorem sound_finish (h : Sound run) {ptr : Process} {rest : List Int}
    (hqueue : run.queue = ptr.pid :: rest) (hptr : ptr ∈ run.sim.head)
    (hready : ptr.Ready run.sim.currentTime) :
    Sound (finish run.sim rest ptr) := by
  have hfind := findProcess_of_mem h.nodup hptr
  have hpos : 0 < ptr.remain := hready.2
  have hmem : ∀ {q : Process}, q ∈ (finish run.sim rest ptr).sim.head ↔
      q = ptr.complete (run.sim.currentTime + ptr.remain) ∨
        (q ∈ run.sim.head ∧ q.pid ≠ ptr.pid) :=
    mem_updateProcess h.nodup hfind
  refine ⟨queued_finish h.toQueued hqueue hptr (by omega), ?_, ?_⟩
  · intro p hp
    rcases hmem.mp hp with rfl | ⟨hp, -⟩
    · exact accounted_complete (h.accounted ptr hptr) hready
    · exact (h.accounted p hp).mono (by rw [finish_sim]; simp only; omega)
  · intro p hp q hq hne hp0 hq0
    rcases hmem.mp hp with rfl | ⟨hp, -⟩
    · rcases hmem.mp hq with rfl | ⟨hq, -⟩
      · exact absurd rfl hne
      · have hct := (h.accounted q hq).ct_le hq0
        simp only [Process.complete]
        omega
    · rcases hmem.mp hq with rfl | ⟨hq, -⟩
      · have hct := (h.accounted p hp).ct_le hp0
        simp only [Process.complete]
        omega
      · exact h.ct_ne p hp q hq hne hp0 hq0

theorem sound_requeue (h : Sound run) {ptr : Process} {rest : List Int}
    (hqueue : run.queue = ptr.pid :: rest) (hptr : ptr ∈ run.sim.head)
    (hready : ptr.Ready run.sim.currentTime) (hquantum : 0 ≤ quantum)
    (hlt : quantum < ptr.remain) :
    Sound (requeue (fifoOps stale) quantum run.sim rest ptr) := by
  have hfind := findProcess_of_mem h.nodup hptr
  have hmem : ∀ {q : Process},
      q ∈ (requeue (fifoOps stale) quantum run.sim rest ptr).sim.head ↔
      q = ptr.preempt quantum ∨ (q ∈ run.sim.head ∧ q.pid ≠ ptr.pid) :=
    mem_updateProcess h.nodup hfind
  refine ⟨queued_requeue h.toQueued hqueue hptr hready hquantum hlt, ?_, ?_⟩
  · intro p hp
    rcases hmem.mp hp with rfl | ⟨hp, -⟩
    · exact accounted_preempt (h.accounted ptr hptr) hready hquantum hlt
    · exact (h.accounted p hp).mono (by rw [requeue_sim]; simp only; omega)
  · intro p hp q hq hne hp0 hq0
    rcases hmem.mp hp with rfl | ⟨hp, -⟩
    · simp only [preempt_remain] at hp0
      omega
    · rcases hmem.mp hq with rfl | ⟨hq, -⟩
      · simp only [preempt_remain] at hq0
        omega
      · exact h.ct_ne p hp q hq hne hp0 hq0

theorem sound_dispatch (h : Sound run) (hquantum : 0 ≤ quantum) :
    Sound (dispatch (fifoOps stale) quantum run) := by
  rcases dispatch_cases stale quantum h.toQueued with
    ⟨-, hstep⟩ | ⟨ptr, rest, hqueue, hptr, hready, -, hcase⟩
  · rw [hstep]
    exact sound_idle h
  · rcases hcase with ⟨-, hstep⟩ | ⟨hlt, hstep⟩
    · rw [hstep]
      exact sound_finish h hqueue hptr hready
    · rw [hstep]
      exact sound_requeue h hqueue hptr hready hquantum hlt

theorem sound_serveLoop (h : Sound run) (hquantum : 0 ≤ quantum) (n : Nat) :
    Sound ((serveLoop (fifoOps stale) quantum).state run n) :=
  Loop.invariant _ h (fun _ ht _ => sound_dispatch ht hquantum) n

/-! ## The clock -/

def served (head : List Process) : Int :=
  (head.map fun p => p.bt - p.remain).sum

def isIdle {Q : Type} (ops : QueueOps Q) (run : Run Q) : Bool :=
  (ops.dequeue run.queue).1 == -1

theorem isIdle_fifo (h : Queued run) :
    isIdle (fifoOps stale) run = true ↔ run.queue = [] := by
  obtain ⟨sim, queue⟩ := run
  cases queue with
  | nil => simp [isIdle, fifoOps]
  | cons pid rest =>
      obtain ⟨p, hp, rfl, -⟩ := h.ready pid (by simp)
      have hne := h.ne_sentinel p hp
      simp [isIdle, fifoOps, hne]

theorem currentTime_dispatch (stale : Option Int) (quantum : Int)
    (h : Queued run) :
    (dispatch (fifoOps stale) quantum run).sim.currentTime -
        served (dispatch (fifoOps stale) quantum run).sim.head =
      run.sim.currentTime - served run.sim.head +
        if isIdle (fifoOps stale) run then 1 else 0 := by
  rcases dispatch_cases stale quantum h with
    ⟨hnil, hstep⟩ | ⟨ptr, rest, hqueue, hptr, hready, hfind, hcase⟩
  · have hidle : isIdle (fifoOps stale) run = true := (isIdle_fifo h).mpr hnil
    rw [hstep, hidle, idle_sim, if_pos rfl]
    ring
  · have hbusy : ¬ isIdle (fifoOps stale) run = true := by
      rw [isIdle_fifo h, hqueue]
      simp
    rw [if_neg hbusy]
    rcases hcase with ⟨-, hstep⟩ | ⟨-, hstep⟩
    · rw [hstep, finish_sim]
      simp only [served]
      rw [sum_updateProcess _ hfind]
      simp only [complete_bt, complete_remain]
      ring
    · rw [hstep, requeue_sim]
      simp only [served]
      rw [sum_updateProcess _ hfind]
      simp only [preempt_bt, preempt_remain]
      ring

theorem currentTime_serveLoop (stale : Option Int) (h : Queued run)
    (hquantum : 0 ≤ quantum) (n : Nat) :
    ((serveLoop (fifoOps stale) quantum).state run n).sim.currentTime =
      run.sim.currentTime - served run.sim.head +
        served ((serveLoop (fifoOps stale) quantum).state run n).sim.head +
        (serveLoop (fifoOps stale) quantum).count (isIdle (fifoOps stale))
          run n := by
  induction n with
  | zero =>
      simp only [Loop.state_zero, Loop.count_zero]
      push_cast
      ring
  | succ n ih =>
      rw [Loop.count_succ]
      cases hg : (serveLoop (fifoOps stale) quantum).guard
          ((serveLoop (fifoOps stale) quantum).state run n) with
      | false =>
          rw [Loop.state_succ, Loop.next_of_not_guard _ hg, ih]
          simp
      | true =>
          have hqueued : Queued ((serveLoop (fifoOps stale) quantum).state run n) :=
            queued_serveLoop h hquantum n
          have hbody : (serveLoop (fifoOps stale) quantum).state run (n + 1) =
              dispatch (fifoOps stale) quantum
                ((serveLoop (fifoOps stale) quantum).state run n) :=
            Loop.state_succ_of_guard _ hg
          have hstep := currentTime_dispatch stale quantum hqueued
          rw [← hbody] at hstep
          cases hidle : isIdle (fifoOps stale)
              ((serveLoop (fifoOps stale) quantum).state run n) with
          | false =>
              simp only [hidle] at hstep
              simp only [Bool.and_false]
              simp only [Bool.false_eq_true, if_false] at hstep ⊢
              omega
          | true =>
              simp only [hidle, if_true] at hstep
              simp only [Bool.and_self, if_true]
              push_cast
              omega

/-! ## The program -/

structure Finished (p : Process) : Prop where
  remain_eq : p.remain = 0
  le_ct : p.at + p.bt ≤ p.ct
  tat_eq : p.tat = p.ct - p.at
  wt_eq : p.wt = p.tat - p.bt
  wt_nonneg : 0 ≤ p.wt

theorem finished_of_completed (h : Sound run)
    (hdone : allProcessesCompleted run.sim.head = true) :
    (∀ p ∈ run.sim.head, Finished p) ∧
      (run.sim.head.map Process.ct).Nodup := by
  have hzero : ∀ p ∈ run.sim.head, p.remain = 0 := by
    intro p hp
    have hle := allProcessesCompleted_iff.mp hdone p hp
    have hge := (h.accounted p hp).remain_nonneg
    omega
  constructor
  · intro p hp
    obtain ⟨htat, hwt⟩ := (h.accounted p hp).metrics (hzero p hp)
    have hct := (h.accounted p hp).le_ct (hzero p hp)
    exact ⟨hzero p hp, hct, htat, hwt, by omega⟩
  · refine List.Nodup.map_on ?_ (List.Nodup.of_map _ h.nodup)
    intro p hp q hq hct
    by_contra hne
    have hpid : p.pid ≠ q.pid := fun heq => hne (eq_of_pid_eq h.nodup hp hq heq)
    exact h.ct_ne p hp q hq hpid (hzero p hp) (hzero q hq) hct

theorem sjfReturns_completed {Q : Type} (ops : QueueOps Q) (sim : Sim)
    (queue : Q) (hdone : allProcessesCompleted sim.head = true) (sim' : Sim) :
    SjfReturns ops sim queue sim' ↔ sim' = sim := by
  have hsim : (sjfStart ops sim queue).sim = sim := by
    simp [sjfStart, dynamicTimeQuantum_completed hdone]
  have hexit : (sjfLoop ops).Exits (sjfStart ops sim queue)
      (sjfStart ops sim queue) := by
    apply Loop.exits_self
    simp [sjfLoop, hsim, hdone]
  constructor
  · rintro ⟨run, hrun, rfl⟩
    rw [(sjfLoop ops).exits_unique hrun hexit, hsim]
  · rintro rfl
    exact ⟨_, hexit, hsim⟩

/-- The columns that identify a process; `rr` and `sjf` never write them. -/
def identity (p : Process) : Int × Int × Int × Int := (p.pid, p.at, p.bt, p.pr)

theorem map_identity_serveLoop {Q : Type} (ops : QueueOps Q) (quantum : Int)
    (run : Run Q) (n : Nat) :
    ((serveLoop ops quantum).state run n).sim.head.map identity =
      run.sim.head.map identity := by
  apply Loop.invariant (serveLoop ops quantum)
    (P := fun t => t.sim.head.map identity = run.sim.head.map identity) rfl
  intro t ht _
  exact (map_dispatch ops quantum identity (fun _ _ => rfl) (fun _ _ => rfl) t).trans ht

theorem rr_returns {sim : Sim} (hpids : ProperPids sim.head)
    (hfresh : ∀ p ∈ sim.head, p.remain = p.bt ∧ 1 ≤ p.bt)
    (hcell : FreshCell stale sim.head) :
    ∃ final, RrReturns (fifoOps stale) sim [] final ∧
      allProcessesCompleted final.head = true ∧
      final.head.map identity = sim.head.map identity ∧
      (∀ p ∈ final.head, Finished p) ∧ (final.head.map Process.ct).Nodup := by
  have hsound : Sound (start (fifoOps stale) sim []) := sound_start hpids hfresh
  have hquantum : 1 ≤ timeQuantumRr := by decide
  obtain ⟨run, n, hn, hguard⟩ := serveLoop_terminates hsound.toQueued hcell hquantum
  have hrun : Sound run := hn ▸ sound_serveLoop hsound (by decide) n
  have hdone : allProcessesCompleted run.sim.head = true := by
    simpa using hguard
  refine ⟨run.sim, ⟨run, ⟨n, hn, hguard⟩, rfl⟩, hdone, ?_,
    finished_of_completed hrun hdone⟩
  rw [← hn]
  exact map_identity_serveLoop _ _ _ _

theorem rr_array_returns {sim : Sim} (hpids : ProperPids sim.head)
    (hfresh : ∀ p ∈ sim.head, p.remain = p.bt ∧ 1 ≤ p.bt) {cell : Int → Int}
    (hcell : ∀ p ∈ sim.head, cell (-1) ≠ p.pid) :
    ∃ final, RrReturns arrayOps sim (Queue.declared cell) final ∧
      final.head.map identity = sim.head.map identity ∧
      (∀ p ∈ final.head, Finished p) ∧ (final.head.map Process.ct).Nodup := by
  have hcell' : FreshCell (some (cell (-1))) sim.head := by
    intro pid hpid heq
    obtain ⟨p, hp, rfl⟩ := List.mem_map.mp hpid
    exact hcell p hp (Option.some.inj heq)
  obtain ⟨final, hreturns, -, hidentity, hfinished⟩ :=
    rr_returns hpids hfresh hcell'
  refine ⟨final, ?_, hidentity, hfinished⟩
  rw [RrReturns, rrLoop, rrStart,
    (arrayOps_simulates (cell (-1))).returns (represents_declared cell)]
  exact hreturns

theorem rr_totally_correct (processors : Int) (input : List Request)
    (hpid : (input.map Request.pid).Nodup)
    (hne : ∀ v ∈ input, v.pid ≠ -1) (hbt : ∀ v ∈ input, 1 ≤ v.bt) :
    let sim := Sim.init (assignProcessors processors (createProcesses (-1) input))
    let run := (rrLoop (fifoOps none)).state (rrStart (fifoOps none) sim [])
    (∀ n, (run n).sim.currentTime =
      ((run n).sim.head.map fun p => p.bt - p.remain).sum +
        (rrLoop (fifoOps none)).count (isIdle (fifoOps none))
          (rrStart (fifoOps none) sim []) n) ∧
    ∃ final, RrReturns (fifoOps none) sim [] final ∧
      final.head.map identity = sim.head.map identity ∧
      (∀ p ∈ final.head, p.remain = 0 ∧ p.at + p.bt ≤ p.ct ∧
        p.tat = p.ct - p.at ∧ p.wt = p.tat - p.bt ∧ 0 ≤ p.wt) ∧
      (final.head.map Process.ct).Nodup ∧
      ∀ sim', SjfReturns (fifoOps none) final [] sim' ↔ sim' = final := by
  intro sim run
  have hpids : ProperPids sim.head := properPids_input processors (-1) hpid hne
  have hfresh : ∀ p ∈ sim.head, p.remain = p.bt ∧ 1 ≤ p.bt := by
    intro p hp
    obtain ⟨hremain, -, hmem⟩ := mem_assignProcessors hp
    exact ⟨hremain, hbt _ hmem⟩
  constructor
  · intro n
    have hzero : served sim.head = 0 := by
      apply List.sum_eq_zero
      intro r hr
      obtain ⟨p, hp, rfl⟩ := List.mem_map.mp hr
      rw [(hfresh p hp).1]
      ring
    have hquantum : 0 ≤ timeQuantumRr := by decide
    have hstart : Queued (start (fifoOps none) sim []) := queued_start hpids
    have hclock := currentTime_serveLoop none hstart hquantum n
    have htime : sim.currentTime = 0 := rfl
    rw [start_sim, hzero, htime, sub_zero, zero_add] at hclock
    exact hclock
  · obtain ⟨final, hreturns, hdone, hidentity, hfinished, hct⟩ :=
      rr_returns hpids hfresh (freshCell_none sim.head)
    refine ⟨final, hreturns, hidentity, ?_, hct, ?_⟩
    · intro p hp
      obtain ⟨hremain, hle, htat, hwt, hnonneg⟩ := hfinished p hp
      exact ⟨hremain, hle, htat, hwt, hnonneg⟩
    · exact sjfReturns_completed _ final [] hdone

theorem rr_two_processes :
    ∃ final, RrReturns (fifoOps none) (Sim.init (assignProcessors 1
        (createProcesses (-1) [⟨7, 0, 3⟩, ⟨9, 4, 1⟩]))) [] final ∧
      ∀ p ∈ final.head, p.remain = 0 := by
  obtain ⟨-, final, hreturns, -, hfinished, -⟩ :=
    rr_totally_correct 1 [⟨7, 0, 3⟩, ⟨9, 4, 1⟩] (by decide) (by decide) (by decide)
  exact ⟨final, hreturns, fun p hp => (hfinished p hp).1⟩

end SyscallSched.Simulators.Mlfqs
