import Mathlib.Data.List.Perm.Subperm
import SyscallSched.Simulators.Mlfqs.Invariant

/-!
# The index of the last store

`rear` moves forward with every append and goes back to `-1` only when the
last entry is removed.  An append to an empty queue cannot pass the end of the
array, because at most `MAX` processes are queued at once.  What can is a
preemption while other processes wait: the preempted process and the arrivals
of its quantum go behind `rear`, however many free cells precede `front`.
-/

namespace SyscallSched.Simulators.Mlfqs

open SyscallSched.Foundation

def InBounds (run : Run Queue) : Prop :=
  ∀ index ∈ run.queue.writes, index ≤ MAX - 1

def WritesInBounds (loop : Loop (Run Queue)) (run : Run Queue) : Prop :=
  ∀ n, InBounds (loop.state run n)

def newcomers (t : Int) (head : List Process) (pid : Int) (rest : List Int) :
    Nat :=
  head.countP fun q =>
    decide (q.pid ≠ pid) && decide (q.Ready t ∧ q.pid ∉ rest)

/-- A condition on the state before an iteration: if the first entry will be
preempted while others stay queued, the cells behind `rear` suffice for it and
for the processes that arrive during its quantum. -/
def FitsBehind (quantum : Int) (sim : Sim) (rear : Int) : List Int → Prop
  | pid :: next :: rest => ∀ ptr ∈ sim.head, ptr.pid = pid →
      quantum < ptr.remain →
      rear + 1 + newcomers (sim.currentTime + quantum) sim.head pid
        (next :: rest) ≤ MAX - 1
  | _ => True

instance (quantum : Int) (sim : Sim) (rear : Int) :
    (queue : List Int) → Decidable (FitsBehind quantum sim rear queue)
  | [] => inferInstanceAs (Decidable True)
  | [_] => inferInstanceAs (Decidable True)
  | _ :: _ :: _ => inferInstanceAs (Decidable (∀ ptr ∈ sim.head, _))

/-! ## Appending to the array -/

def Appended (q q' : Queue) (k : Nat) : Prop :=
  q'.rear = q.rear + k ∧ q'.live.length = q.live.length + k ∧
    q'.writes = q.writes ++ (List.range k).map fun i : Nat => q.rear + 1 + i

theorem Appended.refl (q : Queue) : Appended q q 0 := by
  simp [Appended]

theorem Appended.trans {q q' q'' : Queue} {k k' : Nat} (h : Appended q q' k)
    (h' : Appended q' q'' k') : Appended q q'' (k + k') := by
  obtain ⟨hrear, hlen, hwrites⟩ := h
  obtain ⟨hrear', hlen', hwrites'⟩ := h'
  refine ⟨by push_cast; omega, by omega, ?_⟩
  rw [hwrites', hwrites, List.range_add, List.map_append, List.append_assoc,
    List.map_map]
  congr 2
  apply List.map_congr_left
  intro i _
  simp only [Function.comp_apply, hrear]
  push_cast
  ring

theorem appended_add {q : Queue} (hq : q.Valid) (pid : Int) :
    (add arrayOps q pid).Valid ∧ ∃ k, Appended q (add arrayOps q pid) k := by
  unfold add
  split
  · exact ⟨hq, 0, .refl q⟩
  · refine ⟨ArrayQueue.valid_push hq pid, 1, ?_, ?_, ?_⟩
    · exact ArrayQueue.rear_push _ pid
    · have hlive := ArrayQueue.live_push hq pid
      simp only [arrayOps]
      rw [hlive]
      simp
    · simp [arrayOps]

theorem appended_scan {q : Queue} (hq : q.Valid) (t : Int)
    (head : List Process) :
    (scan arrayOps t head q).Valid ∧ ∃ k, Appended q (scan arrayOps t head q) k := by
  induction head generalizing q with
  | nil => exact ⟨hq, 0, .refl q⟩
  | cons p head ih =>
      change (scan arrayOps t head
        (if p.Ready t then add arrayOps q p.pid else q)).Valid ∧ ∃ k, Appended q
          (scan arrayOps t head (if p.Ready t then add arrayOps q p.pid else q)) k
      split
      · obtain ⟨hvalid, k, hk⟩ := appended_add hq p.pid
        obtain ⟨hvalid', k', hk'⟩ := ih hvalid
        exact ⟨hvalid', k + k', hk.trans hk'⟩
      · exact ih hq

theorem appended_enqueue {q : Queue} (hq : q.Valid) (t : Int)
    (head : List Process) (pid : Int) :
    ∃ k, Appended q (enqueue arrayOps t head q pid) k := by
  obtain ⟨hvalid, k, hk⟩ := appended_scan hq t head
  unfold enqueue
  split
  · obtain ⟨-, k', hk'⟩ := appended_add hvalid pid
    exact ⟨k + k', hk.trans hk'⟩
  · exact ⟨k, hk⟩

theorem inBounds_iff_of_appended {q : Queue} {run run' : Run Queue} {k : Nat}
    (h : Appended q run'.queue k) (hwrites : q.writes = run.queue.writes)
    (hrun : InBounds run) :
    InBounds run' ↔ (k = 0 ∨ q.rear + k ≤ MAX - 1) := by
  obtain ⟨-, -, hw⟩ := h
  unfold InBounds
  rw [hw, hwrites]
  constructor
  · intro hall
    cases k with
    | zero => exact .inl rfl
    | succ k =>
        refine .inr ?_
        have hlast := hall (q.rear + 1 + k) (by simp)
        push_cast
        omega
  · rintro hk index hindex
    rcases List.mem_append.mp hindex with hindex | hindex
    · exact hrun index hindex
    · obtain ⟨i, hi, rfl⟩ := List.mem_map.mp hindex
      rw [List.mem_range] at hi
      rcases hk with rfl | hk
      · omega
      · omega

/-! ## One iteration -/

theorem queue_length_le {run : Run (List Int)} (h : Queued run) :
    run.queue.length ≤ run.sim.head.length := by
  have hsub : run.queue ⊆ run.sim.head.map Process.pid := by
    intro pid hpid
    obtain ⟨p, hp, rfl, -⟩ := h.ready pid hpid
    exact List.mem_map_of_mem hp
  have hle := (h.queue_nodup.subperm hsub).length_le
  simpa using hle

theorem inBounds_of_empty {q : Queue} {run run' : Run Queue}
    {t pid : Int} {head : List Process} {fifo : Run (List Int)}
    (hq : q.Valid) (hnil : q.live = [])
    (hqueue : run'.queue = enqueue arrayOps t head q pid)
    (hwrites : q.writes = run.queue.writes) (hrun : InBounds run)
    (hfifo : Queued fifo) (hlive : run'.queue.live = fifo.queue)
    (hlen : (fifo.sim.head.length : Int) ≤ MAX) : InBounds run' := by
  obtain ⟨k, hk⟩ := appended_enqueue hq t head pid
  rw [← hqueue] at hk
  refine (inBounds_iff_of_appended hk hwrites hrun).mpr ?_
  obtain ⟨-, hlength, -⟩ := hk
  have hle := queue_length_le hfifo
  rw [hlive, hnil] at hlength
  rw [ArrayQueue.rear_eq_of_live_nil hq hnil]
  simp only [List.length_nil] at hlength
  omega

theorem length_requeue (stale : Option Int) {run : Run (List Int)}
    (h : Queued run) {quantum : Int} {ptr : Process} {rest : List Int}
    (hqueue : run.queue = ptr.pid :: rest) (hptr : ptr ∈ run.sim.head)
    (hready : ptr.Ready run.sim.currentTime) (hquantum : 0 ≤ quantum)
    (hlt : quantum < ptr.remain) (hrest : rest ≠ []) :
    (requeue (fifoOps stale) quantum run.sim rest ptr).queue.length =
      rest.length + (1 + newcomers (run.sim.currentTime + quantum)
        run.sim.head ptr.pid rest) := by
  have hfind := findProcess_of_mem h.nodup hptr
  have hnodup : ((updateProcess (Process.preempt quantum) ptr.pid
      run.sim.head).map Process.pid).Nodup := by
    rw [map_updateProcess Process.pid (preempt_pid _)]
    exact h.nodup
  have hnot : ptr.pid ∉ rest := by
    have hq := h.queue_nodup
    rw [hqueue, List.nodup_cons] at hq
    exact hq.1
  have hmem : ptr.preempt quantum ∈
      updateProcess (Process.preempt quantum) ptr.pid run.sim.head :=
    (mem_updateProcess h.nodup hfind).mpr (.inl rfl)
  have hready' : (ptr.preempt quantum).Ready (run.sim.currentTime + quantum) := by
    refine ⟨?_, ?_⟩
    · have hat := hready.1
      simp only [preempt_at]
      omega
    · simp only [preempt_remain]
      omega
  have hscan := scan_eq_append stale (run.sim.currentTime + quantum) hnodup
    (.inl hrest)
  have hin : ptr.pid ∈ scan (fifoOps stale) (run.sim.currentTime + quantum)
      (updateProcess (Process.preempt quantum) ptr.pid run.sim.head) rest := by
    rw [hscan, List.mem_append]
    refine .inr (List.mem_map.mpr ⟨_, ?_, preempt_pid quantum ptr⟩)
    simp [hmem, hready', hnot]
  have henqueue : (requeue (fifoOps stale) quantum run.sim rest ptr).queue =
      scan (fifoOps stale) (run.sim.currentTime + quantum)
        (updateProcess (Process.preempt quantum) ptr.pid run.sim.head) rest := by
    rw [requeue_queue, enqueue]
    split
    · rw [add_fifo, if_pos (.inr hin)]
    · rfl
  rw [henqueue, hscan, List.length_append, List.length_map,
    ← List.countP_eq_length_filter, countP_updateProcess _ h.nodup hfind]
  have hpos : decide ((ptr.preempt quantum).Ready
      (run.sim.currentTime + quantum) ∧ (ptr.preempt quantum).pid ∉ rest) =
      true := by
    simp [hready', hnot]
  rw [if_pos hpos]
  unfold newcomers
  omega

section Step

variable {stale quantum : Int} {run : Run Queue} {fifo : Run (List Int)}

/-- The outcomes of an iteration on the array. -/
theorem dispatch_array_cases (quantum : Int)
    (hagree : RunsAgree (Represents stale) run fifo) (h : Queued fifo) :
    (run.queue.live = [] ∧
      dispatch arrayOps quantum run = idle arrayOps run.sim run.queue) ∨
    ∃ ptr rest q, run.queue.live = ptr.pid :: rest ∧ ptr ∈ fifo.sim.head ∧
      ptr.Ready fifo.sim.currentTime ∧ ArrayQueue.Valid q.toArrayQueue ∧
      q.live = rest ∧ q.writes = run.queue.writes ∧
      q.rear = (if rest = [] then -1 else run.queue.rear) ∧
      ((ptr.remain ≤ quantum ∧
          dispatch arrayOps quantum run = finish run.sim q ptr) ∨
        (quantum < ptr.remain ∧
          dispatch arrayOps quantum run =
            requeue arrayOps quantum run.sim q ptr)) := by
  obtain ⟨hsim, hvalid, hlive, -⟩ := hagree
  cases hqueue : fifo.queue with
  | nil =>
      rw [hqueue] at hlive
      have hpop := (ArrayQueue.pop_eq_none_iff hvalid).mpr hlive
      refine .inl ⟨hlive, ?_⟩
      simp [dispatch, arrayOps, hpop]
  | cons pid rest =>
      obtain ⟨ptr, hptr, rfl, hready⟩ := h.ready pid (by simp [hqueue])
      have hne : ptr.pid ≠ -1 := h.ne_sentinel ptr hptr
      have hfind := findProcess_of_mem h.nodup hptr
      rw [hqueue] at hlive
      obtain ⟨q, hpop, hvalid', hlive', -, hrear⟩ :=
        ArrayQueue.pop_of_live_cons hvalid hlive
      refine .inr ⟨ptr, rest, { q with writes := run.queue.writes }, hlive,
        hptr, hready, hvalid', hlive', rfl, hrear, ?_⟩
      have hstep : dispatch arrayOps quantum run =
          if ptr.remain ≤ quantum then
            finish run.sim { q with writes := run.queue.writes } ptr
          else requeue arrayOps quantum run.sim
            { q with writes := run.queue.writes } ptr := by
        have hdequeue : arrayOps.dequeue run.queue =
            (ptr.pid, { q with writes := run.queue.writes }) := by
          simp [arrayOps, hpop]
        simp only [dispatch, hdequeue, if_neg hne, hsim, hfind]
      rw [hstep]
      by_cases hle : ptr.remain ≤ quantum
      · exact .inl ⟨hle, if_pos hle⟩
      · exact .inr ⟨by omega, if_neg hle⟩

theorem fitsBehind_cons_cons (hnodup : (run.sim.head.map Process.pid).Nodup)
    {ptr : Process} (hptr : ptr ∈ run.sim.head) {rest : List Int}
    (hrest : rest ≠ []) (rear : Int) :
    FitsBehind quantum run.sim rear (ptr.pid :: rest) ↔
      (quantum < ptr.remain → rear + 1 +
        newcomers (run.sim.currentTime + quantum) run.sim.head ptr.pid rest ≤
          MAX - 1) := by
  cases rest with
  | nil => contradiction
  | cons next rest =>
      constructor
      · intro h
        exact h ptr hptr rfl
      · intro h p hp hpid
        rw [eq_of_pid_eq hnodup hp hptr hpid]
        exact h

theorem inBounds_requeue_iff (hagree : RunsAgree (Represents stale) run fifo)
    (h : Queued fifo) (hquantum : 0 ≤ quantum) (hrun : InBounds run)
    {ptr : Process} {rest : List Int} {q : Queue}
    (hlive : run.queue.live = ptr.pid :: rest) (hptr : ptr ∈ run.sim.head)
    (hready : ptr.Ready run.sim.currentTime)
    (hvalid : ArrayQueue.Valid q.toArrayQueue) (hqlive : q.live = rest)
    (hwrites : q.writes = run.queue.writes) (hrear : q.rear = run.queue.rear)
    (hrest : rest ≠ []) (hlt : quantum < ptr.remain)
    (hstep : dispatch arrayOps quantum run =
      requeue arrayOps quantum run.sim q ptr) :
    InBounds (dispatch arrayOps quantum run) ↔
      FitsBehind quantum run.sim run.queue.rear run.queue.live := by
  have hsim := hagree.1
  have hqueue : fifo.queue = ptr.pid :: rest := hagree.2.2.1 ▸ hlive
  obtain ⟨k, hk⟩ := appended_enqueue hvalid (run.sim.currentTime + quantum)
    (updateProcess (Process.preempt quantum) ptr.pid run.sim.head) ptr.pid
  rw [← requeue_queue arrayOps run.sim q quantum ptr, ← hstep] at hk
  have hcount : k = 1 + newcomers (run.sim.currentTime + quantum)
      run.sim.head ptr.pid rest := by
    have hlive' := ((arrayOps_simulates stale).dispatch quantum hagree).2.2.1
    have hnot : ¬ ptr.remain ≤ quantum := by omega
    have hlength := length_requeue (some stale) h hqueue (hsim ▸ hptr)
      (hsim ▸ hready) hquantum hlt hrest
    have hgrow := hk.2.1
    rw [hlive', dispatch_cons (some stale) quantum h hqueue (hsim ▸ hptr),
      if_neg hnot, hlength, hqlive, ← hsim] at hgrow
    omega
  have hnodup : (run.sim.head.map Process.pid).Nodup := hsim ▸ h.nodup
  rw [inBounds_iff_of_appended hk hwrites hrun, hlive,
    fitsBehind_cons_cons hnodup hptr hrest, hrear]
  constructor
  · intro hbound _
    omega
  · intro hbound
    have := hbound hlt
    omega

theorem inBounds_dispatch_iff (hagree : RunsAgree (Represents stale) run fifo)
    (h : Queued fifo) (hquantum : 0 ≤ quantum)
    (hlen : (fifo.sim.head.length : Int) ≤ MAX) (hrun : InBounds run) :
    InBounds (dispatch arrayOps quantum run) ↔
      FitsBehind quantum run.sim run.queue.rear run.queue.live := by
  have hlive' := ((arrayOps_simulates stale).dispatch quantum hagree).2.2.1
  have hqueued : Queued (dispatch (fifoOps (some stale)) quantum fifo) :=
    queued_dispatch h hquantum
  have hlen' : ((dispatch (fifoOps (some stale)) quantum fifo).sim.head.length : Int)
      ≤ MAX := by
    have hmap := congrArg List.length (map_dispatch (fifoOps (some stale)) quantum
      Process.pid (fun _ _ => rfl) (fun _ _ => rfl) fifo)
    simp only [List.length_map] at hmap
    omega
  have hsim := hagree.1
  rcases dispatch_array_cases quantum hagree h with
    ⟨hnil, hstep⟩ | ⟨ptr, rest, q, hlive, hptr, hready, hvalid, hqlive, hwrites,
      hrear, hcase⟩
  · have hin : InBounds (dispatch arrayOps quantum run) :=
      inBounds_of_empty hagree.2.1 hnil (by rw [hstep, idle_queue]) rfl hrun
        hqueued hlive' hlen'
    simp [hin, hnil, FitsBehind]
  · rw [← hsim] at hptr hready
    have hnodup : (run.sim.head.map Process.pid).Nodup := hsim ▸ h.nodup
    rcases hcase with ⟨hle, hstep⟩ | ⟨hlt, hstep⟩
    · have hin : InBounds (dispatch arrayOps quantum run) := by
        rw [hstep]
        intro index hindex
        exact hrun index (hwrites ▸ hindex)
      have hfits : FitsBehind quantum run.sim run.queue.rear
          (ptr.pid :: rest) := by
        cases rest with
        | nil => trivial
        | cons next rest =>
            rw [fitsBehind_cons_cons hnodup hptr (by simp)]
            intro hlt
            omega
      rw [hlive]
      exact iff_of_true hin hfits
    · by_cases hrest : rest = []
      · have hin : InBounds (dispatch arrayOps quantum run) :=
          inBounds_of_empty hvalid (hqlive.trans hrest)
            (by rw [hstep, requeue_queue]) hwrites hrun hqueued hlive' hlen'
        rw [hlive, hrest]
        exact iff_of_true hin trivial
      · rw [if_neg hrest] at hrear
        exact inBounds_requeue_iff hagree h hquantum hrun hlive hptr hready
          hvalid hqlive hwrites hrear hrest hlt hstep

end Step

/-! ## Whole runs -/

theorem writesInBounds_iff (sim : Sim) (hpids : ProperPids sim.head)
    (hlen : (sim.head.length : Int) ≤ MAX) (cell : Int → Int) {quantum : Int}
    (hquantum : allProcessesCompleted sim.head = false → 0 ≤ quantum) :
    WritesInBounds (serveLoop arrayOps quantum)
        (start arrayOps sim (Queue.declared cell)) ↔
      ∀ n, (serveLoop arrayOps quantum).guard ((serveLoop arrayOps quantum).state
          (start arrayOps sim (Queue.declared cell)) n) = true →
        FitsBehind quantum
          ((serveLoop arrayOps quantum).state
            (start arrayOps sim (Queue.declared cell)) n).sim
          ((serveLoop arrayOps quantum).state
            (start arrayOps sim (Queue.declared cell)) n).queue.rear
          ((serveLoop arrayOps quantum).state
            (start arrayOps sim (Queue.declared cell)) n).queue.live := by
  have hstart := (arrayOps_simulates (cell (-1))).start sim (represents_declared cell)
  have hqueued : Queued (start (fifoOps (some (cell (-1)))) sim []) :=
    queued_start hpids
  have hin : InBounds (start arrayOps sim (Queue.declared cell)) := by
    have hnone : InBounds ⟨sim, Queue.declared cell⟩ := by
      intro index hindex
      simp [Queue.declared] at hindex
    exact inBounds_of_empty (ArrayQueue.valid_empty cell) rfl
      (start_queue arrayOps sim _) rfl hnone hqueued hstart.2.2.1 hlen
  refine Loop.forall_state_iff_of_step (serveLoop arrayOps quantum)
    (C := fun run => FitsBehind quantum run.sim run.queue.rear run.queue.live)
    hin ?_
  intro n hguard hn
  have hactive : allProcessesCompleted sim.head = false := by
    have hzero := Loop.guard_of_lt _ (Nat.zero_le n) hguard
    simpa using hzero
  refine inBounds_dispatch_iff (arrayRun_agrees quantum sim cell n)
    (queued_serveLoop hqueued (hquantum hactive) n) (hquantum hactive) ?_ hn
  have hmap := congrArg List.length (map_pid_serveLoop
    (fifoOps (some (cell (-1)))) quantum (start (fifoOps (some (cell (-1)))) sim []) n)
  simp only [List.length_map, start_sim] at hmap
  omega

/-- `rr` and `sjf` store outside the array exactly when some iteration of the
run does not fit behind `rear`. -/
theorem rr_sjf_writesInBounds_iff (sim : Sim) (hpids : ProperPids sim.head)
    (hlen : (sim.head.length : Int) ≤ MAX) (cell : Int → Int) :
    (WritesInBounds (rrLoop arrayOps)
        (rrStart arrayOps sim (Queue.declared cell)) ↔
      ∀ n,
        let run := (rrLoop arrayOps).state
          (rrStart arrayOps sim (Queue.declared cell)) n
        (rrLoop arrayOps).guard run = true →
          FitsBehind timeQuantumRr run.sim run.queue.rear run.queue.live) ∧
    (WritesInBounds (sjfLoop arrayOps)
        (sjfStart arrayOps sim (Queue.declared cell)) ↔
      ∀ n,
        let run := (sjfLoop arrayOps).state
          (sjfStart arrayOps sim (Queue.declared cell)) n
        (sjfLoop arrayOps).guard run = true →
          FitsBehind (dynamicTimeQuantum sim.head sim.timeQuantumSjf) run.sim
            run.queue.rear run.queue.live) := by
  constructor
  · exact writesInBounds_iff sim hpids hlen cell fun _ => by decide
  · have hiff := writesInBounds_iff { sim with
        timeQuantumSjf := dynamicTimeQuantum sim.head sim.timeQuantumSjf }
      hpids hlen cell fun hactive =>
        Int.le_of_lt (dynamicTimeQuantum_pos hactive sim.timeQuantumSjf)
    simp only [WritesInBounds, sjfLoop_state, sjfStart_eq, start_sim]
    exact hiff

/-- Two processes that rotate until `rear` passes the end of the array. -/
def longBursts : Sim :=
  Sim.init (assignProcessors 1 (createProcesses (-1) [⟨1, 0, 101⟩, ⟨2, 0, 101⟩]))

/-- The quantum of `sjf` is 1 here, and the two long processes rotate. -/
def twoLongBursts : Sim :=
  Sim.init (assignProcessors 1 (createProcesses (-1) [⟨1, 0, 1⟩, ⟨2, 0, 1⟩,
    ⟨3, 0, 1⟩, ⟨4, 0, 1⟩, ⟨5, 0, 1⟩, ⟨6, 0, 60⟩, ⟨7, 0, 60⟩]))

theorem longBursts_not_writesInBounds :
    ¬ WritesInBounds (rrLoop arrayOps)
        (rrStart arrayOps longBursts (Queue.declared fun _ => 0)) ∧
      ¬ WritesInBounds (sjfLoop arrayOps)
        (sjfStart arrayOps twoLongBursts (Queue.declared fun _ => 0)) := by
  constructor
  · intro h
    have hle := h 99 100 (by decide +kernel)
    revert hle
    decide
  · intro h
    have hle := h 99 100 (by decide +kernel)
    revert hle
    decide

theorem shortBursts_writesInBounds :
    WritesInBounds (rrLoop arrayOps) (rrStart arrayOps
      (Sim.init (assignProcessors 1 (createProcesses (-1) [⟨1, 0, 3⟩, ⟨2, 0, 1⟩])))
      (Queue.declared fun _ => 0)) := by
  refine (rr_sjf_writesInBounds_iff _ ?_ (by decide) _).1.mpr ?_
  · exact properPids_input 1 (-1) (by decide) (by decide)
  · intro n run hguard
    have hlt : n < 3 := Loop.lt_of_exit _ (by decide) hguard
    have hcases : n = 0 ∨ n = 1 ∨ n = 2 := by omega
    rcases hcases with rfl | rfl | rfl
    · decide
    · decide
    · decide

end SyscallSched.Simulators.Mlfqs
