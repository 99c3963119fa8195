import SyscallSched.Simulators.Mlfqs.ShortestFirst

/-!
# Where a preempted process joins the queue

`enqueue` is called with the pid of the preempted process, but its scan of the
list has already met that process among the ready ones.  So the process joins
at its place in the list and not behind the arrivals of its quantum; only when
the stale cell hides it from the scan does the last block of `enqueue` append it.
-/

namespace SyscallSched.Simulators.Mlfqs

open SyscallSched.Foundation

/-- In the live window of the state after its preemption `pid` stands last, behind every
process that arrived after `t` and not after `t'`. -/
def GoesBack (t t' : Int) (head : List Process) (live : List Int) (pid : Int) : Prop :=
  ∃ ahead, live = ahead ++ [pid] ∧
    ∀ q ∈ head, t < q.at → q.at ≤ t' → q.pid ∈ ahead

def PreemptedGoBack (quantum : Int) (loop : Loop (Run Queue)) (run : Run Queue) : Prop :=
  ∀ n, loop.guard (loop.state run n) = true → ∀ ptr ∈ (loop.state run n).sim.head,
    nextPid arrayOps (loop.state run n) = ptr.pid → quantum < ptr.remain →
      GoesBack (loop.state run n).sim.currentTime ((loop.state run n).sim.currentTime + quantum)
        (loop.state run n).sim.head (loop.state run (n + 1)).queue.live ptr.pid

/-- Of the processes that wait when the quantum begun at `t` ends, `pid` is the last to
join.  When the stale cell hides the first of them, that one is `pid` itself and others
follow, or it came before the quantum. -/
def LastToJoin (stale : Option Int) (t : Int) (queue : List Int) (pid : Int) :
    List Process → Prop
  | [] => False
  | first :: others =>
      if queue = [] ∧ stale = some first.pid then
        if first.pid = pid then others ≠ []
        else first.at ≤ t ∧ (others.map Process.pid).getLast? = some pid
      else ((first :: others).map Process.pid).getLast? = some pid

instance (stale : Option Int) (t : Int) (queue : List Int) (pid : Int) :
    (ps : List Process) → Decidable (LastToJoin stale t queue pid ps)
  | [] => inferInstanceAs (Decidable False)
  | first :: others => inferInstanceAs (Decidable (
      if queue = [] ∧ stale = some first.pid then
        if first.pid = pid then others ≠ []
        else first.at ≤ t ∧ (others.map Process.pid).getLast? = some pid
      else ((first :: others).map Process.pid).getLast? = some pid))

variable {stale : Option Int} {quantum t : Int} {run : Run (List Int)} {head : List Process}
  {queue rest : List Int} {p ptr : Process}

/-! ## One call of `enqueue` -/

/-- The scan passes over the first process that waits. -/
theorem appended_of_hidden {first : Process} (pid : Int) (others : List Process)
    (h : stale = some first.pid) : appended stale [] pid (first :: others) =
      others.map Process.pid ++ if first.pid = pid ∧ others ≠ [] then [pid] else [] := by
  rw [appended, if_pos ⟨rfl, h⟩]

theorem lastToJoin_of_hidden {first : Process} (pid : Int) (others : List Process)
    (h : stale = some first.pid) : LastToJoin stale t [] pid (first :: others) ↔
      if first.pid = pid then others ≠ []
      else first.at ≤ t ∧ (others.map Process.pid).getLast? = some pid := by
  rw [LastToJoin, if_pos ⟨rfl, h⟩]

/-! ## One preemption -/

theorem goesBack_iff {t' : Int} {live : List Int} {pid : Int} (hlive : live.Nodup)
    (hpid : ∀ q ∈ head, t < q.at → q.pid ≠ pid) :
    GoesBack t t' head live pid ↔
      live.getLast? = some pid ∧ ∀ q ∈ head, t < q.at → q.at ≤ t' → q.pid ∈ live := by
  constructor
  · rintro ⟨ahead, rfl, hahead⟩
    refine ⟨by simp, ?_⟩
    intro q hq hafter hbefore
    exact List.mem_append_left _ (hahead q hq hafter hbefore)
  · rintro ⟨hlast, hmem⟩
    obtain ⟨ahead, rfl⟩ := List.getLast?_eq_some_iff.mp hlast
    refine ⟨ahead, rfl, ?_⟩
    intro q hq hafter hbefore
    have hin := hmem q hq hafter hbefore
    simpa [hpid q hq hafter] using hin

theorem waits_of_arrival (quantum : Int) (h : Sound run) (hqueue : run.queue = ptr.pid :: rest)
    (hptr : ptr ∈ run.sim.head) (hready : ptr.Ready run.sim.currentTime) {q : Process}
    (hq : q ∈ run.sim.head) (hafter : run.sim.currentTime < q.at)
    (hbefore : q.at ≤ run.sim.currentTime + quantum) :
    q ∈ waiting (run.sim.currentTime + quantum)
      (updateProcess (Process.preempt quantum) ptr.pid run.sim.head) rest := by
  have hat := hready.1
  have haccounted := h.accounted q hq
  have hpos : 0 < q.remain := by
    have hbt := haccounted.bt_pos
    have hserved := haccounted.served
    have hle := haccounted.remain_le
    omega
  rw [mem_waiting]
  refine ⟨?_, ⟨hbefore, hpos⟩, ?_⟩
  · rw [mem_updateProcess h.nodup (findProcess_of_mem h.nodup hptr)]
    refine .inr ⟨hq, ?_⟩
    intro heq
    rw [eq_of_pid_eq h.nodup hq hptr heq] at hafter
    omega
  · intro hmem
    obtain ⟨p, hp, heq, hp', _⟩ := h.ready q.pid (by simp [hqueue, hmem])
    rw [eq_of_pid_eq h.nodup hp hq heq] at hp'
    omega

theorem waits_of_preempt (h : Queued run) (hqueue : run.queue = ptr.pid :: rest)
    (hptr : ptr ∈ run.sim.head) (hready : ptr.Ready run.sim.currentTime)
    (hquantum : 0 ≤ quantum) (hlt : quantum < ptr.remain) :
    ptr.preempt quantum ∈ waiting (run.sim.currentTime + quantum)
      (updateProcess (Process.preempt quantum) ptr.pid run.sim.head) rest := by
  have hat := hready.1
  have hnodup := h.queue_nodup
  rw [hqueue, List.nodup_cons] at hnodup
  refine mem_waiting.mpr ⟨?_, ⟨?_, ?_⟩, hnodup.1⟩
  · exact (mem_updateProcess h.nodup (findProcess_of_mem h.nodup hptr)).mpr (.inl rfl)
  · simp only [preempt_at]
    omega
  · simp only [preempt_remain]
    omega

theorem requeue_queue_eq (stale : Option Int) (h : Queued run)
    (hqueue : run.queue = ptr.pid :: rest) (hptr : ptr ∈ run.sim.head)
    (hready : ptr.Ready run.sim.currentTime) (hquantum : 0 ≤ quantum)
    (hlt : quantum < ptr.remain) :
    (requeue (fifoOps stale) quantum run.sim rest ptr).queue =
      rest ++ appended stale rest ptr.pid (waiting (run.sim.currentTime + quantum)
        (updateProcess (Process.preempt quantum) ptr.pid run.sim.head) rest) := by
  have hnodup : ((updateProcess (Process.preempt quantum) ptr.pid run.sim.head).map
      Process.pid).Nodup := by
    rw [map_updateProcess Process.pid (preempt_pid _)]
    exact h.nodup
  obtain ⟨hserved, hready', _⟩ := mem_waiting.mp
    (waits_of_preempt h hqueue hptr hready hquantum hlt)
  exact enqueue_eq_append (p := ptr.preempt quantum) stale hnodup rest hserved hready'
    (h.ne_sentinel ptr hptr)

/-- `ps` are the processes that wait when the quantum from `t` to `t'` of `pid` ends. -/
structure Joining (t t' : Int) (head ps : List Process) (pid : Int) : Prop where
  arrives : ∀ q ∈ head, t < q.at → q.at ≤ t' → q ∈ ps
  ne_pid : ∀ q ∈ head, t < q.at → q.pid ≠ pid
  waits : ∀ q ∈ ps, q.pid ≠ pid → q ∈ head ∧ q.at ≤ t'
  nodup : (ps.map Process.pid).Nodup

namespace Joining

variable {t' pid : Int} {first : Process} {others : List Process}

theorem visible (h : Joining t t' head (first :: others) pid)
    (hvisible : ¬ (queue = [] ∧ stale = some first.pid)) :
    ((queue ++ appended stale queue pid (first :: others)).getLast? = some pid ∧
        ∀ q ∈ head, t < q.at → q.at ≤ t' →
          q.pid ∈ queue ++ appended stale queue pid (first :: others)) ↔
      LastToJoin stale t queue pid (first :: others) := by
  rw [LastToJoin, appended, if_neg hvisible, if_neg hvisible,
    List.getLast?_append_of_ne_nil _ (by simp)]
  refine and_iff_left ?_
  intro q hq hafter hbefore
  exact List.mem_append_right _ (List.mem_map_of_mem (h.arrives q hq hafter hbefore))

/-- It hides the preempted process, which is appended by the last block of `enqueue`. -/
theorem hidden_self (h : Joining t t' head (first :: others) pid) (heq : first.pid = pid)
    (hstale : stale = some first.pid) :
    ((appended stale [] pid (first :: others)).getLast? = some pid ∧
        ∀ q ∈ head, t < q.at → q.at ≤ t' → q.pid ∈ appended stale [] pid (first :: others)) ↔
      LastToJoin stale t [] pid (first :: others) := by
  rw [lastToJoin_of_hidden _ _ hstale, appended_of_hidden _ _ hstale, if_pos heq]
  cases others with
  | nil => simp
  | cons second others =>
      rw [if_pos ⟨heq, by simp⟩]
      simp only [List.getLast?_concat, ne_eq, reduceCtorEq, not_false_eq_true,
        true_and, iff_true]
      intro q hq hafter hbefore
      have hin := h.arrives q hq hafter hbefore
      rcases List.mem_cons.mp hin with rfl | hin
      · exact absurd heq (h.ne_pid q hq hafter)
      · exact List.mem_append_left _ (List.mem_map_of_mem hin)

/-- It hides another process, which must not have arrived during the quantum. -/
theorem hidden_other (h : Joining t t' head (first :: others) pid) (hne : first.pid ≠ pid)
    (hstale : stale = some first.pid) :
    ((appended stale [] pid (first :: others)).getLast? = some pid ∧
        ∀ q ∈ head, t < q.at → q.at ≤ t' → q.pid ∈ appended stale [] pid (first :: others)) ↔
      LastToJoin stale t [] pid (first :: others) := by
  have hdistinct := h.nodup
  rw [List.map_cons, List.nodup_cons] at hdistinct
  rw [lastToJoin_of_hidden _ _ hstale, appended_of_hidden _ _ hstale,
    if_neg (fun hboth => hne hboth.1), if_neg hne, List.append_nil, and_comm]
  refine and_congr_left fun _ => ?_
  constructor
  · intro hall
    obtain ⟨hmem, hbefore⟩ := h.waits first (by simp) hne
    by_contra hlate
    exact hdistinct.1 (hall first hmem (by omega) hbefore)
  · intro hearly q hq hafter hbefore
    have hin := h.arrives q hq hafter hbefore
    rcases List.mem_cons.mp hin with rfl | hin
    · omega
    · exact List.mem_map_of_mem hin

end Joining

theorem joining_requeue (quantum : Int) (h : Sound run) (hqueue : run.queue = ptr.pid :: rest)
    (hptr : ptr ∈ run.sim.head) (hready : ptr.Ready run.sim.currentTime) :
    Joining run.sim.currentTime (run.sim.currentTime + quantum) run.sim.head
      (waiting (run.sim.currentTime + quantum)
        (updateProcess (Process.preempt quantum) ptr.pid run.sim.head) rest) ptr.pid := by
  constructor
  case arrives =>
    intro q hq hafter hbefore
    exact waits_of_arrival quantum h hqueue hptr hready hq hafter hbefore
  case ne_pid =>
    intro q hq hafter heq
    have hat := hready.1
    rw [eq_of_pid_eq h.nodup hq hptr heq] at hafter
    omega
  case waits =>
    intro q hq hne
    obtain ⟨hq, hq', _⟩ := mem_waiting.mp hq
    rcases (mem_updateProcess h.nodup (findProcess_of_mem h.nodup hptr)).mp hq with rfl | hq
    · exact absurd rfl hne
    · exact ⟨hq.1, hq'.1⟩
  case nodup =>
    apply nodup_waiting
    rw [map_updateProcess Process.pid (preempt_pid _)]
    exact h.nodup

theorem goesBack_requeue_iff (h : Sound run) (hqueue : run.queue = ptr.pid :: rest)
    (hptr : ptr ∈ run.sim.head) (hready : ptr.Ready run.sim.currentTime)
    (hquantum : 0 ≤ quantum) (hlt : quantum < ptr.remain) :
    GoesBack run.sim.currentTime (run.sim.currentTime + quantum) run.sim.head
        (requeue (fifoOps stale) quantum run.sim rest ptr).queue ptr.pid ↔
      LastToJoin stale run.sim.currentTime rest ptr.pid
        (waiting (run.sim.currentTime + quantum)
          (updateProcess (Process.preempt quantum) ptr.pid run.sim.head) rest) := by
  have hkept : Queued (requeue (fifoOps stale) quantum run.sim rest ptr) :=
    queued_requeue h.toQueued hqueue hptr hready hquantum hlt
  have hjoining := joining_requeue quantum h hqueue hptr hready
  have hwaits := waits_of_preempt h.toQueued hqueue hptr hready hquantum hlt
  rw [goesBack_iff hkept.queue_nodup hjoining.ne_pid,
    requeue_queue_eq stale h.toQueued hqueue hptr hready hquantum hlt]
  generalize waiting (run.sim.currentTime + quantum)
    (updateProcess (Process.preempt quantum) ptr.pid run.sim.head) rest = ps at *
  cases ps with
  | nil => cases hwaits
  | cons first others =>
      cases hhidden : decide (rest = [] ∧ stale = some first.pid) with
      | false => exact hjoining.visible (of_decide_eq_false hhidden)
      | true =>
          obtain ⟨rfl, hstale⟩ := of_decide_eq_true hhidden
          rw [List.nil_append]
          cases hfirst : decide (first.pid = ptr.pid) with
          | true => exact hjoining.hidden_self (of_decide_eq_true hfirst) hstale
          | false => exact hjoining.hidden_other (of_decide_eq_false hfirst) hstale

/-! ## Runs -/

theorem goesBack_serveLoop_iff (stale : Option Int) (h : Sound run) (hquantum : 0 ≤ quantum)
    {n : Nat} (hptr : ptr ∈ ((serveLoop (fifoOps stale) quantum).state run n).sim.head)
    (hnext : nextPid (fifoOps stale) ((serveLoop (fifoOps stale) quantum).state run n) = ptr.pid)
    (hlt : quantum < ptr.remain) :
    let s := (serveLoop (fifoOps stale) quantum).state run n
    GoesBack s.sim.currentTime (s.sim.currentTime + quantum) s.sim.head
        ((serveLoop (fifoOps stale) quantum).state run (n + 1)).queue ptr.pid ↔
      LastToJoin stale s.sim.currentTime s.queue.tail ptr.pid
        (waiting (s.sim.currentTime + quantum)
          (updateProcess (Process.preempt quantum) ptr.pid s.sim.head) s.queue.tail) := by
  intro s
  have hsound : Sound s := sound_serveLoop h hquantum n
  obtain ⟨rest, hqueue⟩ := exists_rest_of_nextPid hnext (hsound.ne_sentinel ptr hptr)
  obtain ⟨p, hp, heq, hready⟩ := hsound.ready ptr.pid (by simp [s, hqueue])
  rw [eq_of_pid_eq hsound.nodup hp hptr heq] at hready
  have hguard : (serveLoop (fifoOps stale) quantum).guard s = true :=
    guard_of_unfinished hptr hready.2
  have hstep : (serveLoop (fifoOps stale) quantum).state run (n + 1) =
      requeue (fifoOps stale) quantum s.sim rest ptr := by
    rw [Loop.state_succ_of_guard _ hguard]
    exact (dispatch_cons stale quantum hsound.toQueued hqueue hptr).trans
      (if_neg (Int.not_le.mpr hlt))
  have htail : s.queue.tail = rest := congrArg List.tail hqueue
  rw [hstep, htail]
  exact goesBack_requeue_iff hsound hqueue hptr hready hquantum hlt

theorem goesBack_array_iff (sim : Sim) (hpids : ProperPids sim.head)
    (hfresh : ∀ p ∈ sim.head, p.remain = p.bt ∧ 1 ≤ p.bt) (cell : Int → Int)
    (hquantum : allProcessesCompleted sim.head = false → 0 ≤ quantum) {n : Nat}
    (hptr : ptr ∈ ((serveLoop arrayOps quantum).state
      (start arrayOps sim (Queue.declared cell)) n).sim.head)
    (hguard : (serveLoop arrayOps quantum).guard ((serveLoop arrayOps quantum).state
      (start arrayOps sim (Queue.declared cell)) n) = true)
    (hnext : nextPid arrayOps ((serveLoop arrayOps quantum).state
      (start arrayOps sim (Queue.declared cell)) n) = ptr.pid)
    (hlt : quantum < ptr.remain) :
    let s := (serveLoop arrayOps quantum).state (start arrayOps sim (Queue.declared cell)) n
    GoesBack s.sim.currentTime (s.sim.currentTime + quantum) s.sim.head
        ((serveLoop arrayOps quantum).state
          (start arrayOps sim (Queue.declared cell)) (n + 1)).queue.live ptr.pid ↔
      LastToJoin (some (cell (-1))) s.sim.currentTime s.queue.live.tail ptr.pid
        (waiting (s.sim.currentTime + quantum)
          (updateProcess (Process.preempt quantum) ptr.pid s.sim.head) s.queue.live.tail) := by
  intro s
  have hactive : allProcessesCompleted sim.head = false := by
    have hfirst := Loop.guard_of_lt _ (Nat.zero_le n) hguard
    simpa using hfirst
  have hfifo := goesBack_serveLoop_iff (some (cell (-1))) (n := n)
    (sound_start hpids hfresh) (hquantum hactive) (by rwa [← arrayRun_sim])
    ((arrayRun_nextPid quantum sim cell n).symm.trans hnext) hlt
  simp only [s, arrayRun_live, arrayRun_sim]
  exact hfifo

/-- In every run of `rr` and of `sjf`, a preempted process goes to the back of the queue
exactly when it is the last of the waiting processes to join. -/
theorem rr_sjf_goesBack_iff (sim : Sim) (hpids : ProperPids sim.head)
    (hfresh : ∀ p ∈ sim.head, p.remain = p.bt ∧ 1 ≤ p.bt) (cell : Int → Int) (n : Nat) :
    (let loop : Loop (Run Queue) := rrLoop arrayOps
      let run := loop.state (rrStart arrayOps sim (Queue.declared cell)) n
      loop.guard run = true → ∀ ptr ∈ run.sim.head, nextPid arrayOps run = ptr.pid →
        timeQuantumRr < ptr.remain →
          (GoesBack run.sim.currentTime (run.sim.currentTime + timeQuantumRr) run.sim.head
              (loop.state (rrStart arrayOps sim (Queue.declared cell)) (n + 1)).queue.live
              ptr.pid ↔
            LastToJoin (some (cell (-1))) run.sim.currentTime run.queue.live.tail ptr.pid
              (waiting (run.sim.currentTime + timeQuantumRr)
                (updateProcess (Process.preempt timeQuantumRr) ptr.pid run.sim.head)
                run.queue.live.tail))) ∧
    (let loop : Loop (Run Queue) := sjfLoop arrayOps
      let run := loop.state (sjfStart arrayOps sim (Queue.declared cell)) n
      let quantum := dynamicTimeQuantum sim.head sim.timeQuantumSjf
      loop.guard run = true → ∀ ptr ∈ run.sim.head, nextPid arrayOps run = ptr.pid →
        quantum < ptr.remain →
          (GoesBack run.sim.currentTime (run.sim.currentTime + quantum) run.sim.head
              (loop.state (sjfStart arrayOps sim (Queue.declared cell)) (n + 1)).queue.live
              ptr.pid ↔
            LastToJoin (some (cell (-1))) run.sim.currentTime run.queue.live.tail ptr.pid
              (waiting (run.sim.currentTime + quantum)
                (updateProcess (Process.preempt quantum) ptr.pid run.sim.head)
                run.queue.live.tail))) := by
  constructor
  · intro loop run hguard ptr hptr hnext hlt
    exact goesBack_array_iff sim hpids hfresh cell (fun _ => by decide) hptr hguard hnext hlt
  · intro loop run quantum hguard ptr hptr hnext hlt
    have hquantum : allProcessesCompleted sim.head = false → 0 ≤ quantum :=
      fun hactive => Int.le_of_lt (dynamicTimeQuantum_pos hactive sim.timeQuantumSjf)
    simp only [loop, run, sjfLoop_state, sjfStart_eq, start_sim] at hguard hptr hnext ⊢
    exact goesBack_array_iff { sim with timeQuantumSjf := quantum } hpids hfresh cell hquantum
      hptr hguard hnext hlt

def arrivalBehind : Sim :=
  Sim.init (assignProcessors 1 (createProcesses (-1) [⟨1, 0, 5⟩, ⟨2, 1, 1⟩]))

theorem arrivalBehind_not_goesBack : ¬ ∀ sim : Sim, ProperPids sim.head →
    (∀ p ∈ sim.head, p.remain = p.bt ∧ 1 ≤ p.bt) →
      PreemptedGoBack timeQuantumRr (rrLoop arrayOps)
        (rrStart arrayOps sim (Queue.declared fun _ => 0)) := by
  intro h
  obtain ⟨ahead, hlive, _⟩ := h arrivalBehind (properPids_input 1 (-1) (by decide) (by decide))
    (by decide) 0 (by decide) ⟨1, 0, 5, 0, -1, -1, -1, -1, 5⟩ (by decide) (by decide) (by decide)
  have hlast := congrArg List.getLast? hlive
  rw [List.getLast?_concat] at hlast
  revert hlast
  decide

/-- The arrival is listed ahead of the preempted process. -/
theorem arrivalAhead_goesBack :
    let run : Nat → Run Queue := (rrLoop arrayOps).state (rrStart arrayOps (Sim.init
      (assignProcessors 1 (createProcesses (-1) [⟨2, 1, 1⟩, ⟨1, 0, 5⟩])))
      (Queue.declared fun _ => 0))
    GoesBack (run 0).sim.currentTime ((run 0).sim.currentTime + timeQuantumRr) (run 0).sim.head
      (run 1).queue.live 1 := by
  exact ((rr_sjf_goesBack_iff _ (properPids_input 1 (-1) (by decide) (by decide)) (by decide)
    (fun _ => 0) 0).1 (by decide) ⟨1, 0, 5, 0, -1, -1, -1, -1, 5⟩ (by decide) (by decide)
    (by decide)).mpr (by decide)

end SyscallSched.Simulators.Mlfqs
