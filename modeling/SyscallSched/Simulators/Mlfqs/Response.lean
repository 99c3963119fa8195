import SyscallSched.Foundation.Makespan
import SyscallSched.Simulators.Process
import SyscallSched.Simulators.Mlfqs.Requeue

/-!
# The response times of `rr` and `sjf`

A completion computes `rt` from the clock at the end and the burst time.  The result is the
clock of the first dispatch less the arrival exactly for a process that, once dispatched,
is not interrupted: each of its preemptions finds the queue empty and queues it first.
-/

namespace SyscallSched.Simulators.Mlfqs

open SyscallSched.Foundation

section

variable {Q : Type} (ops : QueueOps Q) (loop : Loop (Run Q)) (run : Run Q)

def FirstTurn (pid : Int) (n : Nat) : Prop :=
  loop.guard (loop.state run n) = true ∧ nextPid ops (loop.state run n) = pid ∧
    ∀ m, m < n → nextPid ops (loop.state run m) ≠ pid

/-- The `rt` of the record `p` is the clock of its first dispatch less its arrival. -/
def RespondsAtFirstTurn (p : Process) : Prop :=
  ∃ n, FirstTurn ops loop run p.pid n ∧ p.rt = (loop.state run n).sim.currentTime - p.at

end

/-- A condition on the state in which `pid` is dispatched for a whole quantum, with `rest`
queued behind it: no other process is queued, and of those that are ready at the end of the
quantum `pid` joins the queue first. -/
def ResumesAtOnce (stale : Option Int) (quantum : Int) (sim : Sim) (pid : Int)
    (rest : List Int) : Prop :=
  rest = [] ∧ (appended stale [] pid (waiting (sim.currentTime + quantum)
    (updateProcess (Process.preempt quantum) pid sim.head) [])).head? = some pid

instance (stale : Option Int) (quantum : Int) (sim : Sim) (pid : Int) (rest : List Int) :
    Decidable (ResumesAtOnce stale quantum sim pid rest) :=
  inferInstanceAs (Decidable (_ ∧ _))

variable {stale : Option Int} {quantum : Int} {run : Run (List Int)} {p ptr : Process}

/-! ## One iteration seen from one record -/

/-- The three things that an iteration can do for the process of the record `p`. -/
inductive Step (quantum : Int) (run run' : Run (List Int)) (p p' : Process) : Prop where
  | finished (turn : nextPid (fifoOps none) run = p.pid) (pos : 0 < p.remain)
      (le : p.remain ≤ quantum)
      (time : run'.sim.currentTime = run.sim.currentTime + p.remain)
      (record : p' = p.complete (run.sim.currentTime + p.remain))
  | preempted (turn : nextPid (fifoOps none) run = p.pid) (lt : quantum < p.remain)
      (time : run'.sim.currentTime = run.sim.currentTime + quantum)
      (record : p' = p.preempt quantum)
  | other (turn : nextPid (fifoOps none) run ≠ p.pid)
      (time : 0 < p.remain → run.sim.currentTime < run'.sim.currentTime) (record : p' = p)

theorem step_dispatch (h : Queued run) (hquantum : 1 ≤ quantum) (hp : p ∈ run.sim.head)
    {p' : Process} (hp' : p' ∈ (dispatch (fifoOps stale) quantum run).sim.head)
    (hpid : p'.pid = p.pid) :
    Step quantum run (dispatch (fifoOps stale) quantum run) p p' := by
  have hkept : Queued (dispatch (fifoOps stale) quantum run) :=
    queued_dispatch h (Int.le_trans (by decide) hquantum)
  rcases dispatch_cases stale quantum h with
    ⟨hnil, hstep⟩ | ⟨ptr, rest, hqueue, hptr, hready, hfind, hcase⟩
  · have hturn : nextPid (fifoOps none) run ≠ p.pid := by
      rw [nextPid, hnil]
      exact fun heq => h.ne_sentinel p hp heq.symm
    have hsame : p ∈ (dispatch (fifoOps stale) quantum run).sim.head := mem_dispatch h hp hturn
    refine .other hturn ?_ (eq_of_pid_eq hkept.nodup hp' hsame hpid)
    intro _
    simp only [hstep, idle_sim]
    omega
  · have hnext := nextPid_cons none hqueue
    have hpos := hready.2
    cases hturn : decide (ptr.pid = p.pid) with
    | true =>
        have heq := eq_of_pid_eq h.nodup hptr hp (of_decide_eq_true hturn)
        subst heq
        rcases hcase with ⟨hle, hstep⟩ | ⟨hlt, hstep⟩
        · have hnew : ptr.complete (run.sim.currentTime + ptr.remain) ∈
              (dispatch (fifoOps stale) quantum run).sim.head := by
            rw [hstep, finish_sim]
            exact (mem_updateProcess h.nodup hfind).mpr (.inl rfl)
          refine .finished hnext hpos hle ?_ (eq_of_pid_eq hkept.nodup hp' hnew hpid)
          simp only [hstep, finish_sim]
        · have hnew : ptr.preempt quantum ∈
              (dispatch (fifoOps stale) quantum run).sim.head := by
            rw [hstep, requeue_sim]
            exact (mem_updateProcess h.nodup hfind).mpr (.inl rfl)
          refine .preempted hnext hlt ?_ (eq_of_pid_eq hkept.nodup hp' hnew hpid)
          simp only [hstep, requeue_sim]
    | false =>
        have hne : nextPid (fifoOps none) run ≠ p.pid := by
          rw [hnext]
          exact of_decide_eq_false hturn
        have hsame : p ∈ (dispatch (fifoOps stale) quantum run).sim.head := mem_dispatch h hp hne
        refine .other hne ?_ (eq_of_pid_eq hkept.nodup hp' hsame hpid)
        intro _
        rcases hcase with ⟨_, hstep⟩ | ⟨_, hstep⟩
        · simp only [hstep, finish_sim]
          omega
        · simp only [hstep, requeue_sim]
          omega

theorem nextPid_dispatch_iff (h : Queued run) (hquantum : 0 ≤ quantum)
    (hptr : ptr ∈ run.sim.head) {rest : List Int} (hqueue : run.queue = ptr.pid :: rest)
    (hlt : quantum < ptr.remain) :
    nextPid (fifoOps none) (dispatch (fifoOps stale) quantum run) = ptr.pid ↔
      ResumesAtOnce stale quantum run.sim ptr.pid rest := by
  have hne := h.ne_sentinel ptr hptr
  obtain ⟨p, hp, heq, hready⟩ := h.ready ptr.pid (by simp [hqueue])
  rw [eq_of_pid_eq h.nodup hp hptr heq] at hready
  have hstep : dispatch (fifoOps stale) quantum run =
      requeue (fifoOps stale) quantum run.sim rest ptr := by
    rw [dispatch_cons stale quantum h hqueue hptr, if_neg (Int.not_le.mpr hlt)]
  have hjoin := requeue_queue_eq stale h hqueue hptr hready hquantum hlt
  rw [← hstep] at hjoin
  have hfirst : nextPid (fifoOps none) (dispatch (fifoOps stale) quantum run) = ptr.pid ↔
      (dispatch (fifoOps stale) quantum run).queue.head? = some ptr.pid := by
    cases hq : (dispatch (fifoOps stale) quantum run).queue with
    | nil =>
        rw [nextPid, hq]
        simp [fifoOps, Ne.symm hne]
    | cons pid queue => simp [nextPid_cons none hq]
  rw [hfirst, hjoin, ResumesAtOnce]
  cases rest with
  | nil => simp
  | cons pid rest =>
      have hdistinct := h.queue_nodup
      rw [hqueue] at hdistinct
      have hother : pid ≠ ptr.pid := by
        rintro rfl
        simp at hdistinct
      simp [hother]

/-! ## Runs over live entries -/

theorem exists_records (stale : Option Int) (quantum : Int) (hp : p ∈ run.sim.head) :
    ∃ record : Nat → Process, ∀ n,
      record n ∈ ((serveLoop (fifoOps stale) quantum).state run n).sim.head ∧
        (record n).pid = p.pid := by
  have hall : ∀ n, ∃ q ∈ ((serveLoop (fifoOps stale) quantum).state run n).sim.head,
      q.pid = p.pid := by
    intro n
    have hmem : p.pid ∈ ((serveLoop (fifoOps stale) quantum).state run n).sim.head.map
        Process.pid := by
      rw [map_pid_serveLoop]
      exact List.mem_map_of_mem hp
    exact List.mem_map.mp hmem
  choose record hrecord using hall
  exact ⟨record, hrecord⟩

section Records

variable {record : Nat → Process} (h : Queued run) (hquantum : 1 ≤ quantum)
  (hrecord : ∀ n, record n ∈ ((serveLoop (fifoOps stale) quantum).state run n).sim.head ∧
    (record n).pid = p.pid)

include h hquantum hrecord

theorem step_records {n : Nat} :
    Step quantum ((serveLoop (fifoOps stale) quantum).state run n)
      ((serveLoop (fifoOps stale) quantum).state run (n + 1)) (record n) (record (n + 1)) := by
  have hqueued : Queued ((serveLoop (fifoOps stale) quantum).state run n) :=
    queued_serveLoop h (Int.le_trans (by decide) hquantum) n
  obtain ⟨hmem, hpid⟩ := hrecord n
  obtain ⟨hmem', hpid'⟩ := hrecord (n + 1)
  have hsame := hpid'.trans hpid.symm
  cases hguard : (serveLoop (fifoOps stale) quantum).guard
      ((serveLoop (fifoOps stale) quantum).state run n) with
  | true =>
      rw [Loop.state_succ_of_guard _ hguard] at hmem' ⊢
      exact step_dispatch hqueued hquantum hmem hmem' hsame
  | false =>
      rw [Loop.state_succ, Loop.next_of_not_guard _ hguard] at hmem' ⊢
      have hdone : ¬ 0 < (record n).remain := by
        intro hpos
        rw [guard_of_unfinished hmem hpos] at hguard
        cases hguard
      refine .other ?_ (fun hpos => absurd hpos hdone)
        (eq_of_pid_eq hqueued.nodup hmem' hmem hsame)
      intro hturn
      obtain ⟨rest, hqueue⟩ := exists_rest_of_nextPid hturn (hqueued.ne_sentinel _ hmem)
      obtain ⟨q, hq, heq, hready⟩ := hqueued.ready (record n).pid (by simp [hqueue])
      rw [eq_of_pid_eq hqueued.nodup hq hmem heq] at hready
      exact hdone hready.2

theorem unfinished_of_turn {n : Nat} (hturn : nextPid (fifoOps none)
      ((serveLoop (fifoOps stale) quantum).state run n) = p.pid) : 0 < (record n).remain := by
  have hpid := (hrecord n).2
  rcases step_records h hquantum hrecord (n := n) with
    ⟨_, hpos, _⟩ | ⟨_, hlt, _⟩ | ⟨hother, _⟩
  · exact hpos
  · omega
  · exact absurd (hturn.trans hpid.symm) hother

theorem waits_records (m : Nat) :
    Waits m (fun n => (record n).delay
        ((serveLoop (fifoOps stale) quantum).state run n).sim.currentTime)
      (fun n => ¬ 0 < (record n).remain)
      (fun n => nextPid (fifoOps none) ((serveLoop (fifoOps stale) quantum).state run n) =
        p.pid) := by
  have hturn := fun n => unfinished_of_turn h hquantum hrecord (n := n)
  have hpid := fun n => (hrecord n).2
  constructor
  case done_stays =>
    intro n _ hdone
    rcases step_records h hquantum hrecord (n := n) with
      ⟨_, hpos, _⟩ | ⟨_, hlt, _⟩ | ⟨_, _, hsame⟩
    · exact absurd hpos hdone
    · omega
    · rw [hsame]
      exact hdone
  case not_done_of_next =>
    intro n _ hnext hdone
    exact hdone (hturn n hnext)
  case delay_of_done =>
    intro n _ hdone
    rcases step_records h hquantum hrecord (n := n) with
      ⟨_, hpos, _⟩ | ⟨_, hlt, _⟩ | ⟨_, _, hsame⟩
    · exact absurd hpos hdone
    · omega
    · rw [hsame, delay_of_finished hdone, delay_of_finished hdone]
  case delay_of_next =>
    intro n _ hnext
    rcases step_records h hquantum hrecord (n := n) with
      ⟨_, hpos, _, htime, hnew⟩ | ⟨_, hlt, htime, hnew⟩ | ⟨hother, _⟩
    · rw [htime, hnew]
      exact delay_complete hpos _
    · rw [htime, hnew]
      exact delay_preempt (by omega) hlt
    · exact absurd (hnext.trans (hpid n).symm) hother
  case other =>
    intro n _ hdone hnext
    have hpos : 0 < (record n).remain := not_not.mp hdone
    rcases step_records h hquantum hrecord (n := n) with
      ⟨hself, _⟩ | ⟨hself, _⟩ | ⟨_, htime, hsame⟩
    · exact absurd (hself.trans (hpid n)) hnext
    · exact absurd (hself.trans (hpid n)) hnext
    · have hlater := htime hpos
      rw [hsame, delay_of_unfinished hpos, delay_of_unfinished hpos]
      exact ⟨hdone, by omega, fun heq => by omega⟩

end Records

theorem exists_firstTurn (h : Queued run) (hquantum : 1 ≤ quantum) (hp : p ∈ run.sim.head)
    (hpos : 0 < p.remain) {k : Nat} {q : Process}
    (hq : q ∈ ((serveLoop (fifoOps stale) quantum).state run k).sim.head)
    (hpid : q.pid = p.pid) (hdone : ¬ 0 < q.remain) :
    ∃ m, m < k ∧
      FirstTurn (fifoOps stale) (serveLoop (fifoOps stale) quantum) run p.pid m ∧
      p ∈ ((serveLoop (fifoOps stale) quantum).state run m).sim.head := by
  classical
  have hturn : ∃ m, m < k ∧
      nextPid (fifoOps stale) ((serveLoop (fifoOps stale) quantum).state run m) = p.pid := by
    by_contra hnever
    have hkept := mem_serveLoop h (by omega) hp fun m hm heq => hnever ⟨m, hm, heq⟩
    have hqueued : Queued ((serveLoop (fifoOps stale) quantum).state run k) :=
      queued_serveLoop h (by omega) k
    rw [eq_of_pid_eq hqueued.nodup hq hkept hpid] at hdone
    exact hdone hpos
  obtain ⟨hlt, hnext⟩ := Nat.find_spec hturn
  have hfirst : ∀ i, i < Nat.find hturn →
      nextPid (fifoOps stale) ((serveLoop (fifoOps stale) quantum).state run i) ≠ p.pid :=
    fun i hi heq => Nat.find_min hturn hi ⟨hi.trans hlt, heq⟩
  have hkept := mem_serveLoop h (by omega) hp hfirst
  exact ⟨_, hlt, ⟨guard_of_unfinished hkept hpos, hnext, hfirst⟩, hkept⟩

theorem nextPid_succ_iff (h : Queued run) (hquantum : 1 ≤ quantum) {n : Nat}
    (hptr : ptr ∈ ((serveLoop (fifoOps stale) quantum).state run n).sim.head)
    (hnext : nextPid (fifoOps none) ((serveLoop (fifoOps stale) quantum).state run n) = ptr.pid)
    (hlt : quantum < ptr.remain) :
    nextPid (fifoOps none) ((serveLoop (fifoOps stale) quantum).state run (n + 1)) = ptr.pid ↔
      ResumesAtOnce stale quantum ((serveLoop (fifoOps stale) quantum).state run n).sim ptr.pid
        ((serveLoop (fifoOps stale) quantum).state run n).queue.tail := by
  have hqueued : Queued ((serveLoop (fifoOps stale) quantum).state run n) :=
    queued_serveLoop h (by omega) n
  obtain ⟨rest, hqueue⟩ := exists_rest_of_nextPid hnext (hqueued.ne_sentinel ptr hptr)
  have hguard : (serveLoop (fifoOps stale) quantum).guard
      ((serveLoop (fifoOps stale) quantum).state run n) = true :=
    guard_of_unfinished hptr (by omega)
  rw [Loop.state_succ_of_guard _ hguard, hqueue]
  exact nextPid_dispatch_iff hqueued (by omega) hptr hqueue hlt

theorem at_serveLoop (h : Queued run) (hp : p ∈ run.sim.head) {k : Nat} {q : Process}
    (hquantum : 0 ≤ quantum) (hq : q ∈ ((serveLoop (fifoOps stale) quantum).state run k).sim.head)
    (hpid : q.pid = p.pid) : q.at = p.at := by
  have hqueued : Queued ((serveLoop (fifoOps stale) quantum).state run k) :=
    queued_serveLoop h hquantum k
  have hsame := findProcess_identity
    (map_identity_serveLoop (fifoOps stale) quantum run k) p.pid
  rw [findProcess_of_mem h.nodup hp, ← hpid, findProcess_of_mem hqueued.nodup hq] at hsame
  simp only [Option.map_some, Option.some.injEq, identity, Prod.mk.injEq] at hsame
  exact hsame.2.1

theorem FirstTurn.unique {Q : Type} {ops : QueueOps Q} {loop : Loop (Run Q)} {run : Run Q}
    {pid : Int} {m n : Nat} (hm : FirstTurn ops loop run pid m)
    (hn : FirstTurn ops loop run pid n) : m = n := by
  rcases Nat.lt_trichotomy m n with hlt | heq | hlt
  · exact absurd hm.2.1 (hn.2.2 m hlt)
  · exact heq
  · exact absurd hn.2.1 (hm.2.2 n hlt)

/-- A process that has finished responded at its first turn if and only if it resumed after
each of its preemptions. -/
theorem respondsAtFirstTurn_fifo_iff (stale : Option Int) (h : Queued run)
    (hquantum : 1 ≤ quantum) (hfresh : ∀ p ∈ run.sim.head, p.remain = p.bt ∧ 1 ≤ p.bt)
    {k : Nat} {q : Process} (hq : q ∈ ((serveLoop (fifoOps stale) quantum).state run k).sim.head)
    (hdone : q.remain = 0) :
    RespondsAtFirstTurn (fifoOps stale) (serveLoop (fifoOps stale) quantum) run q ↔
      ∀ n,
        let s := (serveLoop (fifoOps stale) quantum).state run n
        ∀ ptr ∈ s.sim.head, ptr.pid = q.pid → nextPid (fifoOps stale) s = q.pid →
          quantum < ptr.remain → ResumesAtOnce stale quantum s.sim q.pid s.queue.tail := by
  obtain ⟨p, hp, hpid⟩ : ∃ p ∈ run.sim.head, p.pid = q.pid := by
    have hmem := List.mem_map_of_mem (f := Process.pid) hq
    rw [map_pid_serveLoop] at hmem
    exact List.mem_map.mp hmem
  obtain ⟨hremain, hbt⟩ := hfresh p hp
  obtain ⟨m, hmk, hfirst, hkept⟩ :=
    exists_firstTurn h hquantum hp (by omega) hq hpid.symm (by omega)
  obtain ⟨record, hrecord⟩ := exists_records stale quantum hp
  have hqueued : ∀ n, Queued ((serveLoop (fifoOps stale) quantum).state run n) :=
    fun n => queued_serveLoop h (by omega) n
  have hsame : ∀ {n : Nat} {r : Process},
      r ∈ ((serveLoop (fifoOps stale) quantum).state run n).sim.head → r.pid = p.pid →
        record n = r := by
    intro n r hr hrpid
    exact eq_of_pid_eq (hqueued n).nodup (hrecord n).1 hr ((hrecord n).2.trans hrpid.symm)
  have hwaits := waits_records h hquantum hrecord m
  have hiff := hwaits.delay_eq_iff (Nat.le_of_lt hmk) (by rw [hsame hq hpid.symm]; omega)
  simp only [hsame hq hpid.symm, hsame hkept rfl] at hiff
  rw [delay_of_finished (by omega), delay_of_unserved (by omega) hremain] at hiff
  have hresponds : RespondsAtFirstTurn (fifoOps stale) (serveLoop (fifoOps stale) quantum)
      run q ↔
        q.rt = ((serveLoop (fifoOps stale) quantum).state run m).sim.currentTime - p.at := by
    have hat := at_serveLoop h hp (by omega) hq hpid.symm
    rw [RespondsAtFirstTurn, ← hpid, hat]
    constructor
    · rintro ⟨n, hn, hrt⟩
      rw [hfirst.unique hn]
      exact hrt
    · intro hrt
      exact ⟨m, hfirst, hrt⟩
  rw [hresponds, hiff, ← hpid]
  constructor
  · rintro ⟨_, hturns⟩ n s ptr hptr hptrpid hnext hlt
    have hmn : m ≤ n := by
      by_contra hbefore
      exact hfirst.2.2 n (by omega) hnext
    have hrec := hsame hptr hptrpid
    have hagain : nextPid (fifoOps none)
        ((serveLoop (fifoOps stale) quantum).state run (n + 1)) = p.pid := by
      refine (hturns n hmn hnext).resolve_left ?_
      rcases step_records h hquantum hrecord (n := n) with
        ⟨_, _, hle, _⟩ | ⟨_, _, _, hnew⟩ | ⟨hother, _⟩
      · rw [hrec] at hle
        omega
      · rw [hnew, hrec, preempt_remain]
        omega
      · exact absurd (hnext.trans (hrecord n).2.symm) hother
    rw [← hptrpid] at hnext hagain ⊢
    exact (nextPid_succ_iff h hquantum hptr hnext hlt).mp hagain
  · intro hresumes
    refine ⟨.inr hfirst.2.1, ?_⟩
    intro n _ hnext
    rcases step_records h hquantum hrecord (n := n) with
      ⟨_, _, _, _, hnew⟩ | ⟨hturn, hlt, _, _⟩ | ⟨hother, _⟩
    · rw [hnew]
      exact .inl (by simp)
    · right
      obtain ⟨hmem, hrpid⟩ := hrecord n
      have hcond := hresumes n (record n) hmem hrpid hnext hlt
      rw [← hrpid] at hcond ⊢
      exact (nextPid_succ_iff h hquantum hmem hturn hlt).mpr hcond
    · exact absurd (hnext.trans (hrecord n).2.symm) hother

/-! ## The array of the source -/

theorem respondsAtFirstTurn_array_iff (sim : Sim) (hpids : ProperPids sim.head)
    (hfresh : ∀ p ∈ sim.head, p.remain = p.bt ∧ 1 ≤ p.bt) (cell : Int → Int)
    (hquantum : allProcessesCompleted sim.head = false → 1 ≤ quantum) {k : Nat} {q : Process}
    (hq : q ∈ ((serveLoop arrayOps quantum).state
      (start arrayOps sim (Queue.declared cell)) k).sim.head) (hdone : q.remain = 0) :
    RespondsAtFirstTurn arrayOps (serveLoop arrayOps quantum)
        (start arrayOps sim (Queue.declared cell)) q ↔
      ∀ n,
        let s := (serveLoop arrayOps quantum).state (start arrayOps sim (Queue.declared cell)) n
        ∀ ptr ∈ s.sim.head, ptr.pid = q.pid → nextPid arrayOps s = q.pid →
          quantum < ptr.remain →
            ResumesAtOnce (some (cell (-1))) quantum s.sim q.pid s.queue.live.tail := by
  have hactive : allProcessesCompleted sim.head = false := by
    cases hall : allProcessesCompleted sim.head with
    | false => rfl
    | true =>
        rw [Loop.state_of_not_guard _ (by simp [hall])] at hq
        obtain ⟨hremain, hbt⟩ := hfresh q hq
        omega
  rw [arrayRun_sim] at hq
  have hfifo := respondsAtFirstTurn_fifo_iff (some (cell (-1))) (queued_start hpids)
    (hquantum hactive) hfresh hq hdone
  unfold RespondsAtFirstTurn FirstTurn at hfifo ⊢
  simp only [serveLoop_guard, arrayRun_nextPid, arrayRun_live, arrayRun_sim]
  simpa only [serveLoop_guard] using hfifo

end SyscallSched.Simulators.Mlfqs
