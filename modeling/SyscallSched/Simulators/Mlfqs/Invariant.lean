import Mathlib.Algebra.Order.BigOperators.Group.List
import SyscallSched.Simulators.Mlfqs.Fifo

/-!
# What one iteration of `rr` and `sjf` can do

Runs over the list queue with an arbitrary stale cell.  `Queued` is the
invariant of the queue: its entries are distinct pids of ready processes.
Under it an iteration is an idle tick, a completion or a preemption, and all
later facts about runs are derived from these three cases.
-/

namespace SyscallSched.Simulators.Mlfqs

open SyscallSched.Foundation

/-- The pids are distinct and none is -1. -/
structure ProperPids (head : List Process) : Prop where
  nodup : (head.map Process.pid).Nodup
  ne_sentinel : ∀ p ∈ head, p.pid ≠ -1

theorem ProperPids.of_map_eq {head head' : List Process}
    (h : ProperPids head) (hmap : head'.map Process.pid = head.map Process.pid) :
    ProperPids head' := by
  refine ⟨hmap ▸ h.nodup, ?_⟩
  intro p hp
  have hmem : p.pid ∈ head.map Process.pid := hmap ▸ List.mem_map_of_mem hp
  obtain ⟨q, hq, heq⟩ := List.mem_map.mp hmem
  exact heq ▸ h.ne_sentinel q hq

theorem properPids_input (processors pr : Int) {input : List Request}
    (hpid : (input.map Request.pid).Nodup) (hne : ∀ v ∈ input, v.pid ≠ -1) :
    ProperPids (assignProcessors processors (createProcesses pr input)) := by
  constructor
  · rw [map_pid_assignProcessors]
    exact hpid
  · intro p hp
    exact hne _ (mem_assignProcessors hp).2.2

structure Queued (run : Run (List Int)) : Prop extends
    ProperPids run.sim.head where
  queue_nodup : run.queue.Nodup
  ready : ∀ pid ∈ run.queue,
    ∃ p ∈ run.sim.head, p.pid = pid ∧ p.Ready run.sim.currentTime

variable {stale : Option Int} {quantum : Int} {run : Run (List Int)}

theorem dispatch_cons (stale : Option Int) (quantum : Int) (h : Queued run)
    {ptr : Process} {rest : List Int} (hqueue : run.queue = ptr.pid :: rest)
    (hptr : ptr ∈ run.sim.head) :
    dispatch (fifoOps stale) quantum run =
      if ptr.remain ≤ quantum then finish run.sim rest ptr
      else requeue (fifoOps stale) quantum run.sim rest ptr := by
  have hne : ptr.pid ≠ -1 := h.ne_sentinel ptr hptr
  have hfind := findProcess_of_mem h.nodup hptr
  have hdequeue : (fifoOps stale).dequeue run.queue = (ptr.pid, rest) := by
    rw [hqueue]
    rfl
  simp only [dispatch, hdequeue, if_neg hne, hfind]

theorem dispatch_cases (stale : Option Int) (quantum : Int) (h : Queued run) :
    (run.queue = [] ∧
      dispatch (fifoOps stale) quantum run = idle (fifoOps stale) run.sim []) ∨
    ∃ ptr rest, run.queue = ptr.pid :: rest ∧ ptr ∈ run.sim.head ∧
      ptr.Ready run.sim.currentTime ∧
      findProcess run.sim.head ptr.pid = some ptr ∧
      ((ptr.remain ≤ quantum ∧
          dispatch (fifoOps stale) quantum run = finish run.sim rest ptr) ∨
        (quantum < ptr.remain ∧
          dispatch (fifoOps stale) quantum run =
            requeue (fifoOps stale) quantum run.sim rest ptr)) := by
  cases hqueue : run.queue with
  | nil =>
      refine .inl ⟨rfl, ?_⟩
      simp [dispatch, fifoOps, hqueue]
  | cons pid rest =>
      obtain ⟨ptr, hptr, rfl, hready⟩ := h.ready pid (by simp [hqueue])
      refine .inr ⟨ptr, rest, rfl, hptr, hready,
        findProcess_of_mem h.nodup hptr, ?_⟩
      rw [dispatch_cons stale quantum h hqueue hptr]
      by_cases hle : ptr.remain ≤ quantum
      · exact .inl ⟨hle, if_pos hle⟩
      · exact .inr ⟨by omega, if_neg hle⟩

theorem queued_start {sim : Sim} (h : ProperPids sim.head) :
    Queued (start (fifoOps stale) sim []) where
  toProperPids := h
  queue_nodup := by
    rw [start_queue]
    exact nodup_enqueue List.nodup_nil
  ready := by
    intro pid hpid
    rw [start_queue] at hpid
    rcases mem_enqueue hpid with hpid | ⟨p, hp, hready, rfl⟩ | ⟨-, hne⟩
    · simp at hpid
    · exact ⟨p, hp, rfl, hready⟩
    · contradiction

theorem queued_idle (h : Queued run) :
    Queued (idle (fifoOps stale) run.sim []) where
  toProperPids := h.toProperPids
  queue_nodup := by
    rw [idle_queue]
    exact nodup_enqueue List.nodup_nil
  ready := by
    intro pid hpid
    rw [idle_queue] at hpid
    rcases mem_enqueue hpid with hpid | ⟨p, hp, hready, rfl⟩ | ⟨-, hne⟩
    · simp at hpid
    · exact ⟨p, hp, rfl, hready⟩
    · contradiction

/-- Entries behind the served process stay ready when only its record changes. -/
theorem ready_of_rest (h : Queued run) {ptr : Process} {rest : List Int}
    (hqueue : run.queue = ptr.pid :: rest) (hptr : ptr ∈ run.sim.head)
    (f : Process → Process) {t : Int} (ht : run.sim.currentTime ≤ t) {pid : Int}
    (hpid : pid ∈ rest) :
    ∃ p ∈ updateProcess f ptr.pid run.sim.head, p.pid = pid ∧ p.Ready t := by
  obtain ⟨p, hp, rfl, hready⟩ := h.ready pid (by simp [hqueue, hpid])
  have hne : p.pid ≠ ptr.pid := by
    intro heq
    have hnodup := h.queue_nodup
    rw [hqueue, List.nodup_cons] at hnodup
    exact hnodup.1 (heq ▸ hpid)
  refine ⟨p, ?_, rfl, hready.mono ht⟩
  rw [mem_updateProcess h.nodup (findProcess_of_mem h.nodup hptr)]
  exact .inr ⟨hp, hne⟩

theorem queued_finish (h : Queued run) {ptr : Process} {rest : List Int}
    (hqueue : run.queue = ptr.pid :: rest) (hptr : ptr ∈ run.sim.head)
    (hremain : 0 ≤ ptr.remain) : Queued (finish run.sim rest ptr) where
  toProperPids := by
    refine h.toProperPids.of_map_eq ?_
    exact map_updateProcess Process.pid (complete_pid _) _ _
  queue_nodup := by
    have hnodup := h.queue_nodup
    rw [hqueue, List.nodup_cons] at hnodup
    exact hnodup.2
  ready := by
    intro pid hpid
    exact ready_of_rest h hqueue hptr _ (by simpa [finish] using hremain) hpid

theorem queued_requeue (h : Queued run) {ptr : Process} {rest : List Int}
    (hqueue : run.queue = ptr.pid :: rest) (hptr : ptr ∈ run.sim.head)
    (hready : ptr.Ready run.sim.currentTime) (hquantum : 0 ≤ quantum)
    (hlt : quantum < ptr.remain) :
    Queued (requeue (fifoOps stale) quantum run.sim rest ptr) where
  toProperPids := by
    refine h.toProperPids.of_map_eq ?_
    exact map_updateProcess Process.pid (preempt_pid _) _ _
  queue_nodup := by
    have hnodup := h.queue_nodup
    rw [hqueue, List.nodup_cons] at hnodup
    exact nodup_enqueue hnodup.2
  ready := by
    intro pid hpid
    rcases mem_enqueue hpid with hpid | ⟨p, hp, hp', rfl⟩ | ⟨rfl, -⟩
    · exact ready_of_rest h hqueue hptr _ (by simpa [requeue] using hquantum) hpid
    · exact ⟨p, hp, rfl, hp'⟩
    · refine ⟨ptr.preempt quantum, ?_, rfl, ?_, ?_⟩
      · simp only [requeue]
        rw [mem_updateProcess h.nodup (findProcess_of_mem h.nodup hptr)]
        exact .inl rfl
      · have hat := hready.1
        simp only [requeue, preempt_at]
        omega
      · simp only [preempt_remain]
        omega

theorem queued_dispatch (h : Queued run) (hquantum : 0 ≤ quantum) :
    Queued (dispatch (fifoOps stale) quantum run) := by
  rcases dispatch_cases stale quantum h with
    ⟨-, hstep⟩ | ⟨ptr, rest, hqueue, hptr, hready, -, hcase⟩
  · rw [hstep]
    exact queued_idle h
  · rcases hcase with ⟨-, hstep⟩ | ⟨hlt, hstep⟩
    · rw [hstep]
      exact queued_finish h hqueue hptr (Int.le_of_lt hready.2)
    · rw [hstep]
      exact queued_requeue h hqueue hptr hready hquantum hlt

/-! ## The quantum of `sjf` -/

theorem bubblePass_perm (m : Nat) (sorted : List Process) :
    (bubblePass m sorted).Perm sorted := by
  fun_induction bubblePass m sorted with
  | case1 m first second rest hgt ih =>
      exact (ih.cons second).trans (List.Perm.swap first second rest)
  | case2 m first second rest hle ih => exact ih.cons first
  | case3 => exact List.Perm.refl _

theorem bubbleSort_perm (count : Nat) (sorted : List Process) :
    (bubbleSort count sorted).Perm sorted := by
  unfold bubbleSort
  induction List.range (count - 1) generalizing sorted with
  | nil => exact List.Perm.refl _
  | cons j js ih =>
      rw [List.foldl_cons]
      exact (ih _).trans (bubblePass_perm _ sorted)

theorem allProcessesCompleted_iff {head : List Process} :
    allProcessesCompleted head = true ↔ ∀ p ∈ head, p.remain ≤ 0 := by
  simp [allProcessesCompleted]

theorem dynamicTimeQuantum_completed {head : List Process}
    (h : allProcessesCompleted head = true) (timeQuantum : Int) :
    dynamicTimeQuantum head timeQuantum = timeQuantum := by
  have hnil : head.filter (fun temp => decide (temp.remain > 0)) = [] := by
    rw [List.filter_eq_nil_iff]
    intro p hp
    have := allProcessesCompleted_iff.mp h p hp
    simp only [decide_eq_true_eq]
    omega
  simp [dynamicTimeQuantum, hnil, bubbleSort]

theorem exists_remain_eq_dynamicTimeQuantum {head : List Process}
    (h : allProcessesCompleted head = false) (timeQuantum : Int) :
    ∃ p ∈ head, 0 < p.remain ∧
      dynamicTimeQuantum head timeQuantum = p.remain := by
  have hne : head.filter (fun temp => decide (temp.remain > 0)) ≠ [] := by
    intro hnil
    rw [List.filter_eq_nil_iff] at hnil
    have hall : allProcessesCompleted head = true :=
      allProcessesCompleted_iff.mpr fun p hp => by simpa using hnil p hp
    rw [hall] at h
    contradiction
  unfold dynamicTimeQuantum
  generalize hsorted : head.filter (fun temp => decide (temp.remain > 0)) = sorted
    at hne
  have hlen : 0 < sorted.length := List.length_pos_iff.mpr hne
  have hperm := bubbleSort_perm sorted.length sorted
  have hpos : (if 2 * sorted.length / 3 ≥ sorted.length then sorted.length - 1
      else 2 * sorted.length / 3) < (bubbleSort sorted.length sorted).length := by
    rw [hperm.length_eq]
    split <;> omega
  simp only [List.getElem?_eq_getElem hpos]
  have hmem := hperm.mem_iff.mp (List.getElem_mem hpos)
  have hfilter : ∀ p ∈ sorted, p ∈ head ∧ 0 < p.remain := by
    intro p hp
    rw [← hsorted, List.mem_filter] at hp
    exact ⟨hp.1, by simpa using hp.2⟩
  exact ⟨_, (hfilter _ hmem).1, (hfilter _ hmem).2, rfl⟩

theorem dynamicTimeQuantum_pos {head : List Process}
    (h : allProcessesCompleted head = false) (timeQuantum : Int) :
    0 < dynamicTimeQuantum head timeQuantum := by
  obtain ⟨p, -, hpos, heq⟩ := exists_remain_eq_dynamicTimeQuantum h timeQuantum
  exact heq ▸ hpos

/-! ## Runs -/

theorem map_pid_serveLoop {Q : Type} (ops : QueueOps Q) (quantum : Int)
    (run : Run Q) (n : Nat) :
    ((serveLoop ops quantum).state run n).sim.head.map Process.pid =
      run.sim.head.map Process.pid := by
  apply Loop.invariant (serveLoop ops quantum)
    (P := fun t => t.sim.head.map Process.pid = run.sim.head.map Process.pid) rfl
  intro t ht _
  exact (map_dispatch ops quantum Process.pid (fun _ _ => rfl)
    (fun _ _ => rfl) t).trans ht

theorem queued_serveLoop (h : Queued run) (hquantum : 0 ≤ quantum) (n : Nat) :
    Queued ((serveLoop (fifoOps stale) quantum).state run n) :=
  Loop.invariant _ h (fun _ ht _ => queued_dispatch ht hquantum) n

end SyscallSched.Simulators.Mlfqs

/-!
## The loops of `rr` and `sjf` end

The measure counts twice the outstanding work, the time until the last arrival, and one
unit while the queue is empty: an idle tick after the last arrival fills the queue, and
every other iteration serves at least one unit.
-/

namespace SyscallSched.Simulators.Mlfqs

open SyscallSched.Foundation

def lastArrival : List Int → Int
  | [] => 0
  | arrival :: rest => max arrival (lastArrival rest)

theorem le_lastArrival {arrivals : List Int} {a : Int} (ha : a ∈ arrivals) :
    a ≤ lastArrival arrivals := by
  induction arrivals with
  | nil => simp at ha
  | cons b rest ih =>
      rw [lastArrival]
      rcases List.mem_cons.mp ha with rfl | ha
      · exact le_max_left _ _
      · exact (ih ha).trans (le_max_right _ _)

def pending (head : List Process) : Int := (head.map fun p => max p.remain 0).sum

theorem pending_nonneg (head : List Process) : 0 ≤ pending head := by
  apply List.sum_nonneg
  intro r hr
  obtain ⟨p, _, rfl⟩ := List.mem_map.mp hr
  exact le_max_right _ _

def outstanding (run : Run (List Int)) : Nat :=
  2 * (pending run.sim.head).toNat +
    (lastArrival (run.sim.head.map Process.at) - run.sim.currentTime).toNat +
    if run.queue = [] then 1 else 0

variable {stale : Option Int} {quantum : Int} {run : Run (List Int)}

def FreshCell (stale : Option Int) (head : List Process) : Prop :=
  ∀ pid ∈ head.map Process.pid, stale ≠ some pid

theorem freshCell_none (head : List Process) : FreshCell none head := by
  intro pid _
  simp

theorem outstanding_idle (h : Queued run) (hfresh : FreshCell stale run.sim.head)
    (hguard : allProcessesCompleted run.sim.head = false)
    (hnil : run.queue = []) :
    outstanding (idle (fifoOps stale) run.sim []) < outstanding run := by
  have hbound : (if (idle (fifoOps stale) run.sim []).queue = [] then 1 else 0) ≤ 1 := by
    split <;> simp
  unfold outstanding
  rw [if_pos hnil, idle_sim]
  simp only
  by_cases hlate : lastArrival (run.sim.head.map Process.at) ≤ run.sim.currentTime
  · have hready : ∃ p ∈ run.sim.head, 0 < p.remain := by
      by_contra hnone
      have hall : allProcessesCompleted run.sim.head = true := by
        rw [allProcessesCompleted_iff]
        intro p hp
        by_contra hpos
        exact hnone ⟨p, hp, by omega⟩
      rw [hall] at hguard
      contradiction
    obtain ⟨p, hp, hpos⟩ := hready
    have hat : p.at ≤ lastArrival (run.sim.head.map Process.at) :=
      le_lastArrival (List.mem_map_of_mem hp)
    have hne : (idle (fifoOps stale) run.sim []).queue ≠ [] := by
      rw [idle_queue]
      apply List.ne_nil_of_mem
      refine ready_mem_enqueue h.nodup (.inr ?_) hp ⟨by omega, hpos⟩
      intro q hq
      exact hfresh q.pid (List.mem_map_of_mem hq)
    rw [if_neg hne]
    omega
  · omega

theorem outstanding_lt_of_served {run' : Run (List Int)} (units : Int)
    (hpending : pending run'.sim.head = pending run.sim.head - units) (hunits : 1 ≤ units)
    (hat : run'.sim.head.map Process.at = run.sim.head.map Process.at)
    (htime : run.sim.currentTime ≤ run'.sim.currentTime) :
    outstanding run' < outstanding run := by
  have hbound : (if run'.queue = [] then 1 else 0) ≤ 1 := by
    split <;> simp
  have hnonneg := pending_nonneg run'.sim.head
  unfold outstanding
  rw [hat]
  omega

theorem outstanding_dispatch (h : Queued run)
    (hfresh : FreshCell stale run.sim.head) (hquantum : 1 ≤ quantum)
    (hguard : allProcessesCompleted run.sim.head = false) :
    outstanding (dispatch (fifoOps stale) quantum run) < outstanding run := by
  have hat := map_dispatch (fifoOps stale) quantum Process.at
    (fun _ _ => rfl) (fun _ _ => rfl) run
  rcases dispatch_cases stale quantum h with
    ⟨hnil, hstep⟩ | ⟨ptr, rest, hqueue, hptr, hready, hfind, hcase⟩
  · rw [hstep]
    exact outstanding_idle h hfresh hguard hnil
  · have hpos : 0 < ptr.remain := hready.2
    have hmax : max ptr.remain 0 = ptr.remain := max_eq_left hpos.le
    rcases hcase with ⟨hle, hstep⟩ | ⟨hlt, hstep⟩
    · refine outstanding_lt_of_served ptr.remain ?_ ?_ hat ?_
      · rw [hstep, finish_sim]
        simp only [pending]
        rw [sum_updateProcess _ hfind, complete_remain, hmax, max_self]
        ring
      · omega
      · rw [hstep, finish_sim]
        simp only
        omega
    · have hmax' : max (ptr.remain - quantum) 0 = ptr.remain - quantum :=
        max_eq_left (by omega)
      refine outstanding_lt_of_served quantum ?_ hquantum hat ?_
      · rw [hstep, requeue_sim]
        simp only [pending]
        rw [sum_updateProcess _ hfind, preempt_remain, hmax, hmax']
        ring
      · rw [hstep, requeue_sim]
        simp only
        omega

theorem serveLoop_terminates (h : Queued run)
    (hfresh : FreshCell stale run.sim.head) (hquantum : 1 ≤ quantum) :
    (serveLoop (fifoOps stale) quantum).Terminates run := by
  refine Loop.terminates_of_measure _
    (P := fun run => Queued run ∧ FreshCell stale run.sim.head) outstanding
    ?_ ?_ ⟨h, hfresh⟩
  · rintro run ⟨hqueued, hfresh⟩ -
    refine ⟨queued_dispatch hqueued (by omega), ?_⟩
    have hpid := map_dispatch (fifoOps stale) quantum Process.pid
      (fun _ _ => rfl) (fun _ _ => rfl) run
    unfold FreshCell
    simp only [serveLoop, hpid]
    exact hfresh
  · rintro run ⟨hqueued, hfresh⟩ hguard
    exact outstanding_dispatch hqueued hfresh hquantum (by
      simpa using hguard)

end SyscallSched.Simulators.Mlfqs
