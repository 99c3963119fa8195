import SyscallSched.Simulators.Mlfqs.Model

/-!
# The queue as a list of live entries

`enqueue` on live entries appends the ready processes that are not queued, in
list order, and then the preempted process.  The array queue behaves as the
list of its live entries whose membership loop reads `queue[-1]` when the list
is empty, so every run on the array is a run on such lists.
-/

namespace SyscallSched.Simulators.Mlfqs

open SyscallSched.Foundation

/-! ## Appending to the live entries -/

section Enqueue

variable {stale : Option Int} {t pid : Int} {head : List Process}
  {queue : List Int}

theorem add_fifo (stale : Option Int) (queue : List Int) (pid : Int) :
    add (fifoOps stale) queue pid =
      if (queue = [] ∧ stale = some pid) ∨ pid ∈ queue then queue
      else queue ++ [pid] := by
  cases queue with
  | nil => simp [add, fifoOps]
  | cons x xs => simp [add, fifoOps]

theorem subset_add (stale : Option Int) (queue : List Int) (pid : Int) :
    queue <+: add (fifoOps stale) queue pid := by
  rw [add_fifo]
  split
  · exact List.prefix_refl queue
  · exact List.prefix_append queue [pid]

theorem mem_add {x : Int} (h : x ∈ add (fifoOps stale) queue pid) :
    x ∈ queue ∨ x = pid := by
  rw [add_fifo] at h
  split at h
  · exact .inl h
  · simpa using h

theorem nodup_add (h : queue.Nodup) :
    (add (fifoOps stale) queue pid).Nodup := by
  rw [add_fifo]
  split
  · exact h
  · rename_i hnot
    have hpid : pid ∉ queue := fun hmem => hnot (.inr hmem)
    rw [List.nodup_append]
    refine ⟨h, List.nodup_singleton pid, ?_⟩
    intro a ha b hb hab
    rw [List.mem_singleton] at hb
    exact hpid (hb ▸ hab ▸ ha)

theorem add_eq_nil_iff :
    add (fifoOps stale) queue pid = [] ↔ queue = [] ∧ stale = some pid := by
  rw [add_fifo]
  cases queue with
  | nil => by_cases h : stale = some pid <;> simp [h]
  | cons x xs =>
      simp only [reduceCtorEq, false_and, false_or, iff_false]
      split <;> simp

theorem scan_cons (p : Process) (head : List Process) (queue : List Int) :
    scan (fifoOps stale) t (p :: head) queue =
      scan (fifoOps stale) t head
        (if p.Ready t then add (fifoOps stale) queue p.pid else queue) := rfl

/-- The entries of a list queue stay in place when others are appended. -/
theorem subset_scan : queue <+: scan (fifoOps stale) t head queue := by
  induction head generalizing queue with
  | nil => exact List.prefix_refl queue
  | cons p head ih =>
      rw [scan_cons]
      split
      · exact (subset_add stale queue p.pid).trans ih
      · exact ih

theorem mem_scan {x : Int} (h : x ∈ scan (fifoOps stale) t head queue) :
    x ∈ queue ∨ ∃ p ∈ head, p.Ready t ∧ p.pid = x := by
  induction head generalizing queue with
  | nil => exact .inl h
  | cons p head ih =>
      rw [scan_cons] at h
      rcases ih h with hx | ⟨q, hq, hready, rfl⟩
      · by_cases hp : p.Ready t
        · rw [if_pos hp] at hx
          rcases mem_add hx with hx | rfl
          · exact .inl hx
          · exact .inr ⟨p, by simp, hp, rfl⟩
        · rw [if_neg hp] at hx
          exact .inl hx
      · exact .inr ⟨q, by simp [hq], hready, rfl⟩

theorem nodup_scan (h : queue.Nodup) :
    (scan (fifoOps stale) t head queue).Nodup := by
  induction head generalizing queue with
  | nil => exact h
  | cons p head ih =>
      rw [scan_cons]
      split
      · exact ih (nodup_add h)
      · exact ih h

theorem scan_eq_nil_iff :
    scan (fifoOps stale) t head queue = [] ↔
      queue = [] ∧ ∀ p ∈ head, p.Ready t → stale = some p.pid := by
  induction head generalizing queue with
  | nil => simp [scan]
  | cons p head ih =>
      rw [scan_cons, ih]
      by_cases hp : p.Ready t
      · rw [if_pos hp, add_eq_nil_iff]
        simp [hp, and_assoc]
      · rw [if_neg hp]
        simp [hp]

/-- Exactly the ready processes that are not queued are appended, unless the
queue is empty and one of them is the stale cell. -/
theorem scan_eq_append (stale : Option Int) (t : Int)
    (hnodup : (head.map Process.pid).Nodup)
    (hexact : queue ≠ [] ∨ ∀ p ∈ head, stale ≠ some p.pid) :
    scan (fifoOps stale) t head queue =
      queue ++ (head.filter fun p =>
        decide (p.Ready t ∧ p.pid ∉ queue)).map Process.pid := by
  induction head generalizing queue with
  | nil => simp [scan]
  | cons p head ih =>
      rw [List.map_cons, List.nodup_cons] at hnodup
      obtain ⟨hp, hnodup⟩ := hnodup
      rw [scan_cons]
      by_cases hadd : p.Ready t ∧ p.pid ∉ queue
      · obtain ⟨hready, hmem⟩ := hadd
        have hcond : ¬ ((queue = [] ∧ stale = some p.pid) ∨ p.pid ∈ queue) := by
          rintro (⟨hnil, hstale⟩ | hin)
          · rcases hexact with hne | hfresh
            · exact hne hnil
            · exact hfresh p (by simp) hstale
          · exact hmem hin
        rw [if_pos hready, add_fifo, if_neg hcond,
          ih hnodup (.inl (by simp)), List.filter_cons_of_pos (by simp [hready, hmem])]
        have hfilter : head.filter (fun q => decide
              (q.Ready t ∧ q.pid ∉ queue ++ [p.pid])) =
            head.filter (fun q => decide (q.Ready t ∧ q.pid ∉ queue)) := by
          apply List.filter_congr
          intro q hq
          have hne : q.pid ≠ p.pid := fun heq =>
            hp (heq ▸ List.mem_map_of_mem (f := Process.pid) hq)
          simp [hne]
        rw [hfilter]
        simp
      · have hsame : (if p.Ready t then add (fifoOps stale) queue p.pid
            else queue) = queue := by
          by_cases hready : p.Ready t
          · have hin : p.pid ∈ queue := by
              by_contra hmem
              exact hadd ⟨hready, hmem⟩
            rw [if_pos hready, add_fifo, if_pos (.inr hin)]
          · rw [if_neg hready]
        have hexact' : queue ≠ [] ∨ ∀ q ∈ head, stale ≠ some q.pid :=
          hexact.imp id fun h q hq => h q (by simp [hq])
        rw [hsame, ih hnodup hexact', List.filter_cons_of_neg (by simpa using hadd)]

theorem subset_enqueue :
    queue <+: enqueue (fifoOps stale) t head queue pid := by
  unfold enqueue
  split
  · exact subset_scan.trans (subset_add stale _ pid)
  · exact subset_scan

theorem mem_enqueue {x : Int}
    (h : x ∈ enqueue (fifoOps stale) t head queue pid) :
    x ∈ queue ∨ (∃ p ∈ head, p.Ready t ∧ p.pid = x) ∨
      (x = pid ∧ pid ≠ -1) := by
  unfold enqueue at h
  by_cases hpid : pid ≠ -1
  · simp only [if_pos hpid] at h
    rcases mem_add h with hx | rfl
    · exact (mem_scan hx).imp id .inl
    · exact .inr (.inr ⟨rfl, hpid⟩)
  · simp only [if_neg hpid] at h
    exact (mem_scan h).imp id .inl

theorem nodup_enqueue (h : queue.Nodup) :
    (enqueue (fifoOps stale) t head queue pid).Nodup := by
  unfold enqueue
  split
  · exact nodup_add (nodup_scan h)
  · exact nodup_scan h

theorem enqueue_eq_nil_iff :
    enqueue (fifoOps stale) t head queue pid = [] ↔
      queue = [] ∧ (∀ p ∈ head, p.Ready t → stale = some p.pid) ∧
        (pid = -1 ∨ stale = some pid) := by
  unfold enqueue
  by_cases hpid : pid = -1
  · simp [hpid, scan_eq_nil_iff]
  · simp [hpid, add_eq_nil_iff, scan_eq_nil_iff, and_assoc]

theorem ready_mem_enqueue (hnodup : (head.map Process.pid).Nodup)
    (hexact : queue ≠ [] ∨ ∀ p ∈ head, stale ≠ some p.pid) {p : Process}
    (hp : p ∈ head) (hready : p.Ready t) :
    p.pid ∈ enqueue (fifoOps stale) t head queue pid := by
  have hscan : p.pid ∈ scan (fifoOps stale) t head queue := by
    rw [scan_eq_append stale t hnodup hexact, List.mem_append]
    by_cases hq : p.pid ∈ queue
    · exact .inl hq
    · refine .inr (List.mem_map_of_mem ?_)
      simp [hp, hready, hq]
  unfold enqueue
  split
  · exact (subset_add stale _ pid).subset hscan
  · exact hscan

end Enqueue

/-! ## The array queue refines the list queue -/

section Simulation

variable {Q Q' : Type} {ops : QueueOps Q} {ops' : QueueOps Q'}

structure Simulates (ops : QueueOps Q) (ops' : QueueOps Q')
    (R : Q → Q' → Prop) : Prop where
  isInQueue : ∀ {q q'}, R q q' → ∀ pid,
    ops.isInQueue q pid = ops'.isInQueue q' pid
  push : ∀ {q q'}, R q q' → ∀ pid, R (ops.push q pid) (ops'.push q' pid)
  dequeue : ∀ {q q'}, R q q' → (ops.dequeue q).1 = (ops'.dequeue q').1 ∧
    R (ops.dequeue q).2 (ops'.dequeue q').2

variable {R : Q → Q' → Prop}

theorem Simulates.add (h : Simulates ops ops' R) {q : Q} {q' : Q'}
    (hq : R q q') (pid : Int) : R (add ops q pid) (add ops' q' pid) := by
  unfold Mlfqs.add
  rw [h.isInQueue hq pid]
  split
  · exact hq
  · exact h.push hq pid

theorem Simulates.scan (h : Simulates ops ops' R) {q : Q} {q' : Q'}
    (hq : R q q') (t : Int) (head : List Process) :
    R (scan ops t head q) (scan ops' t head q') := by
  induction head generalizing q q' with
  | nil => exact hq
  | cons p head ih =>
      change R (Mlfqs.scan ops t head (if p.Ready t then Mlfqs.add ops q p.pid else q))
        (Mlfqs.scan ops' t head (if p.Ready t then Mlfqs.add ops' q' p.pid else q'))
      apply ih
      split
      · exact h.add hq p.pid
      · exact hq

theorem Simulates.enqueue (h : Simulates ops ops' R) {q : Q} {q' : Q'}
    (hq : R q q') (t : Int) (head : List Process) (pid : Int) :
    R (enqueue ops t head q pid) (enqueue ops' t head q' pid) := by
  unfold Mlfqs.enqueue
  split
  · exact h.add (h.scan hq t head) pid
  · exact h.scan hq t head

/-- The globals and the list agree and the queues are related. -/
def RunsAgree (R : Q → Q' → Prop) (run : Run Q) (run' : Run Q') : Prop :=
  run.sim = run'.sim ∧ R run.queue run'.queue

theorem Simulates.dispatch (h : Simulates ops ops' R) (quantum : Int)
    {run : Run Q} {run' : Run Q'} (hrun : RunsAgree R run run') :
    RunsAgree R (dispatch ops quantum run) (dispatch ops' quantum run') := by
  obtain ⟨sim, q⟩ := run
  obtain ⟨sim', q'⟩ := run'
  obtain ⟨hsim, hq⟩ := hrun
  change sim = sim' at hsim
  subst sim'
  obtain ⟨hpid, hrest⟩ := h.dequeue hq
  cases hd : ops.dequeue q with
  | mk pid rest =>
      cases hd' : ops'.dequeue q' with
      | mk pid' rest' =>
          simp only [hd, hd'] at hpid hrest
          subst pid'
          simp only [Mlfqs.dispatch, hd, hd']
          split
          · refine ⟨rfl, ?_⟩
            rw [idle_queue, idle_queue]
            exact h.enqueue hrest _ _ _
          · cases findProcess sim.head pid with
            | none => exact ⟨rfl, hq⟩
            | some ptr =>
                by_cases hle : ptr.remain ≤ quantum
                · simp only [if_pos hle]
                  exact ⟨rfl, hrest⟩
                · simp only [if_neg hle]
                  exact ⟨rfl, h.enqueue hrest _ _ _⟩

theorem Simulates.serveLoop (h : Simulates ops ops' R) (quantum : Int)
    {run : Run Q} {run' : Run Q'} (hrun : RunsAgree R run run') (n : Nat) :
    RunsAgree R ((serveLoop ops quantum).state run n)
      ((serveLoop ops' quantum).state run' n) := by
  apply Loop.lockstep _ _ _ _ hrun
  · intro s t hst
    rw [serveLoop_guard, serveLoop_guard, hst.1]
  · intro s t hst _
    exact h.dispatch quantum hst

theorem Simulates.start (h : Simulates ops ops' R) (sim : Sim) {q : Q}
    {q' : Q'} (hq : R q q') :
    RunsAgree R (start ops sim q) (start ops' sim q') := by
  refine ⟨rfl, ?_⟩
  rw [start_queue, start_queue]
  exact h.enqueue hq _ _ _

theorem Simulates.returns (h : Simulates ops ops' R) {q : Q} {q' : Q'}
    (hq : R q q') {quantum : Int} {sim sim' : Sim} :
    (∃ run, (Mlfqs.serveLoop ops quantum).Exits (Mlfqs.start ops sim q) run ∧
        run.sim = sim') ↔
      ∃ run, (Mlfqs.serveLoop ops' quantum).Exits (Mlfqs.start ops' sim q') run ∧
        run.sim = sim' := by
  have hstates := h.serveLoop quantum (h.start sim hq)
  constructor
  · rintro ⟨run, ⟨n, rfl, hguard⟩, rfl⟩
    refine ⟨_, ⟨n, rfl, ?_⟩, (hstates n).1.symm⟩
    rwa [serveLoop_guard, ← (hstates n).1]
  · rintro ⟨run, ⟨n, rfl, hguard⟩, rfl⟩
    refine ⟨_, ⟨n, rfl, ?_⟩, (hstates n).1⟩
    rwa [serveLoop_guard, (hstates n).1]

end Simulation

/-- The array queue holds the entries `live` and its cell `-1` is `stale`. -/
def Represents (stale : Int) (queue : Queue) (live : List Int) : Prop :=
  queue.Valid ∧ queue.live = live ∧ queue.cell (-1) = stale

theorem represents_declared (cell : Int → Int) :
    Represents (cell (-1)) (Queue.declared cell) [] :=
  ⟨ArrayQueue.valid_empty cell, rfl, rfl⟩

theorem arrayOps_simulates (stale : Int) :
    Simulates arrayOps (fifoOps (some stale)) (Represents stale) where
  isInQueue := by
    rintro queue live ⟨hvalid, rfl, hstale⟩ pid
    by_cases hnil : queue.live = []
    · simp only [arrayOps, fifoOps, hnil, if_true,
        ArrayQueue.window_of_live_nil hvalid hnil, hstale]
      simp [eq_comm]
    · simp [arrayOps, fifoOps, hnil, ArrayQueue.window_of_live_ne_nil hnil]
  push := by
    rintro queue live ⟨hvalid, rfl, hstale⟩ pid
    refine ⟨ArrayQueue.valid_push hvalid pid, ArrayQueue.live_push hvalid pid, ?_⟩
    exact (ArrayQueue.cell_push_of_neg hvalid pid (by decide)).trans hstale
  dequeue := by
    rintro queue live ⟨hvalid, hlive, hstale⟩
    cases live with
    | nil =>
        have hpop := (ArrayQueue.pop_eq_none_iff hvalid).mpr hlive
        simp only [arrayOps, hpop]
        exact ⟨rfl, hvalid, hlive, hstale⟩
    | cons pid rest =>
        obtain ⟨queue', hpop, hvalid', hlive', hcell, -⟩ :=
          ArrayQueue.pop_of_live_cons hvalid hlive
        simp only [arrayOps, hpop]
        refine ⟨rfl, hvalid', hlive', ?_⟩
        exact (congrFun hcell (-1)).trans hstale

/-! ## A run on the array and the run on its live entries -/

section

variable (quantum : Int) (sim : Sim) (cell : Int → Int) (n : Nat)

theorem arrayRun_agrees : RunsAgree (Represents (cell (-1)))
    ((serveLoop arrayOps quantum).state (start arrayOps sim (Queue.declared cell)) n)
    ((serveLoop (fifoOps (some (cell (-1)))) quantum).state
      (start (fifoOps (some (cell (-1)))) sim []) n) := by
  have hsim := arrayOps_simulates (cell (-1))
  exact hsim.serveLoop quantum (hsim.start sim (represents_declared cell)) n

theorem arrayRun_sim :
    ((serveLoop arrayOps quantum).state (start arrayOps sim (Queue.declared cell)) n).sim =
      ((serveLoop (fifoOps (some (cell (-1)))) quantum).state
        (start (fifoOps (some (cell (-1)))) sim []) n).sim :=
  (arrayRun_agrees quantum sim cell n).1

theorem arrayRun_live :
    ((serveLoop arrayOps quantum).state (start arrayOps sim (Queue.declared cell)) n).queue.live =
      ((serveLoop (fifoOps (some (cell (-1)))) quantum).state
        (start (fifoOps (some (cell (-1)))) sim []) n).queue :=
  (arrayRun_agrees quantum sim cell n).2.2.1

theorem arrayRun_dequeue : (arrayOps.dequeue ((serveLoop arrayOps quantum).state
    (start arrayOps sim (Queue.declared cell)) n).queue).1 =
      ((fifoOps (some (cell (-1)))).dequeue ((serveLoop (fifoOps (some (cell (-1)))) quantum).state
        (start (fifoOps (some (cell (-1)))) sim []) n).queue).1 :=
  ((arrayOps_simulates (cell (-1))).dequeue (arrayRun_agrees quantum sim cell n).2).1

end

end SyscallSched.Simulators.Mlfqs
