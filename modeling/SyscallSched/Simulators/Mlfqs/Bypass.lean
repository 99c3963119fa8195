import SyscallSched.Simulators.Mlfqs.Correctness

/-!
# Bounded bypass in `rr` and `sjf`

A preempted process goes to the back of the queue and the entries ahead of it are
served in order, while everything that is queued later goes behind it.  So what is
served before its next turn are the entries ahead of it, each once.
-/

namespace SyscallSched.Simulators.Mlfqs

open SyscallSched.Foundation

def Serves (loop : Loop (Run (List Int))) (run : Run (List Int)) (n : Nat) (pid : Int) : Prop :=
  loop.guard (loop.state run n) = true ∧ (loop.state run n).queue.head? = some pid

def Idles (loop : Loop (Run (List Int))) (run : Run (List Int)) (n : Nat) : Prop :=
  loop.guard (loop.state run n) = true ∧ (loop.state run n).queue = []

/-- Iterations `i` and `j` serve `pid`, and none between them does. -/
structure Consecutive (loop : Loop (Run (List Int))) (run : Run (List Int)) (pid : Int)
    (i j : Nat) : Prop where
  lt : i < j
  first : Serves loop run i pid
  second : Serves loop run j pid
  between : ∀ k, i < k → k < j → ¬ Serves loop run k pid

/-- The time between two turns runs from the end of the first to the start of the
second. -/
structure BoundedBypass (loop : Loop (Run (List Int))) (run : Run (List Int)) (quantum : Int) :
    Prop where
  nodup : ∀ n, (loop.state run n).queue.Nodup
  busy : ∀ pid i j, Consecutive loop run pid i j → ∀ k, i < k → k < j → ¬ Idles loop run k
  once : ∀ pid i j, Consecutive loop run pid i j → ∀ k k' q, i < k → k < j → i < k' → k' < j →
    Serves loop run k q → Serves loop run k' q → k = k'
  wait : ∀ pid i j, Consecutive loop run pid i j →
    (loop.state run j).sim.currentTime - (loop.state run (i + 1)).sim.currentTime ≤
      ((run.sim.head.length - 1 : Nat) : Int) * quantum

section

variable {stale : Option Int} {quantum : Int} {run : Run (List Int)} {pid : Int}

/-! ## One iteration -/

theorem Queued.active (h : Queued run) (hpid : pid ∈ run.queue) :
    allProcessesCompleted run.sim.head = false := by
  obtain ⟨p, hp, _, hready⟩ := h.ready pid hpid
  cases hdone : allProcessesCompleted run.sim.head with
  | false => rfl
  | true =>
      have hle := allProcessesCompleted_iff.mp hdone p hp
      have hpos := hready.2
      omega

/-- Serving the first entry keeps the others in their order, and takes at most one
quantum. -/
theorem dispatch_rest (stale : Option Int) (quantum : Int) (h : Queued run) {first : Int}
    {rest : List Int}
    (hqueue : run.queue = first :: rest) :
    rest <+: (dispatch (fifoOps stale) quantum run).queue ∧
      (dispatch (fifoOps stale) quantum run).sim.currentTime ≤
        run.sim.currentTime + quantum := by
  rcases dispatch_cases stale quantum h with
    ⟨hnil, _⟩ | ⟨ptr, rest', hqueue', hptr, hready, _, hcase⟩
  · rw [hnil] at hqueue
    cases hqueue
  · rw [hqueue] at hqueue'
    cases hqueue'
    rcases hcase with ⟨hle, hstep⟩ | ⟨_, hstep⟩
    · rw [hstep]
      simp [hle]
    · rw [hstep]
      simp [subset_enqueue]

theorem dispatch_served (hfresh : FreshCell stale run.sim.head) (h : Queued run)
    (hquantum : 0 ≤ quantum) {rest : List Int} (hqueue : run.queue = pid :: rest) :
    pid ∈ (dispatch (fifoOps stale) quantum run).queue ∨
      ∀ p ∈ (dispatch (fifoOps stale) quantum run).sim.head, p.pid = pid → p.remain ≤ 0 := by
  rcases dispatch_cases stale quantum h with
    ⟨hnil, _⟩ | ⟨ptr, rest', hqueue', hptr, hready, hfind, hcase⟩
  · rw [hnil] at hqueue
    cases hqueue
  · rw [hqueue] at hqueue'
    cases hqueue'
    rcases hcase with ⟨hle, hstep⟩ | ⟨hlt, hstep⟩
    · right
      intro p hp hpid
      rw [hstep, finish_sim] at hp
      rcases (mem_updateProcess h.nodup hfind).mp hp with rfl | ⟨_, hne⟩
      · simp
      · exact absurd hpid hne
    · left
      have hpids := map_updateProcess Process.pid (preempt_pid quantum) ptr.pid run.sim.head
      have hmem : ptr.preempt quantum ∈
          updateProcess (Process.preempt quantum) ptr.pid run.sim.head :=
        (mem_updateProcess h.nodup hfind).mpr (Or.inl rfl)
      have hnot : ∀ p ∈ updateProcess (Process.preempt quantum) ptr.pid run.sim.head,
          stale ≠ some p.pid := by
        intro p hp
        apply hfresh
        rw [← hpids]
        exact List.mem_map_of_mem hp
      have hready' : (ptr.preempt quantum).Ready (run.sim.currentTime + quantum) := by
        constructor
        · have hat := hready.1
          simp only [preempt_at]
          omega
        · simp only [preempt_remain]
          omega
      have hnodup : ((updateProcess (Process.preempt quantum) ptr.pid run.sim.head).map
          Process.pid).Nodup := by
        rw [hpids]
        exact h.nodup
      rw [hstep, requeue_queue]
      exact ready_mem_enqueue (p := ptr.preempt quantum) hnodup (Or.inr hnot) hmem hready'

theorem finished_dispatch (stale : Option Int) (quantum : Int) (h : Queued run)
    (hdone : ∀ p ∈ run.sim.head, p.pid = pid → p.remain ≤ 0) :
    ∀ p ∈ (dispatch (fifoOps stale) quantum run).sim.head, p.pid = pid → p.remain ≤ 0 := by
  rcases dispatch_cases stale quantum h with
    ⟨_, hstep⟩ | ⟨ptr, rest, _, hptr, hready, hfind, hcase⟩
  · rw [hstep, idle_sim]
    exact hdone
  · have hne : ptr.pid ≠ pid := by
      intro heq
      have hle := hdone ptr hptr heq
      have hpos := hready.2
      omega
    intro p hp hpid
    rcases hcase with ⟨_, hstep⟩ | ⟨_, hstep⟩
    · rw [hstep, finish_sim] at hp
      rcases (mem_updateProcess h.nodup hfind).mp hp with rfl | ⟨hp, _⟩
      · exact absurd hpid hne
      · exact hdone p hp hpid
    · rw [hstep, requeue_sim] at hp
      rcases (mem_updateProcess h.nodup hfind).mp hp with rfl | ⟨hp, _⟩
      · exact absurd hpid hne
      · exact hdone p hp hpid

/-! ## Runs -/

/-- While `pid` is queued behind `ahead`, the entries of `ahead` are served in order. -/
theorem serve_ahead (stale : Option Int) (h : Queued run) (hquantum : 0 ≤ quantum)
    {ahead behind : List Int} (hqueue : run.queue = ahead ++ pid :: behind) (m : Nat)
    (hm : m ≤ ahead.length) :
    (∃ behind', ((serveLoop (fifoOps stale) quantum).state run m).queue =
        ahead.drop m ++ pid :: behind') ∧
      ((serveLoop (fifoOps stale) quantum).state run m).sim.currentTime ≤
        run.sim.currentTime + m * quantum := by
  induction m with
  | zero =>
      refine ⟨⟨behind, ?_⟩, ?_⟩
      · simpa using hqueue
      · simp
  | succ m ih =>
      obtain ⟨⟨behind', hstate⟩, htime⟩ := ih (by omega)
      have hqueued : Queued ((serveLoop (fifoOps stale) quantum).state run m) :=
        queued_serveLoop h hquantum m
      have hguard : (serveLoop (fifoOps stale) quantum).guard
          ((serveLoop (fifoOps stale) quantum).state run m) = true := by
        have hmem : pid ∈ ((serveLoop (fifoOps stale) quantum).state run m).queue := by
          simp [hstate]
        simp [hqueued.active hmem]
      have hdrop : ahead.drop m = ahead[m] :: ahead.drop (m + 1) :=
        List.drop_eq_getElem_cons (by omega)
      rw [hdrop, List.cons_append] at hstate
      obtain ⟨⟨suffix, hrest⟩, hle⟩ := dispatch_rest stale quantum hqueued hstate
      have hbody : (serveLoop (fifoOps stale) quantum).state run (m + 1) =
          dispatch (fifoOps stale) quantum ((serveLoop (fifoOps stale) quantum).state run m) :=
        Loop.state_succ_of_guard _ hguard
      rw [hbody]
      refine ⟨⟨behind' ++ suffix, ?_⟩, ?_⟩
      · rw [← hrest]
        simp
      · push_cast
        rw [Int.add_mul, Int.one_mul]
        omega

theorem freshCell_serveLoop (h : FreshCell stale run.sim.head) (n : Nat) :
    FreshCell stale ((serveLoop (fifoOps stale) quantum).state run n).sim.head := by
  rw [FreshCell, map_pid_serveLoop]
  exact h

theorem finished_serveLoop (stale : Option Int) (h : Queued run) (hquantum : 0 ≤ quantum)
    (hdone : ∀ p ∈ run.sim.head, p.pid = pid → p.remain ≤ 0) (n : Nat) :
    ∀ p ∈ ((serveLoop (fifoOps stale) quantum).state run n).sim.head, p.pid = pid →
      p.remain ≤ 0 := by
  have hboth := Loop.invariant (serveLoop (fifoOps stale) quantum)
    (P := fun t => Queued t ∧ ∀ p ∈ t.sim.head, p.pid = pid → p.remain ≤ 0)
    ⟨h, hdone⟩
    (fun t ht _ => ⟨queued_dispatch ht.1 hquantum, finished_dispatch stale quantum ht.1 ht.2⟩) n
  exact hboth.2

/-- The first turn ends with the process in the queue behind `ahead`, and the second one
comes when all of `ahead` were served. -/
theorem consecutive_ahead (hfresh : FreshCell stale run.sim.head) (h : Queued run)
    (hquantum : 0 ≤ quantum) {i j : Nat}
    (hturns : Consecutive (serveLoop (fifoOps stale) quantum) run pid i j) :
    ∃ ahead behind, ((serveLoop (fifoOps stale) quantum).state run (i + 1)).queue =
      ahead ++ pid :: behind ∧ j = i + 1 + ahead.length := by
  have hqueued : ∀ n, Queued ((serveLoop (fifoOps stale) quantum).state run n) :=
    queued_serveLoop h hquantum
  obtain ⟨hguard, hhead⟩ := hturns.first
  obtain ⟨rest, hqueue⟩ := List.head?_eq_some_iff.mp hhead
  have hbody : (serveLoop (fifoOps stale) quantum).state run (i + 1) =
      dispatch (fifoOps stale) quantum ((serveLoop (fifoOps stale) quantum).state run i) :=
    Loop.state_succ_of_guard _ hguard
  have hlater : ∀ n, (serveLoop (fifoOps stale) quantum).state run (i + 1 + n) =
      (serveLoop (fifoOps stale) quantum).state
        ((serveLoop (fifoOps stale) quantum).state run (i + 1)) n := Loop.state_add _ run (i + 1)
  obtain ⟨d, rfl⟩ : ∃ d, j = i + 1 + d := ⟨j - (i + 1), by have hlt := hturns.lt; omega⟩
  rcases dispatch_served (freshCell_serveLoop hfresh i) (hqueued i) hquantum hqueue with
    hmem | hdone
  · rw [← hbody] at hmem
    obtain ⟨ahead, behind, hsplit⟩ := List.append_of_mem hmem
    refine ⟨ahead, behind, hsplit, ?_⟩
    have hahead := fun m hm => (serve_ahead stale (hqueued (i + 1)) hquantum hsplit m hm).1
    have hnodup := (hqueued (i + 1)).queue_nodup
    rw [hsplit] at hnodup
    have hnot : pid ∉ ahead := fun hin =>
      (List.nodup_append.mp hnodup).2.2 pid hin pid (by simp) rfl
    by_contra hne
    rcases Nat.lt_or_ge d ahead.length with hlt | hge
    · obtain ⟨behind', hstate⟩ := hahead d (by omega)
      have hsecond := hturns.second.2
      rw [hlater, hstate, List.drop_eq_getElem_cons hlt] at hsecond
      simp only [List.cons_append, List.head?_cons, Option.some.injEq] at hsecond
      exact hnot (hsecond ▸ List.getElem_mem hlt)
    · obtain ⟨behind', hstate⟩ := hahead ahead.length (Nat.le_refl _)
      apply hturns.between (i + 1 + ahead.length) (by omega) (by omega)
      rw [List.drop_length, List.nil_append] at hstate
      rw [← hlater] at hstate
      have hmem' : pid ∈ ((serveLoop (fifoOps stale) quantum).state run
          (i + 1 + ahead.length)).queue := by simp [hstate]
      constructor
      · simp [(hqueued _).active hmem']
      · rw [hstate]
        rfl
  · rw [← hbody] at hdone
    have hlast := finished_serveLoop stale (hqueued (i + 1)) hquantum hdone d
    rw [← hlater] at hlast
    have hin : pid ∈ ((serveLoop (fifoOps stale) quantum).state run (i + 1 + d)).queue :=
      List.mem_of_mem_head? hturns.second.2
    obtain ⟨p, hp, hpid, hready⟩ := (hqueued (i + 1 + d)).ready pid hin
    have hle := hlast p hp hpid
    have hpos := hready.2
    omega

/-- What is served between the two turns are the entries ahead. -/
theorem serves_between (hfresh : FreshCell stale run.sim.head) (h : Queued run)
    (hquantum : 0 ≤ quantum) {i j : Nat}
    (hturns : Consecutive (serveLoop (fifoOps stale) quantum) run pid i j) :
    ∃ ahead : List Int, (ahead ++ [pid]).Nodup ∧ j = i + 1 + ahead.length ∧
      (∀ q ∈ ahead ++ [pid], q ∈ run.sim.head.map Process.pid) ∧
      (∀ m (hm : m < ahead.length),
        ((serveLoop (fifoOps stale) quantum).state run (i + 1 + m)).queue.head? =
          some ahead[m]) ∧
      ((serveLoop (fifoOps stale) quantum).state run j).sim.currentTime ≤
        ((serveLoop (fifoOps stale) quantum).state run (i + 1)).sim.currentTime +
          ahead.length * quantum := by
  have hqueued : Queued ((serveLoop (fifoOps stale) quantum).state run (i + 1)) :=
    queued_serveLoop h hquantum (i + 1)
  obtain ⟨ahead, behind, hsplit, hj⟩ := consecutive_ahead hfresh h hquantum hturns
  have hnodup := hqueued.queue_nodup
  have hsplit' : ahead ++ pid :: behind = (ahead ++ [pid]) ++ behind := by simp
  rw [hsplit, hsplit'] at hnodup
  refine ⟨ahead, (List.nodup_append.mp hnodup).1, hj, ?_, ?_, ?_⟩
  · intro q hq
    have hmem : q ∈ ((serveLoop (fifoOps stale) quantum).state run (i + 1)).queue := by
      rw [hsplit, hsplit']
      exact List.mem_append_left behind hq
    obtain ⟨p, hp, rfl, _⟩ := hqueued.ready q hmem
    rw [← map_pid_serveLoop (fifoOps stale) quantum run (i + 1)]
    exact List.mem_map_of_mem hp
  · intro m hm
    obtain ⟨behind', hstate⟩ := (serve_ahead stale hqueued hquantum hsplit m (by omega)).1
    rw [Loop.state_add, hstate, List.drop_eq_getElem_cons hm]
    rfl
  · have htime := (serve_ahead stale hqueued hquantum hsplit ahead.length (Nat.le_refl _)).2
    rw [hj, Loop.state_add]
    exact htime

theorem boundedBypass_serveLoop (hfresh : FreshCell stale run.sim.head) (h : Queued run)
    (hquantum : 0 ≤ quantum) :
    BoundedBypass (serveLoop (fifoOps stale) quantum) run quantum := by
  constructor
  case nodup =>
    intro n
    have hqueued : Queued ((serveLoop (fifoOps stale) quantum).state run n) :=
      queued_serveLoop h hquantum n
    exact hqueued.queue_nodup
  case busy =>
    intro pid i j hturns k hik hkj hidle
    obtain ⟨ahead, _, hj, _, hserved, _⟩ := serves_between hfresh h hquantum hturns
    obtain ⟨m, rfl⟩ : ∃ m, k = i + 1 + m := ⟨k - (i + 1), by omega⟩
    have hhead := hserved m (by omega)
    rw [hidle.2] at hhead
    cases hhead
  case once =>
    intro pid i j hturns k k' q hik hkj hik' hkj' hk hk'
    obtain ⟨ahead, hnodup, hj, _, hserved, _⟩ := serves_between hfresh h hquantum hturns
    obtain ⟨m, rfl⟩ : ∃ m, k = i + 1 + m := ⟨k - (i + 1), by omega⟩
    obtain ⟨m', rfl⟩ : ∃ m', k' = i + 1 + m' := ⟨k' - (i + 1), by omega⟩
    have hm : m < ahead.length := by omega
    have hm' : m' < ahead.length := by omega
    have hq := hk.2
    have hq' := hk'.2
    rw [hserved m hm, Option.some.injEq] at hq
    rw [hserved m' hm', Option.some.injEq] at hq'
    have hsame : m = m' :=
      ((List.nodup_append.mp hnodup).1.getElem_inj_iff).mp (hq.trans hq'.symm)
    rw [hsame]
  case wait =>
    intro pid i j hturns
    obtain ⟨ahead, hnodup, _, hmem, _, htime⟩ := serves_between hfresh h hquantum hturns
    have hlength : (ahead ++ [pid]).length ≤ (run.sim.head.map Process.pid).length :=
      (List.subperm_of_subset hnodup hmem).length_le
    simp only [List.length_append, List.length_singleton, List.length_map] at hlength
    have hcast : (ahead.length : Int) ≤ ((run.sim.head.length - 1 : Nat) : Int) := by omega
    have hbound := Int.mul_le_mul_of_nonneg_right hcast hquantum
    omega

theorem boundedBypass_of_completed {loop : Loop (Run (List Int))}
    (hguard : loop.guard run = false) (h : run.queue.Nodup) :
    BoundedBypass loop run quantum := by
  have hnone : ∀ pid i j, ¬ Consecutive loop run pid i j := by
    intro pid i j hturns
    have hfirst := hturns.first.1
    rw [loop.state_of_not_guard hguard, hguard] at hfirst
    cases hfirst
  constructor
  case nodup =>
    intro n
    rw [loop.state_of_not_guard hguard]
    exact h
  case busy =>
    intro pid i j hturns
    exact absurd hturns (hnone pid i j)
  case once =>
    intro pid i j hturns
    exact absurd hturns (hnone pid i j)
  case wait =>
    intro pid i j hturns
    exact absurd hturns (hnone pid i j)

theorem BoundedBypass.congr {loop loop' : Loop (Run (List Int))}
    (h : BoundedBypass loop run quantum) (hstate : loop'.state run = loop.state run)
    (hguard : loop'.guard = loop.guard) : BoundedBypass loop' run quantum := by
  have hserves : Serves loop' run = Serves loop run := by
    funext n pid
    simp only [Serves, hstate, hguard]
  have hturns : ∀ {pid i j}, Consecutive loop' run pid i j → Consecutive loop run pid i j := by
    intro pid i j hpair
    constructor
    case lt => exact hpair.lt
    case first => exact hserves ▸ hpair.first
    case second => exact hserves ▸ hpair.second
    case between => exact hserves ▸ hpair.between
  constructor
  case nodup =>
    rw [hstate]
    exact h.nodup
  case busy =>
    intro pid i j hpair k hik hkj hidle
    apply h.busy pid i j (hturns hpair) k hik hkj
    rw [Idles, ← hstate, ← hguard]
    exact hidle
  case once =>
    intro pid i j hpair
    rw [hserves]
    exact h.once pid i j (hturns hpair)
  case wait =>
    intro pid i j hpair
    rw [hstate]
    exact h.wait pid i j (hturns hpair)

end

/-- Between two turns of a process every other process has at most one and the
processor does not idle. -/
theorem rr_sjf_boundedBypass (sim : Sim) (hpids : ProperPids sim.head) :
    BoundedBypass (rrLoop (fifoOps none)) (rrStart (fifoOps none) sim []) timeQuantumRr ∧
      BoundedBypass (sjfLoop (fifoOps none)) (sjfStart (fifoOps none) sim [])
        (dynamicTimeQuantum sim.head sim.timeQuantumSjf) := by
  constructor
  · exact boundedBypass_serveLoop (freshCell_none _) (queued_start hpids) (by decide)
  · have hqueued : Queued (sjfStart (fifoOps none) sim []) := by
      rw [sjfStart_eq]
      exact queued_start hpids
    cases hdone : allProcessesCompleted sim.head with
    | true =>
        apply boundedBypass_of_completed _ hqueued.queue_nodup
        simp [sjfLoop, sjfStart, hdone]
    | false =>
        have hquantum := Int.le_of_lt (dynamicTimeQuantum_pos hdone sim.timeQuantumSjf)
        have hserve := boundedBypass_serveLoop (freshCell_none _) hqueued hquantum
        apply hserve.congr
        · funext n
          exact sjfLoop_state (fifoOps none) _ n
        · rfl

theorem rr_sjf_boundedBypass_three :
    let sim := Sim.init (assignProcessors 1
      (createProcesses (-1) [⟨1, 0, 5⟩, ⟨2, 1, 3⟩, ⟨3, 1, 2⟩]))
    Consecutive (rrLoop (fifoOps none)) (rrStart (fifoOps none) sim []) 1 0 1 ∧
      BoundedBypass (rrLoop (fifoOps none)) (rrStart (fifoOps none) sim []) timeQuantumRr := by
  intro sim
  have hpids : ProperPids sim.head := properPids_input 1 (-1) (by decide) (by decide)
  refine ⟨?_, (rr_sjf_boundedBypass sim hpids).1⟩
  constructor
  case lt => decide
  case first => exact ⟨by decide, by decide⟩
  case second => exact ⟨by decide, by decide⟩
  case between =>
    intro k hlt hgt
    omega

end SyscallSched.Simulators.Mlfqs
