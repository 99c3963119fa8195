import SyscallSched.Simulators.Mlfqs.Bypass
import SyscallSched.Simulators.Mlfqs.FirstTurn

/-!
# When `sjf` serves the shortest process

The queue is first in, first out, and nothing compares remaining times.  A process that
stands behind a longer one, or that has arrived unseen while a longer one is queued,
stays unserved until the longer one is dispatched.  So all dispatches of a run are of
shortest processes exactly when every iteration keeps the queue in order.
-/

namespace SyscallSched.Simulators.Mlfqs

open SyscallSched.Foundation

def remaining (head : List Process) (pid : Int) : Int :=
  ((findProcess head pid).map Process.remain).getD 0

def ServesShortest {Q : Type} (ops : QueueOps Q) (loop : Loop (Run Q)) (run : Run Q) : Prop :=
  ∀ n, loop.guard (loop.state run n) = true → ∀ ptr ∈ (loop.state run n).sim.head,
    nextPid ops (loop.state run n) = ptr.pid → ∀ q ∈ (loop.state run n).sim.head,
      q.Ready (loop.state run n).sim.currentTime → ptr.remain ≤ q.remain

def waiting (t : Int) (head : List Process) (queue : List Int) : List Process :=
  head.filter fun p => decide (p.Ready t ∧ p.pid ∉ queue)

/-- The waiting processes in the order in which they join.  On an empty queue a first one
whose pid is the stale cell is passed over and comes last. -/
def joinOrder (stale : Option Int) (queue : List Int) : List Process → List Process
  | [] => []
  | p :: rest => if queue = [] ∧ stale = some p.pid then rest ++ [p] else p :: rest

/-- What a call of `enqueue` for the ready process `pid` appends when `ps` waits: on an empty
queue the scan passes over a first process whose pid is the stale cell. -/
def appended (stale : Option Int) (queue : List Int) (pid : Int) : List Process → List Int
  | [] => []
  | first :: others =>
      if queue = [] ∧ stale = some first.pid then
        others.map Process.pid ++ if first.pid = pid ∧ others ≠ [] then [pid] else []
      else (first :: others).map Process.pid

/-- Those that wait are no shorter than the queued ones and join in order. -/
def JoinsInOrder (stale : Option Int) (t : Int) (head : List Process) (queue : List Int) :
    Prop :=
  (∀ pid ∈ queue, ∀ p ∈ waiting t head queue, remaining head pid ≤ p.remain) ∧
    SortedByRemain (joinOrder stale queue (waiting t head queue))

instance (stale : Option Int) (t : Int) (head : List Process) (queue : List Int) :
    Decidable (JoinsInOrder stale t head queue) :=
  inferInstanceAs (Decidable (_ ∧ _))

/-- A condition on the state before an iteration.  An idle tick and a preemption let the
waiting processes join in order; a completion, which does not look for arrivals, leaves no
arrived process that is shorter than a queued one. -/
def KeepsOrder (stale : Option Int) (quantum : Int) (sim : Sim) : List Int → Prop
  | [] => JoinsInOrder stale (sim.currentTime + 1) sim.head []
  | pid :: rest => ∀ ptr ∈ sim.head, ptr.pid = pid →
      (ptr.remain ≤ quantum → ∀ q ∈ sim.head, q.pid ≠ pid → q.pid ∉ rest →
        q.Ready (sim.currentTime + ptr.remain) → ∀ a ∈ rest,
          remaining sim.head a ≤ q.remain) ∧
      (quantum < ptr.remain → JoinsInOrder stale (sim.currentTime + quantum)
        (updateProcess (Process.preempt quantum) pid sim.head) rest)

instance (stale : Option Int) (quantum : Int) (sim : Sim) :
    (queue : List Int) → Decidable (KeepsOrder stale quantum sim queue)
  | [] => inferInstanceAs (Decidable (JoinsInOrder _ _ _ _))
  | _ :: _ => inferInstanceAs (Decidable (∀ ptr ∈ sim.head, _))

structure InOrder (t : Int) (head : List Process) (queue : List Int) : Prop where
  sorted : queue.Pairwise fun a b => remaining head a ≤ remaining head b
  unseen : ∀ a ∈ queue, ∀ q ∈ head, q.Ready t → q.pid ∉ queue → remaining head a ≤ q.remain

variable {stale : Option Int} {quantum t : Int} {run : Run (List Int)} {head : List Process}
  {queue : List Int} {p : Process}

theorem remaining_of_mem (hnodup : (head.map Process.pid).Nodup) (hp : p ∈ head) :
    remaining head p.pid = p.remain := by
  simp [remaining, findProcess_of_mem hnodup hp]

theorem remaining_updateProcess {f : Process → Process} (hf : ∀ p, (f p).pid = p.pid)
    {pid a : Int} (hne : a ≠ pid) :
    remaining (updateProcess f pid head) a = remaining head a := by
  simp [remaining, findProcess_updateProcess hf, hne]

theorem mem_waiting {queue : List Int} :
    p ∈ waiting t head queue ↔ p ∈ head ∧ p.Ready t ∧ p.pid ∉ queue := by
  simp [waiting]

/-! ## What a call of `enqueue` appends -/

theorem scan_nil (stale : Option Int) (t : Int) (hnodup : (head.map Process.pid).Nodup) :
    (waiting t head [] = [] ∧ scan (fifoOps stale) t head [] = []) ∨
    ∃ first rest, waiting t head [] = first :: rest ∧ scan (fifoOps stale) t head [] =
      (if stale = some first.pid then rest else first :: rest).map Process.pid := by
  induction head with
  | nil => exact .inl ⟨rfl, rfl⟩
  | cons p head ih =>
      have hnodup' := hnodup
      rw [List.map_cons, List.nodup_cons] at hnodup'
      obtain ⟨hp, hrest⟩ := hnodup'
      cases hready : decide (p.Ready t) with
      | false =>
          have hnot : ¬ p.Ready t := of_decide_eq_false hready
          have hsame : waiting t (p :: head) [] = waiting t head [] := by
            simp [waiting, hnot]
          rw [scan_cons, if_neg hnot, hsame]
          exact ih hrest
      | true =>
          have hyes : p.Ready t := of_decide_eq_true hready
          have hcons : waiting t (p :: head) [] = p :: waiting t head [] := by
            simp [waiting, hyes]
          refine .inr ⟨p, waiting t head [], hcons, ?_⟩
          rw [scan_cons, if_pos hyes, add_fifo]
          cases hstale : decide (stale = some p.pid) with
          | true =>
              have heq : stale = some p.pid := of_decide_eq_true hstale
              rw [if_pos (.inl ⟨rfl, heq⟩), if_pos heq, scan_eq_append stale t hrest]
              · simp [waiting]
              · right
                intro q hq hsame
                rw [heq] at hsame
                exact hp (Option.some.inj hsame ▸ List.mem_map_of_mem (f := Process.pid) hq)
          | false =>
              have hne : stale ≠ some p.pid := of_decide_eq_false hstale
              rw [if_neg (by simp [hne]), if_neg hne, scan_eq_append stale t hrest (.inl (by simp))]
              have hfilter : head.filter (fun q => decide (q.Ready t ∧ q.pid ∉ [] ++ [p.pid])) =
                  waiting t head [] := by
                apply List.filter_congr
                intro q hq
                have hqp : q.pid ≠ p.pid := fun heq =>
                  hp (heq ▸ List.mem_map_of_mem (f := Process.pid) hq)
                simp [hqp]
              rw [hfilter]
              rfl

theorem enqueue_of_mem {queue : List Int} {pid : Int}
    (h : pid = -1 ∨ pid ∈ scan (fifoOps stale) t head queue) :
    enqueue (fifoOps stale) t head queue pid = scan (fifoOps stale) t head queue := by
  unfold enqueue
  split
  case isTrue hne => rw [add_fifo, if_pos (.inr (h.resolve_left hne))]
  case isFalse => rfl

theorem appended_of_visible {ps : List Process} (pid : Int)
    (h : queue ≠ [] ∨ ∀ p ∈ ps, stale ≠ some p.pid) :
    appended stale queue pid ps = ps.map Process.pid := by
  cases ps with
  | nil => rfl
  | cons first others =>
      rw [appended, if_neg]
      rintro ⟨hnil, hstale⟩
      rcases h with hne | hfresh
      · exact hne hnil
      · exact hfresh first (by simp) hstale

theorem nodup_waiting (hnodup : (head.map Process.pid).Nodup) (t : Int) (queue : List Int) :
    ((waiting t head queue).map Process.pid).Nodup := by
  have hsub : (waiting t head queue).Sublist head := List.filter_sublist
  exact (hsub.map Process.pid).nodup hnodup

theorem enqueue_eq_append (stale : Option Int) (hnodup : (head.map Process.pid).Nodup)
    (queue : List Int) (hp : p ∈ head) (hready : p.Ready t) (hne : p.pid ≠ -1) :
    enqueue (fifoOps stale) t head queue p.pid =
      queue ++ appended stale queue p.pid (waiting t head queue) := by
  have hjoins : ∀ {new : List Int}, scan (fifoOps stale) t head queue = queue ++ new →
      (p.pid ∉ queue → p.pid ∈ new) →
        enqueue (fifoOps stale) t head queue p.pid = queue ++ new := by
    intro new hscan hmem
    rw [enqueue_of_mem, hscan]
    right
    rw [hscan, List.mem_append]
    cases hq : decide (p.pid ∈ queue) with
    | true => exact .inl (of_decide_eq_true hq)
    | false => exact .inr (hmem (of_decide_eq_false hq))
  have hwaits : p.pid ∉ queue → p ∈ waiting t head queue :=
    fun hnot => mem_waiting.mpr ⟨hp, hready, hnot⟩
  cases queue with
  | cons q qs =>
      rw [appended_of_visible p.pid (.inl (by simp))]
      exact hjoins (scan_eq_append stale t hnodup (.inl (by simp)))
        fun hnot => List.mem_map_of_mem (hwaits hnot)
  | nil =>
      have hwait := hwaits (by simp)
      have hdistinct := nodup_waiting hnodup t []
      rcases scan_nil stale t hnodup with ⟨hnone, _⟩ | ⟨first, others, hcons, hscan⟩
      · rw [hnone] at hwait
        cases hwait
      · rw [hcons, List.map_cons, List.nodup_cons] at hdistinct
        rw [hcons] at hwait ⊢
        cases hstale : decide (stale = some first.pid) with
        | false =>
            have hvisible := of_decide_eq_false hstale
            rw [if_neg hvisible] at hscan
            rw [appended, if_neg (by simp [hvisible])]
            exact hjoins hscan fun _ => List.mem_map_of_mem hwait
        | true =>
            have hhidden := of_decide_eq_true hstale
            rw [if_pos hhidden] at hscan
            rw [appended, if_pos ⟨rfl, hhidden⟩, List.nil_append]
            cases List.mem_cons.mp hwait with
            | inr hmem =>
                have hother : ¬ (first.pid = p.pid ∧ others ≠ []) := by
                  rintro ⟨heq, _⟩
                  exact hdistinct.1 (heq ▸ List.mem_map_of_mem hmem)
                rw [if_neg hother, List.append_nil]
                exact hjoins (by simpa using hscan) fun _ => List.mem_map_of_mem hmem
            | inl heq =>
                subst heq
                -- the scan has passed over `p`, so the last block of `enqueue` looks for it
                unfold enqueue
                rw [hscan]
                simp only [ne_eq, hne, not_false_eq_true, if_true, add_fifo]
                cases others with
                | nil => simp [hhidden]
                | cons second others =>
                    rw [if_neg]
                    · simp
                    · rintro (⟨hnil, _⟩ | hmem)
                      · cases hnil
                      · exact hdistinct.1 hmem

theorem scan_joins (stale : Option Int) (t : Int) (hnodup : (head.map Process.pid).Nodup)
    (queue : List Int) :
    scan (fifoOps stale) t head queue =
        queue ++ (joinOrder stale queue (waiting t head queue)).map Process.pid ∨
      queue = [] ∧ ∃ new last, joinOrder stale [] (waiting t head []) = new ++ [last] ∧
        scan (fifoOps stale) t head [] = new.map Process.pid := by
  cases queue with
  | cons q qs =>
      have horder : joinOrder stale (q :: qs) (waiting t head (q :: qs)) =
          waiting t head (q :: qs) := by
        cases waiting t head (q :: qs) <;> simp [joinOrder]
      rw [horder]
      exact .inl (scan_eq_append stale t hnodup (.inl (by simp)))
  | nil =>
      rcases scan_nil stale t hnodup with ⟨hnone, hscan⟩ | ⟨first, rest, hcons, hscan⟩
      · rw [hscan, hnone]
        exact .inl rfl
      · rw [hcons, hscan, joinOrder]
        cases hstale : decide (stale = some first.pid) with
        | true =>
            have heq := of_decide_eq_true hstale
            rw [if_pos heq, if_pos ⟨rfl, heq⟩]
            exact .inr ⟨rfl, rest, first, rfl, rfl⟩
        | false =>
            have hne := of_decide_eq_false hstale
            rw [if_neg hne, if_neg fun h => hne h.2]
            exact .inl rfl

theorem appended_joins (stale : Option Int) (queue : List Int) (pid : Int) (ps : List Process) :
    appended stale queue pid ps = (joinOrder stale queue ps).map Process.pid ∨
      queue = [] ∧ ∃ new last, joinOrder stale [] ps = new ++ [last] ∧
        appended stale [] pid ps = new.map Process.pid := by
  cases ps with
  | nil => exact .inl rfl
  | cons first others =>
      cases hhidden : decide (queue = [] ∧ stale = some first.pid) with
      | false =>
          have hvisible := of_decide_eq_false hhidden
          rw [appended, joinOrder, if_neg hvisible, if_neg hvisible]
          exact .inl rfl
      | true =>
          have hboth := of_decide_eq_true hhidden
          obtain ⟨rfl, -⟩ := id hboth
          rw [appended, joinOrder, if_pos hboth, if_pos hboth]
          cases hself : decide (first.pid = pid ∧ others ≠ []) with
          | true =>
              have hlast := of_decide_eq_true hself
              rw [if_pos hlast, List.map_append, ← hlast.1]
              exact .inl rfl
          | false =>
              rw [if_neg (of_decide_eq_false hself), List.append_nil]
              exact .inr ⟨rfl, others, first, rfl, rfl⟩

/-- A call of `enqueue` appends the waiting processes in the order of `joinOrder`, the last
one possibly left out when the queue was empty. -/
theorem enqueue_joins (stale : Option Int) (hnodup : (head.map Process.pid).Nodup)
    (queue : List Int) {pid : Int}
    (hpid : pid = -1 ∨ ∃ p ∈ head, p.Ready t ∧ p.pid = pid) :
    enqueue (fifoOps stale) t head queue pid =
        queue ++ (joinOrder stale queue (waiting t head queue)).map Process.pid ∨
      queue = [] ∧ ∃ new last, joinOrder stale [] (waiting t head []) = new ++ [last] ∧
        enqueue (fifoOps stale) t head [] pid = new.map Process.pid := by
  cases hsentinel : decide (pid = -1) with
  | true =>
      have hskip := of_decide_eq_true hsentinel
      rw [enqueue_of_mem (.inl hskip), enqueue_of_mem (.inl hskip)]
      exact scan_joins stale t hnodup queue
  | false =>
      have hne := of_decide_eq_false hsentinel
      obtain ⟨p, hp, hready, rfl⟩ := hpid.resolve_left hne
      rw [enqueue_eq_append stale hnodup queue hp hready hne,
        enqueue_eq_append stale hnodup [] hp hready hne, List.nil_append,
        List.append_cancel_left_eq]
      rcases appended_joins stale queue p.pid (waiting t head queue) with h | ⟨rfl, h⟩
      · exact .inl h
      · exact .inr ⟨rfl, h⟩

theorem joinOrder_perm (stale : Option Int) (queue : List Int) (ps : List Process) :
    (joinOrder stale queue ps).Perm ps := by
  cases ps with
  | nil => exact .refl _
  | cons p rest =>
      rw [joinOrder]
      split
      · exact List.perm_append_singleton p rest
      · exact .refl _

/-! ## The order after a call of `enqueue` -/

theorem pairwise_remaining_iff (hnodup : (head.map Process.pid).Nodup) {ps : List Process}
    (hps : ∀ p ∈ ps, p ∈ head) :
    ((ps.map Process.pid).Pairwise fun a b => remaining head a ≤ remaining head b) ↔
      SortedByRemain ps := by
  rw [List.pairwise_map, SortedByRemain]
  apply List.Pairwise.iff_of_mem
  intro p q hp hq
  rw [remaining_of_mem hnodup (hps p hp), remaining_of_mem hnodup (hps q hq)]

theorem inOrder_enqueue_iff (stale : Option Int) (hnodup : (head.map Process.pid).Nodup)
    {queue : List Int} {pid : Int} (hpid : pid = -1 ∨ ∃ p ∈ head, p.Ready t ∧ p.pid = pid) :
    InOrder t head (enqueue (fifoOps stale) t head queue pid) ↔
      (queue.Pairwise fun a b => remaining head a ≤ remaining head b) ∧
        JoinsInOrder stale t head queue := by
  have hperm := joinOrder_perm stale queue (waiting t head queue)
  have hhead : ∀ p ∈ joinOrder stale queue (waiting t head queue), p ∈ head := by
    intro p hp
    exact (mem_waiting.mp (hperm.subset hp)).1
  rcases enqueue_joins stale hnodup queue hpid with
    hqueue | ⟨rfl, new, last, horder, hqueue⟩
  · rw [hqueue]
    have hcross : (∀ a ∈ queue, ∀ b ∈ (joinOrder stale queue (waiting t head queue)).map
          Process.pid, remaining head a ≤ remaining head b) ↔
        ∀ a ∈ queue, ∀ p ∈ waiting t head queue, remaining head a ≤ p.remain := by
      constructor
      · intro h a ha p hp
        rw [← remaining_of_mem hnodup (mem_waiting.mp hp).1]
        exact h a ha _ (List.mem_map_of_mem (hperm.symm.subset hp))
      · intro h a ha b hb
        obtain ⟨p, hp, rfl⟩ := List.mem_map.mp hb
        rw [remaining_of_mem hnodup (hhead p hp)]
        exact h a ha p (hperm.subset hp)
    have hunseen : ∀ a ∈ queue ++ (joinOrder stale queue (waiting t head queue)).map Process.pid,
        ∀ q ∈ head, q.Ready t →
          q.pid ∉ queue ++ (joinOrder stale queue (waiting t head queue)).map Process.pid →
          remaining head a ≤ q.remain := by
      intro a _ q hq hready hnot
      rw [List.mem_append] at hnot
      refine absurd (.inr (List.mem_map_of_mem (hperm.symm.subset ?_))) hnot
      exact mem_waiting.mpr ⟨hq, hready, fun h => hnot (.inl h)⟩
    constructor
    · rintro ⟨hsorted, _⟩
      obtain ⟨hfront, hback, hmid⟩ := List.pairwise_append.mp hsorted
      exact ⟨hfront, hcross.mp hmid, (pairwise_remaining_iff hnodup hhead).mp hback⟩
    · rintro ⟨hfront, hmid, hback⟩
      refine ⟨List.pairwise_append.mpr ⟨hfront, ?_, hcross.mpr hmid⟩, hunseen⟩
      exact (pairwise_remaining_iff hnodup hhead).mpr hback
  · rw [horder] at hperm hhead
    have hnew : ∀ p ∈ new, p ∈ head := fun p hp => hhead p (by simp [hp])
    have hlast : last ∈ waiting t head [] := hperm.subset (by simp)
    obtain ⟨hlasthead, hready, _⟩ := mem_waiting.mp hlast
    have hfresh : last.pid ∉ new.map Process.pid := by
      have hsub : (waiting t head []).Sublist head := List.filter_sublist
      have hdistinct := (hperm.map Process.pid).nodup_iff.mpr
        ((hsub.map Process.pid).nodup hnodup)
      rw [List.map_append, List.nodup_append] at hdistinct
      intro hmem
      exact hdistinct.2.2 _ hmem _ (by simp) rfl
    have hsplit : SortedByRemain (new ++ [last]) ↔
        SortedByRemain new ∧ ∀ p ∈ new, p.remain ≤ last.remain := by
      simp [SortedByRemain, List.pairwise_append]
    rw [hqueue, JoinsInOrder, horder, hsplit, ← pairwise_remaining_iff hnodup hnew]
    constructor
    · rintro ⟨hsorted, hunseen⟩
      refine ⟨List.Pairwise.nil, by simp, hsorted, ?_⟩
      intro p hp
      rw [← remaining_of_mem hnodup (hnew p hp)]
      exact hunseen p.pid (List.mem_map_of_mem hp) last hlasthead hready hfresh
    · rintro ⟨_, _, hsorted, hle⟩
      refine ⟨hsorted, ?_⟩
      intro a ha q hq hq' hnot
      obtain ⟨p, hp, rfl⟩ := List.mem_map.mp ha
      have hqmem : q ∈ new ++ [last] := hperm.symm.subset (mem_waiting.mpr ⟨hq, hq', by simp⟩)
      rw [remaining_of_mem hnodup (hnew p hp)]
      cases List.mem_append.mp hqmem with
      | inl h => exact absurd (List.mem_map_of_mem h) hnot
      | inr h =>
          rw [List.mem_singleton.mp h]
          exact hle p hp

/-! ## One iteration -/

theorem inOrder_idle_iff (h : Queued run) :
    InOrder (idle (fifoOps stale) run.sim []).sim.currentTime
        (idle (fifoOps stale) run.sim []).sim.head (idle (fifoOps stale) run.sim []).queue ↔
      KeepsOrder stale quantum run.sim [] := by
  rw [idle_sim, idle_queue]
  simp only
  rw [inOrder_enqueue_iff stale h.nodup (.inl rfl)]
  simp [KeepsOrder]

theorem keepsOrder_cons (h : Queued run) {ptr : Process} (hptr : ptr ∈ run.sim.head)
    (rest : List Int) :
    KeepsOrder stale quantum run.sim (ptr.pid :: rest) ↔
      (ptr.remain ≤ quantum → ∀ q ∈ run.sim.head, q.pid ≠ ptr.pid → q.pid ∉ rest →
        q.Ready (run.sim.currentTime + ptr.remain) → ∀ a ∈ rest,
          remaining run.sim.head a ≤ q.remain) ∧
      (quantum < ptr.remain → JoinsInOrder stale (run.sim.currentTime + quantum)
        (updateProcess (Process.preempt quantum) ptr.pid run.sim.head) rest) := by
  constructor
  · intro hkeeps
    exact hkeeps ptr hptr rfl
  · intro hkeeps p hp hpid
    rw [eq_of_pid_eq h.nodup hp hptr hpid]
    exact hkeeps

theorem pairwise_rest (h : Queued run) (horder : InOrder t run.sim.head run.queue)
    {ptr : Process} {rest : List Int} (hqueue : run.queue = ptr.pid :: rest)
    {f : Process → Process} (hf : ∀ p, (f p).pid = p.pid) :
    (∀ a ∈ rest, remaining (updateProcess f ptr.pid run.sim.head) a =
        remaining run.sim.head a) ∧
      rest.Pairwise fun a b => remaining (updateProcess f ptr.pid run.sim.head) a ≤
        remaining (updateProcess f ptr.pid run.sim.head) b := by
  have hnodup := h.queue_nodup
  have hsorted := horder.sorted
  rw [hqueue, List.nodup_cons] at hnodup
  rw [hqueue, List.pairwise_cons] at hsorted
  have hsame : ∀ a ∈ rest, remaining (updateProcess f ptr.pid run.sim.head) a =
      remaining run.sim.head a := by
    intro a ha
    apply remaining_updateProcess hf
    intro heq
    exact hnodup.1 (heq ▸ ha)
  refine ⟨hsame, hsorted.2.imp_of_mem ?_⟩
  intro a b ha hb hle
  rw [hsame a ha, hsame b hb]
  exact hle

theorem inOrder_finish_iff (h : Queued run)
    (horder : InOrder run.sim.currentTime run.sim.head run.queue) {ptr : Process}
    {rest : List Int} (hqueue : run.queue = ptr.pid :: rest) (hptr : ptr ∈ run.sim.head)
    (hle : ptr.remain ≤ quantum) :
    InOrder (finish run.sim rest ptr).sim.currentTime (finish run.sim rest ptr).sim.head
        (finish run.sim rest ptr).queue ↔
      KeepsOrder stale quantum run.sim run.queue := by
  have hmem := fun q => mem_updateProcess (f := Process.complete
    (run.sim.currentTime + ptr.remain)) (q := q) h.nodup (findProcess_of_mem h.nodup hptr)
  obtain ⟨hsame, hsorted⟩ := pairwise_rest h horder hqueue
    (complete_pid (run.sim.currentTime + ptr.remain))
  have hnot : ¬ quantum < ptr.remain := by omega
  rw [hqueue, keepsOrder_cons h hptr, finish_sim, finish_queue]
  constructor
  · rintro ⟨_, hunseen⟩
    refine ⟨?_, fun hlt => absurd hlt hnot⟩
    intro _ q hq hne hnotin hready a ha
    rw [← hsame a ha]
    exact hunseen a ha q ((hmem q).mpr (.inr ⟨hq, hne⟩)) hready hnotin
  · rintro ⟨hkeeps, _⟩
    refine ⟨hsorted, ?_⟩
    intro a ha q hq hready hnotin
    rw [hsame a ha]
    rcases (hmem q).mp hq with rfl | ⟨hq, hne⟩
    · have hpos := hready.2
      simp at hpos
    · exact hkeeps hle q hq hne hnotin hready a ha

theorem inOrder_requeue_iff (h : Queued run)
    (horder : InOrder run.sim.currentTime run.sim.head run.queue) {ptr : Process}
    {rest : List Int} (hqueue : run.queue = ptr.pid :: rest) (hptr : ptr ∈ run.sim.head)
    (hready : ptr.Ready run.sim.currentTime) (hquantum : 0 ≤ quantum)
    (hlt : quantum < ptr.remain) :
    InOrder (requeue (fifoOps stale) quantum run.sim rest ptr).sim.currentTime
        (requeue (fifoOps stale) quantum run.sim rest ptr).sim.head
        (requeue (fifoOps stale) quantum run.sim rest ptr).queue ↔
      KeepsOrder stale quantum run.sim run.queue := by
  obtain ⟨_, hsorted⟩ := pairwise_rest h horder hqueue (preempt_pid quantum)
  have hnot : ¬ ptr.remain ≤ quantum := by omega
  have hnodup : ((updateProcess (Process.preempt quantum) ptr.pid run.sim.head).map
      Process.pid).Nodup := by
    rw [map_updateProcess Process.pid (preempt_pid _)]
    exact h.nodup
  have hserved : ptr.preempt quantum ∈
      updateProcess (Process.preempt quantum) ptr.pid run.sim.head :=
    (mem_updateProcess h.nodup (findProcess_of_mem h.nodup hptr)).mpr (.inl rfl)
  have hready' : (ptr.preempt quantum).Ready (run.sim.currentTime + quantum) := by
    have hat := hready.1
    constructor
    · simp only [preempt_at]
      omega
    · simp only [preempt_remain]
      omega
  have hagain : ptr.pid = -1 ∨ ∃ p ∈ updateProcess (Process.preempt quantum) ptr.pid
      run.sim.head, p.Ready (run.sim.currentTime + quantum) ∧ p.pid = ptr.pid :=
    .inr ⟨_, hserved, hready', preempt_pid quantum ptr⟩
  rw [hqueue, keepsOrder_cons h hptr, requeue_sim, requeue_queue]
  simp only
  rw [inOrder_enqueue_iff stale hnodup hagain]
  constructor
  · rintro ⟨_, hjoins⟩
    exact ⟨fun hle => absurd hle hnot, fun _ => hjoins⟩
  · rintro ⟨_, hjoins⟩
    exact ⟨hsorted, hjoins hlt⟩

theorem inOrder_dispatch_iff (h : Queued run)
    (horder : InOrder run.sim.currentTime run.sim.head run.queue) (hquantum : 0 ≤ quantum) :
    InOrder (dispatch (fifoOps stale) quantum run).sim.currentTime
        (dispatch (fifoOps stale) quantum run).sim.head
        (dispatch (fifoOps stale) quantum run).queue ↔
      KeepsOrder stale quantum run.sim run.queue := by
  rcases dispatch_cases stale quantum h with
    ⟨hnil, hstep⟩ | ⟨ptr, rest, hqueue, hptr, hready, _, hcase⟩
  · rw [hstep, hnil]
    exact inOrder_idle_iff h
  · rcases hcase with ⟨hle, hstep⟩ | ⟨hlt, hstep⟩
    · rw [hstep]
      exact inOrder_finish_iff h horder hqueue hptr hle
    · rw [hstep]
      exact inOrder_requeue_iff h horder hqueue hptr hready hquantum hlt

theorem currentTime_le_dispatch (h : Queued run) (hquantum : 0 ≤ quantum) :
    run.sim.currentTime ≤ (dispatch (fifoOps stale) quantum run).sim.currentTime := by
  rcases dispatch_cases stale quantum h with
    ⟨_, hstep⟩ | ⟨ptr, rest, _, _, hready, _, ⟨_, hstep⟩ | ⟨_, hstep⟩⟩
  · simp [hstep]
  · have hpos := hready.2
    simp only [hstep, finish_sim]
    omega
  · simp only [hstep, requeue_sim]
    omega

/-! ## Runs over live entries -/

theorem le_of_servesShortest (hshortest : ServesShortest (fifoOps stale)
      (serveLoop (fifoOps stale) quantum) run) (h : Queued run) (hquantum : 0 ≤ quantum)
    {a : Int} (ahead : List Int) (n : Nat) (after : List Int)
    (hqueue : ((serveLoop (fifoOps stale) quantum).state run n).queue = ahead ++ a :: after)
    {q : Process} (hq : q ∈ ((serveLoop (fifoOps stale) quantum).state run n).sim.head)
    (hready : q.Ready ((serveLoop (fifoOps stale) quantum).state run n).sim.currentTime)
    (hnot : q.pid ∉ ahead) :
    remaining ((serveLoop (fifoOps stale) quantum).state run n).sim.head a ≤ q.remain := by
  induction ahead generalizing n after with
  | nil =>
      have hqueued : Queued ((serveLoop (fifoOps stale) quantum).state run n) :=
        queued_serveLoop h hquantum n
      obtain ⟨p, hp, rfl, hp'⟩ := hqueued.ready a (by simp [hqueue])
      rw [remaining_of_mem hqueued.nodup hp]
      exact hshortest n (guard_of_unfinished hp hp'.2) p hp (nextPid_cons stale hqueue) q hq hready
  | cons first ahead ih =>
      have hqueued : Queued ((serveLoop (fifoOps stale) quantum).state run n) :=
        queued_serveLoop h hquantum n
      obtain ⟨p, hp, rfl, hp'⟩ := hqueued.ready a (by simp [hqueue])
      have hbody : (serveLoop (fifoOps stale) quantum).state run (n + 1) =
          dispatch (fifoOps stale) quantum ((serveLoop (fifoOps stale) quantum).state run n) :=
        Loop.state_succ_of_guard _ (guard_of_unfinished hp hp'.2)
      have hnext := nextPid_cons stale hqueue
      have hnodup := hqueued.queue_nodup
      rw [hqueue, List.cons_append, List.nodup_cons] at hnodup
      simp only [List.mem_cons, not_or] at hnot
      have hkept : p ∈ ((serveLoop (fifoOps stale) quantum).state run (n + 1)).sim.head := by
        rw [hbody]
        apply mem_dispatch hqueued hp
        rw [hnext]
        intro heq
        exact hnodup.1 (by simp [heq])
      have hkept' : q ∈ ((serveLoop (fifoOps stale) quantum).state run (n + 1)).sim.head := by
        rw [hbody]
        apply mem_dispatch hqueued hq
        rw [hnext]
        exact fun heq => hnot.1 heq.symm
      have hqueued' : Queued ((serveLoop (fifoOps stale) quantum).state run (n + 1)) :=
        queued_serveLoop h hquantum (n + 1)
      obtain ⟨⟨suffix, hrest⟩, _⟩ := dispatch_rest stale quantum hqueued hqueue
      rw [← hbody] at hrest
      have htime : ((serveLoop (fifoOps stale) quantum).state run n).sim.currentTime ≤
          ((serveLoop (fifoOps stale) quantum).state run (n + 1)).sim.currentTime := by
        rw [hbody]
        exact currentTime_le_dispatch hqueued hquantum
      have hle := ih (n + 1) (after ++ suffix) (by rw [← hrest]; simp) hkept'
        (hready.mono htime) hnot.2
      rwa [remaining_of_mem hqueued'.nodup hkept, ← remaining_of_mem hqueued.nodup hp] at hle

/-- In a queue without repetitions, order of all pairs is order behind every entry. -/
theorem pairwise_of_split {R : Int → Int → Prop} {queue : List Int}
    (h : ∀ ahead a after, queue = ahead ++ a :: after → ∀ b ∈ after, R a b) :
    queue.Pairwise R := by
  induction queue with
  | nil => exact List.Pairwise.nil
  | cons a rest ih =>
      refine List.pairwise_cons.mpr ⟨fun b hb => h [] a rest rfl b hb, ih ?_⟩
      intro ahead b after hrest
      exact h (a :: ahead) b after (by rw [hrest]; rfl)

theorem servesShortest_iff (h : Queued run) (hquantum : 0 ≤ quantum) :
    ServesShortest (fifoOps stale) (serveLoop (fifoOps stale) quantum) run ↔
      ∀ n, InOrder ((serveLoop (fifoOps stale) quantum).state run n).sim.currentTime
        ((serveLoop (fifoOps stale) quantum).state run n).sim.head
        ((serveLoop (fifoOps stale) quantum).state run n).queue := by
  constructor
  · intro hshortest n
    have hqueued : Queued ((serveLoop (fifoOps stale) quantum).state run n) :=
      queued_serveLoop h hquantum n
    constructor
    case sorted =>
      apply pairwise_of_split
      intro ahead a after hqueue b hb
      obtain ⟨q, hq, rfl, hready⟩ := hqueued.ready b (by simp [hqueue, hb])
      have hnodup := hqueued.queue_nodup
      rw [hqueue, List.nodup_append] at hnodup
      rw [remaining_of_mem hqueued.nodup hq]
      apply le_of_servesShortest hshortest h hquantum ahead n after hqueue hq hready
      intro hmem
      exact hnodup.2.2 q.pid hmem q.pid (by simp [hb]) rfl
    case unseen =>
      intro a ha q hq hready hnot
      obtain ⟨ahead, after, hqueue⟩ := List.append_of_mem ha
      apply le_of_servesShortest hshortest h hquantum ahead n after hqueue hq hready
      intro hmem
      exact hnot (by simp [hqueue, hmem])
  · intro horder n _ ptr hptr hnext q hq hready
    have hqueued : Queued ((serveLoop (fifoOps stale) quantum).state run n) :=
      queued_serveLoop h hquantum n
    obtain ⟨rest, hqueue⟩ := exists_rest_of_nextPid hnext (hqueued.ne_sentinel ptr hptr)
    obtain ⟨hsorted, hunseen⟩ := horder n
    rw [hqueue] at hsorted hunseen
    rw [← remaining_of_mem hqueued.nodup hptr]
    cases hmem : decide (q.pid ∈ ptr.pid :: rest) with
    | false => exact hunseen ptr.pid (by simp) q hq hready (of_decide_eq_false hmem)
    | true =>
        rcases List.mem_cons.mp (of_decide_eq_true hmem) with heq | hin
        · rw [eq_of_pid_eq hqueued.nodup hq hptr heq, remaining_of_mem hqueued.nodup hptr]
        · rw [← remaining_of_mem hqueued.nodup hq]
          exact (List.pairwise_cons.mp hsorted).1 q.pid hin

theorem servesShortest_fifo_iff (stale : Option Int) {sim : Sim} (hpids : ProperPids sim.head)
    (hquantum : 0 ≤ quantum) :
    ServesShortest (fifoOps stale) (serveLoop (fifoOps stale) quantum)
        (start (fifoOps stale) sim []) ↔
      JoinsInOrder stale sim.currentTime sim.head [] ∧
      ∀ n, (serveLoop (fifoOps stale) quantum).guard
          ((serveLoop (fifoOps stale) quantum).state (start (fifoOps stale) sim []) n) = true →
        KeepsOrder stale quantum
          ((serveLoop (fifoOps stale) quantum).state (start (fifoOps stale) sim []) n).sim
          ((serveLoop (fifoOps stale) quantum).state (start (fifoOps stale) sim []) n).queue := by
  have hqueued : Queued (start (fifoOps stale) sim []) := queued_start hpids
  have hstart : InOrder sim.currentTime sim.head (start (fifoOps stale) sim []).queue ↔
      JoinsInOrder stale sim.currentTime sim.head [] := by
    rw [start_queue, inOrder_enqueue_iff stale hpids.nodup (.inl rfl)]
    simp
  have hsteps : InOrder sim.currentTime sim.head (start (fifoOps stale) sim []).queue →
      ((∀ n, InOrder
          ((serveLoop (fifoOps stale) quantum).state (start (fifoOps stale) sim []) n).sim.currentTime
          ((serveLoop (fifoOps stale) quantum).state (start (fifoOps stale) sim []) n).sim.head
          ((serveLoop (fifoOps stale) quantum).state (start (fifoOps stale) sim []) n).queue) ↔ _) :=
    fun horder => Loop.forall_state_iff_of_step (serveLoop (fifoOps stale) quantum)
      (P := fun s => InOrder s.sim.currentTime s.sim.head s.queue) horder
      (C := fun s => KeepsOrder stale quantum s.sim s.queue)
      fun n _ h => inOrder_dispatch_iff (queued_serveLoop hqueued hquantum n) h hquantum
  rw [servesShortest_iff hqueued hquantum, ← hstart]
  constructor
  · intro horder
    exact ⟨horder 0, (hsteps (horder 0)).mp horder⟩
  · rintro ⟨horder, hkeeps⟩
    exact (hsteps horder).mpr hkeeps

/-! ## The array of the source -/

theorem joinsInOrder_completed {sim : Sim} (hdone : allProcessesCompleted sim.head = true) :
    JoinsInOrder stale sim.currentTime sim.head [] := by
  have hnone : waiting sim.currentTime sim.head [] = [] := by
    rw [waiting, List.filter_eq_nil_iff]
    intro p hp
    have hle := allProcessesCompleted_iff.mp hdone p hp
    simp only [decide_eq_true_eq]
    rintro ⟨⟨_, hpos⟩, _⟩
    omega
  rw [JoinsInOrder, hnone]
  simp [joinOrder, SortedByRemain]

theorem servesShortest_array_iff (sim : Sim) (hpids : ProperPids sim.head)
    (cell : Int → Int) (hquantum : allProcessesCompleted sim.head = false → 0 ≤ quantum) :
    ServesShortest arrayOps (serveLoop arrayOps quantum)
        (start arrayOps sim (Queue.declared cell)) ↔
      JoinsInOrder (some (cell (-1))) sim.currentTime sim.head [] ∧ ∀ n,
        (serveLoop arrayOps quantum).guard ((serveLoop arrayOps quantum).state
            (start arrayOps sim (Queue.declared cell)) n) = true →
          KeepsOrder (some (cell (-1))) quantum
            ((serveLoop arrayOps quantum).state
              (start arrayOps sim (Queue.declared cell)) n).sim
            ((serveLoop arrayOps quantum).state
              (start arrayOps sim (Queue.declared cell)) n).queue.live := by
  cases hdone : allProcessesCompleted sim.head with
  | true =>
      have hguard : (serveLoop arrayOps quantum).guard
          (start arrayOps sim (Queue.declared cell)) = false := by
        simp [hdone]
      simp only [ServesShortest, Loop.state_of_not_guard _ hguard, hguard]
      simp only [Bool.false_eq_true, false_implies, implies_true, and_true, true_iff]
      exact joinsInOrder_completed hdone
  | false =>
      have hfifo := servesShortest_fifo_iff (some (cell (-1))) hpids (hquantum hdone)
      simp only [ServesShortest, serveLoop_guard, arrayRun_nextPid, arrayRun_live, arrayRun_sim]
      simpa only [ServesShortest, serveLoop_guard] using hfifo

/-- `sjf` serves shortest processes only if and only if the first scan and every iteration
keep the queue in order. -/
theorem sjf_servesShortest_iff (sim : Sim) (hpids : ProperPids sim.head) (cell : Int → Int) :
    ServesShortest arrayOps (sjfLoop arrayOps) (sjfStart arrayOps sim (Queue.declared cell)) ↔
      JoinsInOrder (some (cell (-1))) sim.currentTime sim.head [] ∧ ∀ n,
        let run := (sjfLoop arrayOps).state (sjfStart arrayOps sim (Queue.declared cell)) n
        (sjfLoop arrayOps).guard run = true → KeepsOrder (some (cell (-1)))
          (dynamicTimeQuantum sim.head sim.timeQuantumSjf) run.sim run.queue.live := by
  have hquantum : allProcessesCompleted sim.head = false →
      0 ≤ dynamicTimeQuantum sim.head sim.timeQuantumSjf := by
    intro hactive
    exact Int.le_of_lt (dynamicTimeQuantum_pos hactive sim.timeQuantumSjf)
  have harray := servesShortest_array_iff { sim with
      timeQuantumSjf := dynamicTimeQuantum sim.head sim.timeQuantumSjf } hpids cell hquantum
  simp only [ServesShortest, sjfLoop_state, sjfStart_eq, start_sim]
  exact harray

def longerFirst : Sim :=
  Sim.init (assignProcessors 1 (createProcesses (-1) [⟨1, 0, 5⟩, ⟨2, 0, 1⟩]))

theorem longerFirst_not_servesShortest : ¬ ∀ sim : Sim, ProperPids sim.head →
    (∀ p ∈ sim.head, 1 ≤ p.bt) → ServesShortest arrayOps (sjfLoop arrayOps)
      (sjfStart arrayOps sim (Queue.declared fun _ => 0)) := by
  intro h
  have hshortest := h longerFirst (properPids_input 1 (-1) (by decide) (by decide)) (by decide)
    0 (by decide) ⟨1, 0, 5, 0, -1, -1, -1, -1, 5⟩ (by decide) (by decide)
    ⟨2, 0, 1, 0, -1, -1, -1, -1, 1⟩ (by decide) (by decide)
  exact absurd hshortest (by decide)

theorem shorterFirst_servesShortest : ServesShortest arrayOps (sjfLoop arrayOps)
    (sjfStart arrayOps (Sim.init (assignProcessors 1
      (createProcesses (-1) [⟨1, 0, 1⟩, ⟨2, 0, 5⟩]))) (Queue.declared fun _ => 0)) := by
  refine (sjf_servesShortest_iff _ ?_ _).mpr ⟨?_, ?_⟩
  · exact properPids_input 1 (-1) (by decide) (by decide)
  · decide
  · intro n run hguard
    have hlt : n < 2 := Loop.lt_of_exit _ (by decide) hguard
    have hcases : n = 0 ∨ n = 1 := by omega
    rcases hcases with rfl | rfl
    · decide
    · decide

end SyscallSched.Simulators.Mlfqs
