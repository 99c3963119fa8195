import SyscallSched.Foundation.Makespan
import SyscallSched.Simulators.Process
import SyscallSched.Simulators.Mlfq.NoLoss
import SyscallSched.Simulators.Mlfq.Turns

/-!
# The response times of `mlfq`

As in `rr` and `sjf`, `rt` is computed at the completion.  A level that has been drained is
left in no time, so a preempted process is served again at once exactly when no other process
is queued at its level or at the one to which it is demoted.
-/

namespace SyscallSched.Simulators.Mlfq

open SyscallSched.Foundation

def FirstTurn (head : List Process) (ptr : Process) (n : Nat) : Prop :=
  Dispatched (loop.state (start head) n) ptr ∧
    ∀ m, m < n → dispatches ptr.pid (loop.state (start head) m) = false

/-- The `rt` of the record `p` is the clock of its first dispatch less its arrival. -/
def RespondsAtFirstTurn (head : List Process) (p : Process) : Prop :=
  ∃ n ptr, FirstTurn head ptr n ∧ ptr.pid = p.pid ∧
    p.rt = dispatchTime (loop.state (start head) n).currentTime ptr - p.at

/-- No other process is queued at the level being served or at the one below it. -/
def Alone (s : State) (pid : Int) : Prop :=
  ∀ other ∈ s.live s.level ++ s.live (demotedLevel s.level), other = pid

instance (s : State) (pid : Int) : Decidable (Alone s pid) :=
  inferInstanceAs (Decidable (∀ other ∈ _, other = pid))

def Next (pid : Int) (s : State) : Prop :=
  ∃ level rest, s.level ≤ level ∧ level < LEVELS ∧
    (∀ j, s.level ≤ j → j < level → s.live j = []) ∧ s.live level = pid :: rest

variable {s : State} {p ptr : Process} {rest : List Int} {queue : ArrayQueue Int}

theorem next_of_dispatched (h : Disciplined s) (hptr : Dispatched s ptr) : Next ptr.pid s := by
  obtain ⟨rest, queue, hhead, _⟩ := hptr.head h
  exact ⟨s.level, rest, Nat.le_refl _, hhead.lt, fun j hle hlt => by omega, hhead.live_eq⟩

theorem eq_of_next (hhead : Head s ptr rest queue) {pid : Int} (hnext : Next pid s) :
    pid = ptr.pid := by
  obtain ⟨level, rest', hle, _, hempty, hlive⟩ := hnext
  cases hlt : decide (s.level < level) with
  | true =>
      have hnil := hempty s.level (Nat.le_refl _) (of_decide_eq_true hlt)
      rw [hhead.live_eq] at hnil
      cases hnil
  | false =>
      have hsame : level = s.level := Nat.le_antisymm (Nat.not_lt.mp (of_decide_eq_false hlt)) hle
      rw [hsame, hhead.live_eq] at hlive
      exact (List.cons.inj hlive).1.symm

theorem demotedLevel_le (level : Nat) : demotedLevel level ≤ level + 1 := by
  unfold demotedLevel
  split <;> omega

theorem ptr_not_live_popped (h : Disciplined s) (hhead : Head s ptr rest queue) {level : Nat}
    (hlt : level < LEVELS) : ptr.pid ∉ (popped s queue).live level :=
  fun hmem => ptr_not_mem_popped h hhead (mem_queued hlt hmem)

theorem live_preempt (h : Disciplined s) (hhead : Head s ptr rest queue) (level : Nat)
    (hpush : ((suspended s ptr queue).queue (demotedLevel s.level)).rear ≠ MAX - 1) :
    (enqueue (suspended s ptr queue) (demotedLevel s.level) ptr.pid).live level =
      if level = demotedLevel s.level then
        (popped s queue).live (demotedLevel s.level) ++ [ptr.pid]
      else (popped s queue).live level := by
  have hvalid : ((suspended s ptr queue).queue (demotedLevel s.level)).Valid :=
    valid_popped h hhead _
  rw [live_enqueue_push ptr.pid hvalid hpush]
  rfl

theorem alone_of_next_preempt (h : Disciplined s) (hhead : Head s ptr rest queue)
    (hnext : Next ptr.pid (enqueue (suspended s ptr queue) (demotedLevel s.level) ptr.pid)) :
    Alone s ptr.pid := by
  obtain ⟨hdemoted, hlevel, _⟩ := demotedLevel_lt hhead.lt
  have hbelow := demotedLevel_le s.level
  have hserved : (popped s queue).live s.level = rest := by
    rw [live_popped hhead, if_pos rfl]
  obtain ⟨level, rest', hle, hlt, hempty, hlive⟩ := hnext
  rw [enqueue_level] at hle hempty
  change s.level ≤ level at hle
  have hpush : ((suspended s ptr queue).queue (demotedLevel s.level)).rear ≠ MAX - 1 := by
    intro hfull
    rw [enqueue_full hfull] at hlive
    change (popped s queue).live level = _ at hlive
    exact ptr_not_live_popped h hhead hlt (by simp [hlive])
  simp only [live_preempt h hhead _ hpush] at hlive hempty
  have hsame : level = demotedLevel s.level := by
    by_contra hne
    rw [if_neg hne] at hlive
    exact ptr_not_live_popped h hhead hlt (by simp [hlive])
  rw [if_pos hsame] at hlive
  have hnil : (popped s queue).live (demotedLevel s.level) = [] := by
    cases hq : (popped s queue).live (demotedLevel s.level) with
    | nil => rfl
    | cons first others =>
        rw [hq, List.cons_append, List.cons.injEq] at hlive
        exact absurd (by simp [hq, hlive.1]) (ptr_not_live_popped h hhead hdemoted)
  intro other hother
  cases hcases : decide (demotedLevel s.level = s.level) with
  | true =>
      have heq := of_decide_eq_true hcases
      rw [heq, hserved] at hnil
      simpa [heq, hhead.live_eq, hnil] using hother
  | false =>
      have hne := of_decide_eq_false hcases
      have hrest := hempty s.level (Nat.le_refl _) (by omega)
      rw [if_neg (Ne.symm hne), hserved] at hrest
      rw [live_popped hhead, if_neg hne] at hnil
      simpa [hhead.live_eq, hrest, hnil] using hother

theorem next_preempt_of_alone (h : Disciplined s) (hhead : Head s ptr rest queue)
    (halone : Alone s ptr.pid) :
    Next ptr.pid (enqueue (suspended s ptr queue) (demotedLevel s.level) ptr.pid) := by
  obtain ⟨hdemoted, hlevel, _⟩ := demotedLevel_lt hhead.lt
  have hbelow := demotedLevel_le s.level
  have hnone : ∀ level, (level = s.level ∨ level = demotedLevel s.level) →
      (popped s queue).live level = [] := by
    intro level hcases
    rw [List.eq_nil_iff_forall_not_mem]
    intro other hmem
    have hin := mem_live_of_popped hhead hmem
    have hpid : other = ptr.pid := by
      apply halone
      rw [List.mem_append]
      rcases hcases with rfl | rfl
      · exact .inl hin
      · exact .inr hin
    rw [hpid] at hmem
    refine ptr_not_live_popped h hhead ?_ hmem
    rcases hcases with rfl | rfl
    · exact hhead.lt
    · exact hdemoted
  have hrear := ArrayQueue.rear_eq_of_live_nil (valid_popped h hhead _) (hnone _ (.inr rfl))
  have hpush : ((suspended s ptr queue).queue (demotedLevel s.level)).rear ≠ MAX - 1 := by
    change ((popped s queue).queue (demotedLevel s.level)).rear ≠ MAX - 1
    rw [hrear]
    decide
  refine ⟨demotedLevel s.level, [], ?_, hdemoted, ?_, ?_⟩
  · rw [enqueue_level]
    exact hlevel
  · intro j hle hlt
    rw [enqueue_level] at hle
    change s.level ≤ j at hle
    rw [live_preempt h hhead _ hpush, if_neg (Nat.ne_of_lt hlt)]
    exact hnone j (.inl (by omega))
  · rw [live_preempt h hhead _ hpush, if_pos rfl, hnone _ (.inr rfl)]
    rfl

theorem next_preempt_iff (h : Disciplined s) (hhead : Head s ptr rest queue) :
    Next ptr.pid (preempt (popped s queue) ptr) ↔ Alone s ptr.pid := by
  rw [preempt_popped]
  exact ⟨alone_of_next_preempt h hhead, next_preempt_of_alone h hhead⟩

/-! ## One iteration seen from one record -/

/-- The four things that an iteration can do for the process of the record `p`. -/
inductive Turn (s s' : State) (p p' : Process) : Prop where
  | finished (turn : Dispatched s p) (pos : 0 < p.remain) (le : p.remain ≤ quantum s.level)
      (time : s'.currentTime = dispatchTime s.currentTime p + p.remain)
      (record : p' = p.complete (dispatchTime s.currentTime p + p.remain))
  | preempted (turn : Dispatched s p) (lt : quantum s.level < p.remain)
      (time : s'.currentTime = dispatchTime s.currentTime p + quantum s.level)
      (record : p' = p.preempt (quantum s.level)) (next : Next p.pid s' ↔ Alone s p.pid)
  /-- The loop leaves a drained level, or has ended. -/
  | moved (idle : dispatches p.pid s = false) (time : s'.currentTime = s.currentTime)
      (record : p' = p) (next : Next p.pid s' ↔ Next p.pid s)
  | other (idle : dispatches p.pid s = false) (wait : ¬ Next p.pid s)
      (time : s.currentTime < s'.currentTime) (record : p' = p)

theorem next_level_iff {pid : Int} (hnil : s.live s.level = []) :
    Next pid { s with level := s.level + 1 } ↔ Next pid s := by
  constructor
  · rintro ⟨level, rest, hle, hlevel, hempty, hlive⟩
    change s.level + 1 ≤ level at hle
    refine ⟨level, rest, by omega, hlevel, ?_, hlive⟩
    intro j hj hjl
    cases hsame : decide (j = s.level) with
    | true =>
        rw [of_decide_eq_true hsame]
        exact hnil
    | false =>
        have hne := of_decide_eq_false hsame
        exact hempty j (by change s.level + 1 ≤ j; omega) hjl
  · rintro ⟨level, rest, hle, hlevel, hempty, hlive⟩
    have hne : level ≠ s.level := by
      rintro rfl
      rw [hnil] at hlive
      cases hlive
    refine ⟨level, rest, by change s.level + 1 ≤ level; omega, hlevel, ?_, hlive⟩
    intro j hj hjl
    change s.level + 1 ≤ j at hj
    exact hempty j (by omega) hjl

theorem turn_step (h : Disciplined s) (hp : p ∈ s.head) {p' : Process}
    (hp' : p' ∈ (step s).head) (hpid : p'.pid = p.pid) : Turn s (step s) p p' := by
  have hkept := disciplined_step h
  rcases step_cases h with
    ⟨_, hnil, hstep⟩ | ⟨hend, hstep⟩ | ⟨ptr, rest, queue, hhead, hcase⟩
  · have hsame : p ∈ (step s).head := by
      rw [hstep]
      exact hp
    refine .moved (dispatches_of_empty h hnil _) ?_ (eq_of_pid_eq hkept.nodup hp' hsame hpid) ?_
    · rw [hstep]
    · rw [hstep]
      exact next_level_iff hnil
  · have hsame : p ∈ (step s).head := by
      rw [hstep]
      exact hp
    refine .other (by simp [dispatches, hend]) ?_ ?_ (eq_of_pid_eq hkept.nodup hp' hsame hpid)
    · rintro ⟨level, _, hle, hlt, _⟩
      omega
    · rw [hstep]
      change s.currentTime < s.currentTime + 1
      omega
  · have hfind := findProcess_of_mem h.nodup hhead.mem
    have htime := (le_dispatchTime s.currentTime ptr).1
    have hpos := hhead.pos
    have hquantum := quantum_pos s.level
    cases hturn : decide (ptr.pid = p.pid) with
    | true =>
        have heq := eq_of_pid_eq h.nodup hhead.mem hp (of_decide_eq_true hturn)
        subst heq
        have hdispatched : Dispatched s ptr := by
          refine ⟨?_, hfind⟩
          rw [dispatches_of_head h hhead, decide_eq_true_eq]
        rcases hcase with ⟨hle, hstep⟩ | ⟨hlt, hstep⟩
        · refine .finished hdispatched hpos hle (by rw [hstep]; rfl)
            (eq_of_pid_eq hkept.nodup hp' ?_ hpid)
          rw [hstep]
          exact (mem_updateProcess h.nodup hfind).mpr (.inl rfl)
        · refine .preempted hdispatched hlt ?_ (eq_of_pid_eq hkept.nodup hp' ?_ hpid) ?_
          · rw [hstep, preempt_popped, enqueue_currentTime]
            rfl
          · rw [hstep, preempt_popped, enqueue_head]
            exact (mem_updateProcess h.nodup hfind).mpr (.inl rfl)
          · rw [hstep]
            exact next_preempt_iff h hhead
    | false =>
        have hne := of_decide_eq_false hturn
        have hupdated : ∀ f, p ∈ updateProcess f ptr.pid s.head :=
          fun f => (mem_updateProcess h.nodup hfind).mpr (.inr ⟨hp, Ne.symm hne⟩)
        have hidle : dispatches p.pid s = false := by
          rw [dispatches_of_head h hhead, decide_eq_false_iff_not]
          exact hne
        have hwait : ¬ Next p.pid s := fun hnext => hne (eq_of_next hhead hnext).symm
        rcases hcase with ⟨_, hstep⟩ | ⟨_, hstep⟩
        · refine .other hidle hwait ?_ (eq_of_pid_eq hkept.nodup hp' ?_ hpid)
          · rw [hstep]
            change s.currentTime < dispatchTime s.currentTime ptr + ptr.remain
            omega
          · rw [hstep]
            exact hupdated _
        · refine .other hidle hwait ?_ (eq_of_pid_eq hkept.nodup hp' ?_ hpid)
          · rw [hstep, preempt_popped, enqueue_currentTime]
            change s.currentTime < dispatchTime s.currentTime ptr + quantum s.level
            omega
          · rw [hstep, preempt_popped, enqueue_head]
            exact hupdated _

/-! ## Runs -/

theorem map_pid_run (head : List Process) (n : Nat) :
    (loop.state (start head) n).head.map Process.pid = head.map Process.pid := by
  apply Loop.invariant loop (P := fun s => s.head.map Process.pid = head.map Process.pid)
  · rw [(filled_start head).head_eq]
  · intro s hs _
    exact (map_pid_step s).trans hs

theorem exists_records {head : List Process} (hp : p ∈ head) :
    ∃ record : Nat → Process, ∀ n,
      record n ∈ (loop.state (start head) n).head ∧ (record n).pid = p.pid := by
  have hall : ∀ n, ∃ q ∈ (loop.state (start head) n).head, q.pid = p.pid := by
    intro n
    have hmem : p.pid ∈ (loop.state (start head) n).head.map Process.pid := by
      rw [map_pid_run]
      exact List.mem_map_of_mem hp
    exact List.mem_map.mp hmem
  choose record hrecord using hall
  exact ⟨record, hrecord⟩

theorem unfinished_of_next (h : Disciplined s) (hp : p ∈ s.head) (hnext : Next p.pid s) :
    0 < p.remain := by
  obtain ⟨level, rest, _, hlt, _, hlive⟩ := hnext
  obtain ⟨q, hq, heq, hpos, _⟩ := h.entry level hlt p.pid (by simp [hlive])
  rw [eq_of_pid_eq h.nodup hq hp heq] at hpos
  exact hpos

section Records

variable {head : List Process} {record : Nat → Process} (hfresh : Fresh head)
  (hrecord : ∀ n, record n ∈ (loop.state (start head) n).head ∧ (record n).pid = p.pid)

include hfresh hrecord

theorem turn_records (n : Nat) :
    Turn (loop.state (start head) n) (loop.state (start head) (n + 1)) (record n)
      (record (n + 1)) := by
  have hdisciplined := disciplined_run hfresh n
  obtain ⟨hmem, hpid⟩ := hrecord n
  obtain ⟨hmem', hpid'⟩ := hrecord (n + 1)
  have hsame := hpid'.trans hpid.symm
  cases hguard : loop.guard (loop.state (start head) n) with
  | true =>
      rw [Loop.state_succ_of_guard _ hguard] at hmem' ⊢
      exact turn_step hdisciplined hmem hmem' hsame
  | false =>
      rw [Loop.state_succ, Loop.next_of_not_guard _ hguard] at hmem' ⊢
      refine .moved ?_ rfl (eq_of_pid_eq hdisciplined.nodup hmem' hmem hsame) Iff.rfl
      have hend : ¬ (loop.state (start head) n).level < LEVELS := by
        intro hlt
        rw [guard_of_level_lt hlt] at hguard
        cases hguard
      simp [dispatches, hend]

theorem time_le_succ (n : Nat) : (loop.state (start head) n).currentTime ≤
    (loop.state (start head) (n + 1)).currentTime := by
  have hle := (le_dispatchTime (loop.state (start head) n).currentTime (record n)).1
  have hquantum := quantum_pos (loop.state (start head) n).level
  rcases turn_records hfresh hrecord n with
    ⟨_, hpos, _, htime, _⟩ | ⟨_, _, htime, _⟩ | ⟨_, htime, _⟩ | ⟨_, _, htime, _⟩
  · omega
  · omega
  · omega
  · omega

theorem record_at_succ (n : Nat) : (record (n + 1)).at = (record n).at := by
  rcases turn_records hfresh hrecord n with
    ⟨_, _, _, _, hnew⟩ | ⟨_, _, _, hnew, _⟩ | ⟨_, _, hnew, _⟩ | ⟨_, _, _, hnew⟩
  · rw [hnew, complete_at]
  · rw [hnew, preempt_at]
  · rw [hnew]
  · rw [hnew]

theorem record_eq_of_idle {n : Nat}
    (hidle : ∀ m, m < n → dispatches p.pid (loop.state (start head) m) = false) :
    record n = record 0 := by
  induction n with
  | zero => rfl
  | succ n ih =>
      have hbefore := ih fun m hm => hidle m (Nat.lt_succ_of_lt hm)
      have hnow := hidle n (Nat.lt_succ_self n)
      rw [← (hrecord n).2] at hnow
      rcases turn_records hfresh hrecord n with
        ⟨hturn, _⟩ | ⟨hturn, _⟩ | ⟨_, _, hnew, _⟩ | ⟨_, _, _, hnew⟩
      · rw [hturn.turn] at hnow
        cases hnow
      · rw [hturn.turn] at hnow
        cases hnow
      · exact hnew.trans hbefore
      · exact hnew.trans hbefore

theorem waits_records {m : Nat}
    (harrived : (record m).at ≤ (loop.state (start head) m).currentTime) :
    Waits m (fun n => (record n).delay (loop.state (start head) n).currentTime)
      (fun n => ¬ 0 < (record n).remain) (fun n => Next p.pid (loop.state (start head) n)) := by
  have hturn := turn_records hfresh hrecord
  have hpid := fun n => (hrecord n).2
  have hnext : ∀ n, Next p.pid (loop.state (start head) n) → 0 < (record n).remain := by
    intro n hn
    rw [← hpid n] at hn
    exact unfinished_of_next (disciplined_run hfresh n) (hrecord n).1 hn
  have hpositive := fun n => quantum_pos (loop.state (start head) n).level
  -- once the process has arrived, a dispatch does not move the clock
  have hclock : ∀ n, m ≤ n → dispatchTime (loop.state (start head) n).currentTime (record n) =
      (loop.state (start head) n).currentTime := by
    intro n hmn
    have hat : (record n).at ≤ (loop.state (start head) n).currentTime := by
      induction hmn with
      | refl => exact harrived
      | @step n _ ih =>
          rw [Nat.succ_eq_add_one, record_at_succ hfresh hrecord]
          exact ih.trans (time_le_succ hfresh hrecord n)
    exact if_neg (Int.not_lt.mpr hat)
  constructor
  case done_stays =>
    intro n _ hdone
    have hquantum := hpositive n
    rcases hturn n with ⟨_, hpos, _⟩ | ⟨_, hlt, _⟩ | ⟨_, _, hsame, _⟩ | ⟨_, _, _, hsame⟩
    · exact absurd hpos hdone
    · omega
    · rw [hsame]
      exact hdone
    · rw [hsame]
      exact hdone
  case not_done_of_next =>
    intro n _ hn hdone
    exact hdone (hnext n hn)
  case delay_of_done =>
    intro n _ hdone
    have hquantum := hpositive n
    rcases hturn n with ⟨_, hpos, _⟩ | ⟨_, hlt, _⟩ | ⟨_, _, hsame, _⟩ | ⟨_, _, _, hsame⟩
    · exact absurd hpos hdone
    · omega
    · rw [hsame, delay_of_finished hdone, delay_of_finished hdone]
    · rw [hsame, delay_of_finished hdone, delay_of_finished hdone]
  case delay_of_next =>
    intro n hmn hn
    have hquantum := hpositive n
    rcases hturn n with ⟨_, hpos, _, htime, hnew⟩ | ⟨_, hlt, htime, hnew, _⟩ |
      ⟨_, htime, hsame, _⟩ | ⟨_, hwait, _⟩
    · rw [htime, hnew, hclock n hmn]
      exact delay_complete hpos _
    · rw [htime, hnew, hclock n hmn]
      exact delay_preempt (Int.le_of_lt hquantum) hlt
    · rw [htime, hsame]
    · rw [hpid n] at hwait
      exact absurd hn hwait
  case other =>
    intro n _ hdone hn
    have hpos : 0 < (record n).remain := not_not.mp hdone
    rcases hturn n with ⟨hself, _⟩ | ⟨hself, _⟩ | ⟨_, htime, hsame, hiff⟩ | ⟨_, _, htime, hsame⟩
    · have hself' := next_of_dispatched (disciplined_run hfresh n) hself
      rw [hpid n] at hself'
      exact absurd hself' hn
    · have hself' := next_of_dispatched (disciplined_run hfresh n) hself
      rw [hpid n] at hself'
      exact absurd hself' hn
    · rw [hsame, htime]
      rw [hpid n] at hiff
      exact ⟨hdone, Int.le_refl _, fun _ hn' => hn (hiff.mp hn')⟩
    · rw [hsame, delay_of_unfinished hpos, delay_of_unfinished hpos]
      exact ⟨hdone, by omega, fun heq => by omega⟩

theorem exists_firstTurn {k : Nat} (hpos : 0 < (record 0).remain)
    (hdone : ¬ 0 < (record k).remain) :
    ∃ m, m < k ∧ FirstTurn head (record m) m ∧ record m = record 0 := by
  classical
  have hturn : ∃ m, m < k ∧ dispatches p.pid (loop.state (start head) m) = true := by
    by_contra hnever
    rw [record_eq_of_idle hfresh hrecord (n := k)] at hdone
    · exact hdone hpos
    · intro m hm
      rw [← Bool.not_eq_true]
      exact fun heq => hnever ⟨m, hm, heq⟩
  obtain ⟨hlt, hdispatch⟩ := Nat.find_spec hturn
  have hfirst : ∀ i, i < Nat.find hturn →
      dispatches p.pid (loop.state (start head) i) = false := by
    intro i hi
    rw [← Bool.not_eq_true]
    exact fun heq => Nat.find_min hturn hi ⟨hi.trans hlt, heq⟩
  obtain ⟨hmem, hpid⟩ := hrecord (Nat.find hturn)
  refine ⟨Nat.find hturn, hlt, ⟨⟨?_, ?_⟩, ?_⟩, record_eq_of_idle hfresh hrecord hfirst⟩
  · rw [hpid]
    exact hdispatch
  · exact findProcess_of_mem (disciplined_run hfresh _).nodup hmem
  · rw [hpid]
    exact hfirst

theorem delay_after_turn {m : Nat} (hptr : Dispatched (loop.state (start head) m) (record m))
    (hpos : 0 < (record m).bt) (hremain : (record m).remain = (record m).bt) :
    (record (m + 1)).at ≤ (loop.state (start head) (m + 1)).currentTime ∧
      (record (m + 1)).delay (loop.state (start head) (m + 1)).currentTime =
        dispatchTime (loop.state (start head) m).currentTime (record m) - (record m).at := by
  have harrival := (le_dispatchTime (loop.state (start head) m).currentTime (record m)).2
  have hquantum := quantum_pos (loop.state (start head) m).level
  rw [record_at_succ hfresh hrecord, ← delay_of_unserved (p := record m) (by omega) hremain]
  rcases turn_records hfresh hrecord m with ⟨_, hpos, _, htime, hnew⟩ | ⟨_, hlt, htime, hnew, _⟩ |
    ⟨hidle, _⟩ | ⟨hidle, _⟩
  · rw [htime, hnew]
    exact ⟨by omega, delay_complete hpos _⟩
  · rw [htime, hnew]
    exact ⟨by omega, delay_preempt (Int.le_of_lt hquantum) hlt⟩
  · rw [hptr.turn] at hidle
    cases hidle
  · rw [hptr.turn] at hidle
    cases hidle

/-- From the first turn `m` on a process is always the next one until it is done, if and only
if it is alone whenever it is preempted. -/
theorem always_next_iff {m : Nat} (hfirst : Dispatched (loop.state (start head) m) (record m)) :
    ((¬ 0 < (record (m + 1)).remain ∨ Next p.pid (loop.state (start head) (m + 1))) ∧
      ∀ n, m + 1 ≤ n → Next p.pid (loop.state (start head) n) →
        ¬ 0 < (record (n + 1)).remain ∨ Next p.pid (loop.state (start head) (n + 1))) ↔
    ∀ n, m ≤ n → Dispatched (loop.state (start head) n) (record n) →
      quantum (loop.state (start head) n).level < (record n).remain →
        Alone (loop.state (start head) n) p.pid := by
  constructor
  · rintro ⟨hafter, hturns⟩ n hmn hptr hlt
    have hagain : ¬ 0 < (record (n + 1)).remain ∨ Next p.pid (loop.state (start head) (n + 1)) := by
      rcases Nat.lt_or_eq_of_le hmn with hlater | rfl
      · refine hturns n hlater ?_
        rw [← (hrecord n).2]
        exact next_of_dispatched (disciplined_run hfresh n) hptr
      · exact hafter
    rcases turn_records hfresh hrecord n with
      ⟨_, _, hle, _⟩ | ⟨_, _, _, hnew, hnext⟩ | ⟨hidle, _⟩ | ⟨hidle, _⟩
    · omega
    · rw [(hrecord n).2] at hnext
      refine hnext.mp (hagain.resolve_left ?_)
      rw [hnew, preempt_remain]
      omega
    · rw [hptr.turn] at hidle
      cases hidle
    · rw [hptr.turn] at hidle
      cases hidle
  · intro halone
    have hserved : ∀ n, m ≤ n → Dispatched (loop.state (start head) n) (record n) →
        ¬ 0 < (record (n + 1)).remain ∨ Next p.pid (loop.state (start head) (n + 1)) := by
      intro n hmn hptr
      rcases turn_records hfresh hrecord n with
        ⟨_, _, _, _, hnew⟩ | ⟨_, hlt, _, _, hnext⟩ | ⟨hidle, _⟩ | ⟨hidle, _⟩
      · rw [hnew]
        exact .inl (by simp)
      · rw [(hrecord n).2] at hnext
        exact .inr (hnext.mpr (halone n hmn hptr hlt))
      · rw [hptr.turn] at hidle
        cases hidle
      · rw [hptr.turn] at hidle
        cases hidle
    refine ⟨hserved m (Nat.le_refl m) hfirst, ?_⟩
    intro n hmn hn
    rcases turn_records hfresh hrecord n with
      ⟨hptr, _⟩ | ⟨hptr, _⟩ | ⟨_, _, _, hnext⟩ | ⟨_, hwait, _⟩
    · exact hserved n (Nat.le_of_succ_le hmn) hptr
    · exact hserved n (Nat.le_of_succ_le hmn) hptr
    · rw [(hrecord n).2] at hnext
      exact .inr (hnext.mpr hn)
    · rw [(hrecord n).2] at hwait
      exact absurd hn hwait

end Records

theorem FirstTurn.unique {head : List Process} {ptr ptr' : Process} {m n : Nat}
    (hm : FirstTurn head ptr m) (hn : FirstTurn head ptr' n) (hpid : ptr.pid = ptr'.pid) :
    m = n ∧ ptr = ptr' := by
  have hsame : m = n := by
    rcases Nat.lt_trichotomy m n with hlt | heq | hlt
    · have hidle := hn.2 m hlt
      rw [← hpid, hm.1.turn] at hidle
      cases hidle
    · exact heq
    · have hidle := hm.2 n hlt
      rw [hpid, hn.1.turn] at hidle
      cases hidle
  subst hsame
  have hfound := hm.1.found
  rw [hpid, hn.1.found] at hfound
  exact ⟨rfl, (Option.some.inj hfound).symm⟩

/-- A process that has finished responded at its first turn if and only if it was alone at
each of its preemptions. -/
theorem respondsAtFirstTurn_iff {head : List Process} (hfresh : Fresh head) {k : Nat}
    {q : Process} (hq : q ∈ (loop.state (start head) k).head) (hdone : q.remain = 0) :
    RespondsAtFirstTurn head q ↔
      ∀ n ptr, Dispatched (loop.state (start head) n) ptr → ptr.pid = q.pid →
        quantum (loop.state (start head) n).level < ptr.remain →
          Alone (loop.state (start head) n) q.pid := by
  obtain ⟨p, hp, hpid⟩ : ∃ p ∈ head, p.pid = q.pid := by
    have hmem := List.mem_map_of_mem (f := Process.pid) hq
    rw [map_pid_run] at hmem
    exact List.mem_map.mp hmem
  obtain ⟨record, hrecord⟩ := exists_records hp
  have hsame : ∀ {n : Nat} {r : Process}, r ∈ (loop.state (start head) n).head →
      r.pid = p.pid → record n = r := by
    intro n r hr hrpid
    exact eq_of_pid_eq (disciplined_run hfresh n).nodup (hrecord n).1 hr
      ((hrecord n).2.trans hrpid.symm)
  have hzero : record 0 = p := by
    refine hsame ?_ rfl
    rw [Loop.state_zero, (filled_start head).head_eq]
    exact hp
  have hlast : record k = q := hsame hq hpid.symm
  have hbt := hfresh.bt_pos p hp
  have hremain := hfresh.remain_eq p hp
  obtain ⟨m, hmk, hfirst, hunserved⟩ := exists_firstTurn (k := k) hfresh hrecord
    (by rw [hzero]; omega) (by rw [hlast]; omega)
  rw [hunserved, hzero] at hfirst
  rw [hzero] at hunserved
  have hat : ∀ n, (record n).at = p.at := by
    intro n
    induction n with
    | zero => rw [hzero]
    | succ n ih => rw [record_at_succ hfresh hrecord, ih]
  have hptr : Dispatched (loop.state (start head) m) (record m) := by
    rw [hunserved]
    exact hfirst.1
  have hstart := delay_after_turn hfresh hrecord hptr (by rw [hunserved]; exact hbt)
    (by rw [hunserved]; exact hremain)
  rw [hunserved] at hstart
  have hiff := (waits_records hfresh hrecord hstart.1).delay_eq_iff hmk (by rw [hlast]; omega)
  simp only [hlast] at hiff
  rw [hstart.2, delay_of_finished (by omega)] at hiff
  have hresponds : RespondsAtFirstTurn head q ↔
      q.rt = dispatchTime (loop.state (start head) m).currentTime p - p.at := by
    have hqat : q.at = p.at := by rw [← hlast, hat]
    constructor
    · rintro ⟨n, ptr, hn, hptr, hrt⟩
      obtain ⟨rfl, rfl⟩ := hfirst.unique hn (hpid.trans hptr.symm)
      rw [hrt, hqat]
    · intro hrt
      exact ⟨m, p, hfirst, hpid, by rw [hrt, hqat]⟩
  rw [hresponds, hiff, always_next_iff hfresh hrecord hptr, ← hpid]
  constructor
  · intro halone n ptr hptr hptrpid hlt
    obtain rfl := hsame (findProcess_mem hptr.found) hptrpid
    refine halone n ?_ hptr hlt
    -- before the first turn the process was not dispatched
    by_contra hbefore
    have hidle := hfirst.2 n (by omega)
    rw [← hptrpid, hptr.turn] at hidle
    cases hidle
  · intro halone n _ hptr hlt
    exact halone n (record n) hptr (hrecord n).2 hlt

end SyscallSched.Simulators.Mlfq
