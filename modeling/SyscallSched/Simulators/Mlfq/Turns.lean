import SyscallSched.Simulators.Mlfq.Invariant

/-!
# The turns of a process in `mlfq`

A process takes its first turn at level 0, its second at level 1 and all others at
level 2.  So the number of its turns and the units it has received determine each
other while it is unfinished, and the last turn is the one that covers its burst time.
-/

namespace SyscallSched.Simulators.Mlfq

open SyscallSched.Foundation

def dispatches (pid : Int) (s : State) : Bool :=
  decide (s.level < LEVELS) && (s.queue s.level).pop.any fun r => decide (r.1 = pid)

def turns (bt : Int) : Nat :=
  if bt ≤ 2 then 1 else if bt ≤ 6 then 2 else 2 + ((bt - 6 + 7) / 8).toNat

def units : Nat → Int
  | 0 => 0
  | 1 => 2
  | k + 2 => 6 + 8 * k

theorem units_succ {level : Nat} (hlevel : level < LEVELS) {p : Process}
    (h : Received level p) {c : Nat} (hc : p.bt - p.remain = units c) :
    units (c + 1) = units c + quantum level := by
  have hcases : level = 0 ∨ level = 1 ∨ level = 2 := by
    unfold LEVELS at hlevel
    omega
  rcases hcases with rfl | rfl | rfl
  · change p.bt - p.remain = 0 at h
    rcases c with _ | _ | c
    · rfl
    · simp only [units] at hc
      omega
    · simp only [units] at hc
      omega
  · change p.bt - p.remain = 2 at h
    rcases c with _ | _ | c
    · simp only [units] at hc
      omega
    · rfl
    · simp only [units] at hc
      omega
  · obtain ⟨k, hk⟩ := h
    rcases c with _ | _ | c
    · simp only [units] at hc
      omega
    · simp only [units] at hc
      omega
    · change 6 + 8 * ((c + 1 : Nat) : Int) = 6 + 8 * (c : Int) + 8
      push_cast
      ring

structure Counted (c : Nat) (p : Process) : Prop where
  unfinished : 0 < p.remain → p.bt - p.remain = units c
  finished : p.remain = 0 → ∃ k, c = k + 1 ∧ units k < p.bt ∧ p.bt ≤ units (k + 1)

theorem Counted.turns_eq {c : Nat} {p : Process} (h : Counted c p) (hzero : p.remain = 0) :
    c = turns p.bt := by
  obtain ⟨k, rfl, hlt, hle⟩ := h.finished hzero
  unfold turns
  rcases k with _ | _ | k
  · simp only [units] at hlt hle
    rw [if_pos hle]
  · simp only [units] at hlt hle
    rw [if_neg (by omega), if_pos (by omega)]
  · change 6 + 8 * (k : Int) < p.bt at hlt
    change p.bt ≤ 6 + 8 * ((k + 1 : Nat) : Int) at hle
    push_cast at hle
    rw [if_neg (by omega), if_neg (by omega)]
    omega

section

variable {s : State} {ptr : Process} {rest : List Int} {queue : ArrayQueue Int} {pid : Int}

theorem dispatches_of_head (h : Disciplined s) (hhead : Head s ptr rest queue) (pid : Int) :
    dispatches pid s = decide (ptr.pid = pid) := by
  obtain ⟨queue', hpop, _⟩ := ArrayQueue.pop_of_live_cons (h.valid s.level) hhead.live_eq
  simp [dispatches, hhead.lt, hpop]

theorem dispatches_of_empty (h : Disciplined s) (hnil : s.live s.level = []) (pid : Int) :
    dispatches pid s = false := by
  have hpop := (ArrayQueue.pop_eq_none_iff (h.valid s.level)).mpr hnil
  simp [dispatches, hpop]

theorem counted_finish {c : Nat} (hhead : Head s ptr rest queue) (h : Counted c ptr)
    (hle : ptr.remain ≤ quantum s.level) (t : Int) : Counted (c + 1) (ptr.complete t) := by
  have hpos := hhead.pos
  have hc := h.unfinished hpos
  have hnext := units_succ hhead.lt hhead.received hc
  constructor
  case unfinished =>
    intro hremain
    simp at hremain
  case finished =>
    intro _
    refine ⟨c, rfl, ?_, ?_⟩
    · simp only [complete_bt]
      omega
    · simp only [complete_bt]
      omega

theorem counted_preempt {c : Nat} (hhead : Head s ptr rest queue) (h : Counted c ptr)
    (hlt : quantum s.level < ptr.remain) :
    Counted (c + 1) (ptr.preempt (quantum s.level)) := by
  have hc := h.unfinished hhead.pos
  have hnext := units_succ hhead.lt hhead.received hc
  constructor
  case unfinished =>
    intro _
    simp only [preempt_bt, preempt_remain]
    omega
  case finished =>
    intro hzero
    simp only [preempt_remain] at hzero
    omega

def nextCount (count : Int → Nat) (s : State) (pid : Int) : Nat :=
  count pid + if dispatches pid s then 1 else 0

theorem counted_step (h : Disciplined s) (count : Int → Nat)
    (hcount : ∀ p ∈ s.head, Counted (count p.pid) p) :
    ∀ p ∈ (step s).head, Counted (nextCount count s p.pid) p := by
  have hserved : ∀ {ptr : Process} {rest : List Int} {queue : ArrayQueue Int}
      {f : Process → Process}, Head s ptr rest queue → (∀ p, (f p).pid = p.pid) →
      Counted (count ptr.pid + 1) (f ptr) →
      ∀ p ∈ updateProcess f ptr.pid s.head, Counted (nextCount count s p.pid) p := by
    intro ptr rest queue f hhead hf hptr p hp
    rcases (mem_updateProcess h.nodup (findProcess_of_mem h.nodup hhead.mem)).mp hp with
      rfl | ⟨hp, hne⟩
    · rw [nextCount, dispatches_of_head h hhead, hf]
      simpa using hptr
    · rw [nextCount, dispatches_of_head h hhead]
      simpa [Ne.symm hne] using hcount p hp
  rcases step_cases h with
    ⟨_, hnil, hstep⟩ | ⟨hend, hstep⟩ | ⟨ptr, rest, queue, hhead, hcase⟩
  · rw [hstep]
    intro p hp
    simpa [nextCount, dispatches_of_empty h hnil] using hcount p hp
  · rw [hstep]
    intro p hp
    simpa [nextCount, dispatches, hend] using hcount p hp
  · rcases hcase with ⟨hle, hstep⟩ | ⟨hlt, hstep⟩
    · rw [hstep]
      exact hserved hhead (complete_pid _) (counted_finish hhead (hcount ptr hhead.mem) hle _)
    · rw [hstep, preempt_popped, enqueue_head]
      exact hserved hhead (preempt_pid _) (counted_preempt hhead (hcount ptr hhead.mem) hlt)

end

/-! ## Runs -/

theorem counted_run {head : List Process} (hfresh : Fresh head) (n : Nat) :
    ∀ p ∈ (loop.state (start head) n).head,
      Counted (loop.count (dispatches p.pid) (start head) n) p := by
  induction n with
  | zero =>
      intro p hp
      have hp' : p ∈ head := by
        rw [← (filled_start head).head_eq]
        exact hp
      have hbt := hfresh.bt_pos p hp'
      have hremain := hfresh.remain_eq p hp'
      constructor
      case unfinished =>
        intro _
        simp only [Loop.count_zero, units]
        omega
      case finished =>
        intro hzero
        omega
  | succ n ih =>
      have hdisciplined := disciplined_run hfresh n
      cases hguard : loop.guard (loop.state (start head) n) with
      | false =>
          intro p hp
          rw [Loop.state_succ, Loop.next_of_not_guard _ hguard] at hp
          rw [Loop.count_succ, hguard]
          simpa using ih p hp
      | true =>
          intro p hp
          rw [Loop.state_succ_of_guard _ hguard] at hp
          have hnext := counted_step hdisciplined
            (fun pid => loop.count (dispatches pid) (start head) n) ih p hp
          rw [Loop.count_succ, hguard]
          simpa [nextCount] using hnext

structure Dispatched (s : State) (ptr : Process) : Prop where
  turn : dispatches ptr.pid s = true
  found : findProcess s.head ptr.pid = some ptr

theorem Dispatched.head {s : State} (h : Disciplined s) {ptr : Process}
    (hptr : Dispatched s ptr) : ∃ rest queue, Head s ptr rest queue ∧
      ((ptr.remain ≤ quantum s.level ∧ step s = finish (popped s queue) ptr) ∨
        (quantum s.level < ptr.remain ∧ step s = preempt (popped s queue) ptr)) := by
  have hturn := hptr.turn
  rcases step_cases h with
    ⟨_, hnil, _⟩ | ⟨hend, _⟩ | ⟨ptr', rest, queue, hhead, hcase⟩
  · rw [dispatches_of_empty h hnil] at hturn
    cases hturn
  · simp [dispatches, hend] at hturn
  · rw [dispatches_of_head h hhead, decide_eq_true_eq] at hturn
    have hfind := findProcess_of_mem h.nodup hhead.mem
    rw [hturn, hptr.found] at hfind
    cases hfind
    exact ⟨rest, queue, hhead, hcase⟩

/-- Higher levels are empty when a level is served, the level tells the units received,
no process is served before it arrives, and a finished process had the number of turns
that its burst time takes. -/
theorem mlfq_level_discipline {head : List Process} (hfresh : Fresh head) (n : Nat) :
    let s := loop.state (start head) n
    (∀ ptr, Dispatched s ptr → (∀ j, j < s.level → s.live j = []) ∧ Received s.level ptr ∧
      ∃ t, ptr.at ≤ t ∧ s.currentTime ≤ t ∧
        (step s).currentTime = t + min ptr.remain (quantum s.level)) ∧
    ∀ p ∈ s.head, p.remain = 0 → p.at + p.bt ≤ p.ct ∧ p.wt = p.ct - p.at - p.bt ∧ 0 ≤ p.wt ∧
      loop.count (dispatches p.pid) (start head) n = turns p.bt := by
  intro s
  have hdisciplined : Disciplined s := disciplined_run hfresh n
  constructor
  · intro ptr hptr
    obtain ⟨rest, queue, hhead, hcase⟩ := hptr.head hdisciplined
    refine ⟨?_, hhead.received, dispatchTime s.currentTime ptr, ?_, ?_, ?_⟩
    · intro j hj
      exact hdisciplined.drained j hj (Nat.lt_trans hj hhead.lt)
    · exact (le_dispatchTime s.currentTime ptr).2
    · exact (le_dispatchTime s.currentTime ptr).1
    · rcases hcase with ⟨hle, hstep⟩ | ⟨hlt, hstep⟩
      · rw [hstep, min_eq_left hle]
        rfl
      · rw [hstep, min_eq_right (Int.le_of_lt hlt), preempt_popped, enqueue_currentTime]
        rfl
  · intro p hp hzero
    have haccounted := hdisciplined.accounted p hp
    obtain ⟨htat, hwt⟩ := haccounted.metrics hzero
    have hct := haccounted.le_ct hzero
    exact ⟨hct, by omega, by omega, (counted_run hfresh n p hp).turns_eq hzero⟩

def demotedHead : List Process := createProcesses 0 [⟨1, 0, 7⟩, ⟨2, 1, 4⟩, ⟨3, 3, 2⟩]

theorem demotedHead_dispatched :
    Dispatched (loop.state (start demotedHead) 7) ⟨1, 0, 7, 0, -1, -1, -1, -1, 1⟩ :=
  ⟨by decide +kernel, by decide +kernel⟩

/-- The first process is demoted twice and the second one once, while the third ends in its
first turn.  The last turn is one of the lowest level. -/
theorem mlfq_level_discipline_demotions :
    (loop.state (start demotedHead) 7).level = 2 ∧
    (∀ j, j < 2 → (loop.state (start demotedHead) 7).live j = []) ∧
    (∀ p ∈ (loop.state (start demotedHead) 8).head, p.remain = 0 ∧ 0 ≤ p.wt ∧
      loop.count (dispatches p.pid) (start demotedHead) 8 = turns p.bt) := by
  have hfresh : Fresh demotedHead := ⟨by decide, by decide, by decide⟩
  have hlevel : (loop.state (start demotedHead) 7).level = 2 := by decide +kernel
  have hdone : ∀ p ∈ (loop.state (start demotedHead) 8).head, p.remain = 0 := by decide +kernel
  refine ⟨hlevel, ?_, ?_⟩
  · have hturn := ((mlfq_level_discipline hfresh 7).1 _ demotedHead_dispatched).1
    rw [hlevel] at hturn
    exact hturn
  · intro p hp
    have hend := (mlfq_level_discipline hfresh 8).2 p hp (hdone p hp)
    exact ⟨hdone p hp, hend.2.2⟩

end SyscallSched.Simulators.Mlfq
