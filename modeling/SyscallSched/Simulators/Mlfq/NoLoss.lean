import SyscallSched.Simulators.Mlfq.Cells

/-!
# Dropped processes

A preempted process is dropped when `rear` of the lowest level has reached the
end of the array.  A dropped process is in no queue and is never finished, so
`mlfq` completes every process exactly when the demand fits in the array.
-/

namespace SyscallSched.Simulators.Mlfq

open SyscallSched.Foundation

/-- An unfinished process that is in no queue. -/
def Lost (s : State) : Prop :=
  ∃ p ∈ s.head, 0 < p.remain ∧ p.pid ∉ s.queued

section Step

variable {s : State}

/-- Either nothing is dropped and the demand stays, or shrinks within the size
of the array, or a process is dropped because the demand is larger. -/
theorem step_cells (h : Disciplined s) (hcompact : Compact s) :
    ((step s).overflows = s.overflows ∧ ((step s).cells = s.cells ∨
      ((step s).cells ≤ s.cells ∧ s.cells ≤ 100))) ∨
    (100 < s.cells ∧ Lost (step s) ∧ ∃ live < 100,
      (step s).overflows = s.overflows ++ [(2, live)]) := by
  rcases step_cases h with
    ⟨-, -, hstep⟩ | ⟨-, hstep⟩ | ⟨ptr, rest, queue, hhead, hcase⟩
  · rw [hstep]
    exact .inl ⟨rfl, .inl rfl⟩
  · rw [hstep]
    exact .inl ⟨rfl, .inl rfl⟩
  · have hlevels : s.level < 2 ∨ s.level = 2 := by
      have hlt := hhead.lt
      unfold LEVELS at hlt
      omega
    rcases hcase with ⟨hle, hstep⟩ | ⟨hlt, hstep⟩
    · rw [hstep]
      rcases hlevels with hlevel | hlevel
      · exact .inl ⟨rfl, .inl (cells_finish_upper h hhead hlevel hle)⟩
      · exact .inl ⟨rfl, cells_finish_lowest h hcompact hhead hlevel hle⟩
    · rw [hstep]
      rcases hlevels with hlevel | hlevel
      · have hpush := rear_ne_of_compact hhead hcompact hlevel
        obtain ⟨hcells, hover⟩ := cells_preempt_upper h hhead hlevel hpush
        exact .inl ⟨hover, .inl hcells⟩
      · have hdemoted : demotedLevel s.level = 2 := by
          simp [demotedLevel, LEVELS, hlevel]
        by_cases hfull : ((suspended s ptr queue).queue 2).rear = MAX - 1
        · refine .inr ⟨cells_full h hhead hlevel hlt hfull, ?_⟩
          have hlen := hcompact.queued_le
          have hlive := length_live_popped_lt hhead (show 2 < LEVELS by decide)
          rw [preempt_popped, hdemoted, enqueue_full hfull]
          constructor
          · obtain ⟨p, hp, hpid, hpos, -⟩ := entry_suspended h hhead hlt
            refine ⟨p, hp, hpos, ?_⟩
            rw [hpid]
            exact ptr_not_mem_popped h hhead
          · refine ⟨((popped s queue).live 2).length, by omega, rfl⟩
        · refine .inl ⟨?_, cells_preempt_lowest h hcompact hhead hlevel hlt hfull⟩
          rw [preempt_popped, hdemoted, enqueue_push hfull]
          rfl

theorem map_pid_step (s : State) :
    (step s).head.map Process.pid = s.head.map Process.pid := by
  unfold step
  split
  · split
    · rfl
    · split
      · rfl
      · split
        · exact map_updateProcess Process.pid (complete_pid _) _ _
        · rw [preempt, enqueue_head]
          exact map_updateProcess Process.pid (preempt_pid _) _ _
  · rfl

theorem mem_head_step (h : Disciplined s) {p : Process} (hp : p ∈ s.head)
    (hnot : p.pid ∉ s.queued) : p ∈ (step s).head := by
  rcases step_cases h with
    ⟨-, -, hstep⟩ | ⟨-, hstep⟩ | ⟨ptr, rest, queue, hhead, hcase⟩
  · rw [hstep]
    exact hp
  · rw [hstep]
    exact hp
  · have hne : p.pid ≠ ptr.pid := by
      intro heq
      rw [heq] at hnot
      exact hnot ((queued_popped hhead).mem_iff.mpr (List.mem_cons_self))
    have hmem : ∀ f, p ∈ updateProcess f ptr.pid s.head := fun f =>
      (mem_updateProcess h.nodup (findProcess_of_mem h.nodup hhead.mem)).mpr
        (.inr ⟨hp, hne⟩)
    rcases hcase with ⟨-, hstep⟩ | ⟨-, hstep⟩
    · rw [hstep]
      exact hmem _
    · rw [hstep, preempt_popped, enqueue_head]
      exact hmem _

theorem lost_step (h : Disciplined s) (hlost : Lost s) : Lost (step s) := by
  obtain ⟨p, hp, hpos, hnot⟩ := hlost
  exact ⟨p, mem_head_step h hp hnot, hpos, fun hmem =>
    hnot (queued_step_subset h hmem)⟩

theorem kept_step (h : Disciplined s)
    (hkept : ∀ p ∈ s.head, 0 < p.remain → p.pid ∈ s.queued)
    (hover : (step s).overflows = []) :
    ∀ p ∈ (step s).head, 0 < p.remain → p.pid ∈ (step s).queued := by
  rcases step_cases h with
    ⟨-, -, hstep⟩ | ⟨-, hstep⟩ | ⟨ptr, rest, queue, hhead, hcase⟩
  · rw [hstep]
    exact hkept
  · rw [hstep]
    exact hkept
  · have hmem := fun f p => mem_updateProcess (f := f) (q := p) h.nodup
      (findProcess_of_mem h.nodup hhead.mem)
    rcases hcase with ⟨-, hstep⟩ | ⟨-, hstep⟩
    · rw [hstep]
      intro p hp hpos
      rcases (hmem _ p).mp hp with rfl | ⟨hp, hne⟩
      · simp at hpos
      · have hqueued := (queued_popped hhead).mem_iff.mp (hkept p hp hpos)
        rcases List.mem_cons.mp hqueued with heq | hqueued
        · contradiction
        · exact hqueued
    · rw [hstep] at hover ⊢
      rcases queued_preempt h hhead with ⟨hperm, -⟩ | ⟨-, hne⟩
      · intro p hp hpos
        rw [preempt_popped, enqueue_head] at hp
        refine hperm.mem_iff.mpr ?_
        rcases (hmem _ p).mp hp with rfl | ⟨hp, -⟩
        · exact (queued_popped hhead).mem_iff.mpr (List.mem_cons_self)
        · exact hkept p hp hpos
      · contradiction

theorem stamped_step (h : Disciplined s)
    (hs : 0 ≤ s.currentTime ∧ ∀ p ∈ s.head, p.remain = 0 → 0 ≤ p.ct) :
    0 ≤ (step s).currentTime ∧
      ∀ p ∈ (step s).head, p.remain = 0 → 0 ≤ p.ct := by
  obtain ⟨htime, hct⟩ := hs
  rcases step_cases h with
    ⟨-, -, hstep⟩ | ⟨-, hstep⟩ | ⟨ptr, rest, queue, hhead, hcase⟩
  · rw [hstep]
    exact ⟨htime, hct⟩
  · rw [hstep]
    exact ⟨by simp only; omega, hct⟩
  · have hle := (le_dispatchTime s.currentTime ptr).1
    have hpos := hhead.pos
    have hquantum := quantum_pos s.level
    have hmem := fun f p => mem_updateProcess (f := f) (q := p) h.nodup
      (findProcess_of_mem h.nodup hhead.mem)
    rcases hcase with ⟨-, hstep⟩ | ⟨hlt, hstep⟩
    · rw [hstep]
      constructor
      · change 0 ≤ dispatchTime s.currentTime ptr + ptr.remain
        omega
      · intro p hp hzero
        rcases (hmem _ p).mp hp with rfl | ⟨hp, -⟩
        · change 0 ≤ dispatchTime s.currentTime ptr + ptr.remain
          omega
        · exact hct p hp hzero
    · rw [hstep, preempt_popped, enqueue_head, enqueue_currentTime]
      constructor
      · change 0 ≤ dispatchTime s.currentTime ptr + quantum s.level
        omega
      · intro p hp hzero
        rcases (hmem _ p).mp hp with rfl | ⟨hp, -⟩
        · simp only [preempt_remain] at hzero
          omega
        · exact hct p hp hzero

end Step

/-! ## Whole runs -/

/-- What is known of every state of a run of `mlfq(head)`. -/
structure Traced (head : List Process) (s : State) : Prop extends
    Disciplined s, Compact s where
  pids : s.head.map Process.pid = head.map Process.pid
  kept : s.overflows = [] → ∀ p ∈ s.head, 0 < p.remain → p.pid ∈ s.queued
  lost : s.overflows ≠ [] → Lost s
  small : ∀ line ∈ s.overflows, (line.2 : Int) < MAX
  stamped : 0 ≤ s.currentTime ∧ ∀ p ∈ s.head, p.remain = 0 → 0 ≤ p.ct

theorem traced_start {head : List Process} (hfresh : Fresh head)
    (hlen : head.length ≤ 100) : Traced head (start head) := by
  have h := filled_start head
  have hover := h.overflows_eq hlen
  refine ⟨disciplined_start hfresh, compact_start head, ?_, ?_, ?_, ?_, ?_⟩
  · rw [h.head_eq]
  · intro _ p hp _
    rw [h.head_eq] at hp
    rw [queued_start, List.take_of_length_le (by simpa using hlen)]
    exact List.mem_map_of_mem hp
  · intro hne
    contradiction
  · simp [hover]
  · rw [h.currentTime_eq, h.head_eq]
    refine ⟨Int.le_refl 0, ?_⟩
    intro p hp hzero
    have hbt := hfresh.bt_pos p hp
    have hremain := hfresh.remain_eq p hp
    omega

theorem traced_step {head : List Process} {s : State} (h : Traced head s) :
    Traced head (step s) := by
  have hcells := step_cells h.toDisciplined h.toCompact
  refine ⟨disciplined_step h.toDisciplined,
    compact_step h.toDisciplined h.toCompact,
    (map_pid_step s).trans h.pids, ?_, ?_, ?_,
    stamped_step h.toDisciplined h.stamped⟩
  · intro hover
    have hbefore : s.overflows = [] := by
      rcases hcells with ⟨heq, -⟩ | ⟨-, -, live, -, heq⟩
      · rw [← heq]
        exact hover
      · simp [heq] at hover
    exact kept_step h.toDisciplined (h.kept hbefore) hover
  · intro hover
    rcases hcells with ⟨heq, -⟩ | ⟨-, hlost, -⟩
    · rw [heq] at hover
      exact lost_step h.toDisciplined (h.lost hover)
    · exact hlost
  · rcases hcells with ⟨heq, -⟩ | ⟨-, -, live, hlive, heq⟩
    · rw [heq]
      exact h.small
    · intro line hline
      rw [heq] at hline
      rcases List.mem_append.mp hline with hline | hline
      · exact h.small line hline
      · rw [List.mem_singleton] at hline
        subst line
        unfold MAX
        exact_mod_cast hlive

theorem traced_run {head : List Process} (hfresh : Fresh head)
    (hlen : head.length ≤ 100) (n : Nat) :
    Traced head (loop.state (start head) n) :=
  loop.invariant (traced_start hfresh hlen) (fun _ ht _ => traced_step ht) n

theorem cells_start {head : List Process} (hfresh : Fresh head)
    (hlen : head.length ≤ 100) : (start head).cells = demand head := by
  have h := filled_start head
  have hrear := ArrayQueue.rear_eq_of_live_nil (h.valid 2)
    (h.live_pos 2 (by decide))
  have hpending : (start head).pending =
      head.flatMap fun p => rounds 0 p.bt := by
    rw [State.pending, h.live_pos 2 (by decide), h.live_pos 1 (by decide),
      h.live_zero, List.take_of_length_le (by simpa using hlen), h.head_eq,
      List.flatMap_map]
    apply List.flatMap_congr
    intro p hp
    rw [roundsOf_of_mem hfresh.nodup hp, hfresh.remain_eq p hp]
  rw [State.cells, hrear, hpending, h.live_pos 2 (by decide), demand]
  simp

theorem live_of_exit {s : State} (h : Disciplined s) (hexit : loop.guard s = false)
    {level : Nat} (hlevel : level < LEVELS) : s.live level = [] := by
  have hend : s.level = LEVELS := by
    simp only [loop, Bool.not_eq_false', Bool.and_eq_true, beq_iff_eq] at hexit
    exact hexit.1
  exact h.drained level (hend ▸ hlevel) hlevel

theorem queued_of_exit {s : State} (h : Disciplined s)
    (hexit : loop.guard s = false) : s.queued = [] := by
  simp [State.queued, live_of_exit h hexit (show 0 < LEVELS by decide),
    live_of_exit h hexit (show 1 < LEVELS by decide),
    live_of_exit h hexit (show 2 < LEVELS by decide)]

theorem cells_of_exit {s : State} (h : Disciplined s)
    (hexit : loop.guard s = false) : s.cells = 0 := by
  have hnil := fun {level} (hl : level < LEVELS) => live_of_exit h hexit hl
  have hrear := ArrayQueue.rear_eq_of_live_nil (h.valid 2) (hnil (by decide))
  rw [State.cells, State.pending, hnil (by decide), hnil (by decide),
    hnil (by decide), hrear]
  simp

theorem overflows_nil_iff {head : List Process} (hfresh : Fresh head)
    (hlen : head.length ≤ 100) :
    (∀ n, (loop.state (start head) n).overflows = []) ↔
      (demand head : Int) ≤ MAX := by
  have hstep := fun n => step_cells (traced_run hfresh hlen n).toDisciplined
    (traced_run hfresh hlen n).toCompact
  have hstart := cells_start hfresh hlen
  constructor
  · intro hnone
    by_contra hlarge
    unfold MAX at hlarge
    have hcells : ∀ n, (loop.state (start head) n).cells = demand head := by
      intro n
      induction n with
      | zero => exact hstart
      | succ n ih =>
          have hnext := hnone (n + 1)
          cases hguard : loop.guard (loop.state (start head) n) with
          | false =>
              rw [loop.state_succ, loop.next_of_not_guard hguard]
              exact ih
          | true =>
              rw [loop.state_succ_of_guard hguard] at hnext ⊢
              rcases hstep n with ⟨-, heq | ⟨-, hle⟩⟩ | ⟨-, -, live, -, heq⟩
              · exact heq.trans ih
              · omega
              · rw [show loop.body = step from rfl, heq] at hnext
                simp at hnext
    obtain ⟨final, n, hfinal, hexit⟩ := returns hfresh
    have hzero := cells_of_exit (hfinal ▸ (traced_run hfresh hlen n).toDisciplined)
      hexit
    have hdemand := hcells n
    rw [hfinal, hzero] at hdemand
    omega
  · intro hfits n
    unfold MAX at hfits
    have hboth : (loop.state (start head) n).overflows = [] ∧
        (loop.state (start head) n).cells ≤ demand head := by
      induction n with
      | zero =>
          exact ⟨(filled_start head).overflows_eq hlen, Int.le_of_eq hstart⟩
      | succ n ih =>
          obtain ⟨hover, hle⟩ := ih
          cases hguard : loop.guard (loop.state (start head) n) with
          | false =>
              rw [loop.state_succ, loop.next_of_not_guard hguard]
              exact ⟨hover, hle⟩
          | true =>
              rw [loop.state_succ_of_guard hguard]
              rcases hstep n with ⟨heq, hcells⟩ | ⟨hlarge, -⟩
              · refine ⟨heq.trans hover, ?_⟩
                change (step (loop.state (start head) n)).cells ≤ _
                omega
              · omega
    exact hboth.1

/-- Every process of the list is finished when `mlfq(head)` returns. -/
def LosesNone (head : List Process) : Prop :=
  ∀ final, Returns head final → ∀ q ∈ head, ∃ p ∈ final.head,
    p.pid = q.pid ∧ p.remain = 0 ∧ p.ct ≠ -1

/-- `enqueue` reports an overflow only when the level holds `MAX` entries. -/
def OverflowsOnlyFull (head : List Process) : Prop :=
  ∀ n, ∀ line ∈ (loop.state (start head) n).overflows, MAX ≤ line.2

theorem losesNone_of_overflows_nil {head : List Process} (hfresh : Fresh head)
    (hlen : head.length ≤ 100)
    (hnone : ∀ n, (loop.state (start head) n).overflows = []) :
    LosesNone head := by
  rintro final ⟨n, rfl, hexit⟩ q hq
  have h := traced_run hfresh hlen n
  have hmem : q.pid ∈ (loop.state (start head) n).head.map Process.pid := by
    rw [h.pids]
    exact List.mem_map_of_mem hq
  obtain ⟨p, hp, hpid⟩ := List.mem_map.mp hmem
  have hzero : p.remain = 0 := by
    have hnonneg := (h.accounted p hp).remain_nonneg
    by_contra hne
    have hqueued := h.kept (hnone n) p hp (by omega)
    rw [queued_of_exit h.toDisciplined hexit] at hqueued
    simp at hqueued
  have hct := h.stamped.2 p hp hzero
  exact ⟨p, hp, hpid, hzero, by omega⟩

theorem overflows_ne_nil_step {head : List Process} {s : State}
    (h : Traced head s) (hne : s.overflows ≠ []) :
    (step s).overflows ≠ [] := by
  cases step_cells h.toDisciplined h.toCompact with
  | inl hkeep =>
      rw [hkeep.1]
      exact hne
  | inr hdrop =>
      obtain ⟨-, -, live, -, heq⟩ := hdrop
      simp [heq]

/-- A dropped process is unfinished when the run ends. -/
theorem overflows_nil_of_losesNone {head : List Process} (hfresh : Fresh head)
    (hlen : head.length ≤ 100) (hnone : LosesNone head) (n : Nat) :
    (loop.state (start head) n).overflows = [] := by
  by_contra hne
  obtain ⟨final, m, hfinal, hexit⟩ := returns hfresh
  have hlater := loop.invariant
    (P := fun s => Traced head s ∧ s.overflows ≠ [])
    ⟨traced_run hfresh hlen n, hne⟩
    (fun _ ht _ => ⟨traced_step ht.1, overflows_ne_nil_step ht.1 ht.2⟩) m
  have hend : loop.state (loop.state (start head) n) m = final := by
    rw [← loop.state_add, loop.state_eq_of_exit (hfinal ▸ hexit)
      (Nat.le_add_left m n), hfinal]
  rw [hend] at hlater
  obtain ⟨htraced, hover⟩ := hlater
  obtain ⟨p, hp, hpos, -⟩ := htraced.lost hover
  have hmem : p.pid ∈ head.map Process.pid := by
    rw [← htraced.pids]
    exact List.mem_map_of_mem hp
  obtain ⟨q, hq, hpid⟩ := List.mem_map.mp hmem
  obtain ⟨p', hp', hpid', hzero, -⟩ := hnone final ⟨m, hfinal, hexit⟩ q hq
  have hsame := eq_of_pid_eq htraced.nodup hp' hp (hpid'.trans hpid)
  subst p'
  omega

/-- `mlfq` returns on every list of at most `MAX` processes.  It finishes all
of them, and reports no overflow of a level that has fewer than `MAX` entries,
exactly when the lowest level needs no more than `MAX` cells. -/
theorem mlfq_losesNone_iff {head : List Process} (hfresh : Fresh head)
    (hlen : (head.length : Int) ≤ MAX) :
    (∃ final, Returns head final) ∧
      (LosesNone head ↔ (demand head : Int) ≤ MAX) ∧
      (OverflowsOnlyFull head ↔ (demand head : Int) ≤ MAX) := by
  have hlen' : head.length ≤ 100 := by
    unfold MAX at hlen
    omega
  have hiff := overflows_nil_iff hfresh hlen'
  refine ⟨returns hfresh, ?_, ?_⟩
  · rw [← hiff]
    exact ⟨overflows_nil_of_losesNone hfresh hlen',
      losesNone_of_overflows_nil hfresh hlen'⟩
  · rw [← hiff]
    constructor
    · intro hfull n
      apply List.eq_nil_iff_forall_not_mem.mpr
      intro line hline
      have hsmall := (traced_run hfresh hlen' n).small line hline
      have hlarge := hfull n line hline
      omega
    · intro hnone n line hline
      simp [hnone n] at hline

/-- Two processes that rotate at the lowest level for more than 50 rounds. -/
def rotatingBursts : List Process :=
  assignProcessors 1 (createProcesses 0 [⟨1, 0, 407⟩, ⟨2, 0, 407⟩])

theorem rotatingBursts_lost :
    ¬ LosesNone rotatingBursts ∧ ¬ OverflowsOnlyFull rotatingBursts := by
  constructor
  · intro h
    obtain ⟨p, hp, hpid, hzero, -⟩ := h (loop.state (start rotatingBursts) 120)
      ⟨120, rfl, by decide +kernel⟩ ⟨1, 0, 407, 0, -1, -1, -1, -1, 407⟩ (by decide)
    revert p
    decide +kernel
  · intro h
    have hfull := h 120 (2, 1) (by decide +kernel)
    revert hfull
    decide

theorem shortBursts_losesNone :
    LosesNone (assignProcessors 1 (createProcesses 0 [⟨1, 0, 30⟩, ⟨2, 3, 7⟩])) :=
  (mlfq_losesNone_iff (fresh_input 1 0 (by decide) (by decide))
    (by decide)).2.1.mpr (by decide)

end SyscallSched.Simulators.Mlfq
