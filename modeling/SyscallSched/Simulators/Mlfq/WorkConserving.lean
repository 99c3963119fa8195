import SyscallSched.Simulators.Mlfq.Cells

/-!
# Idle processors in `mlfq`

All processes are queued at the highest level before the first dispatch, and
the clock jumps to the arrival of the one that is dispatched without a look at
the lower levels.  The first pass serves the list once, at most two units for
each process; every later dispatch is of a process that has arrived.
-/

namespace SyscallSched.Simulators.Mlfq

open SyscallSched.Foundation

def dispatched (s : State) : Option Process :=
  if s.level < LEVELS then
    match (s.queue s.level).pop with
    | none => none
    | some (pid, _) => findProcess s.head pid
  else none

/-- When the clock is moved to an arrival, no earlier arrival is unfinished. -/
def WorkConserving (head : List Process) : Prop :=
  ∀ n ptr, dispatched (loop.state (start head) n) = some ptr →
    ptr.at > (loop.state (start head) n).currentTime →
      ∀ q ∈ (loop.state (start head) n).head, q.pid ≠ ptr.pid →
        0 < q.remain → ¬ q.at < ptr.at

def NoneLeftWaiting (head : List Process) : Prop :=
  ∀ n ptr, dispatched (loop.state (start head) n) = some ptr →
    ptr.at > (loop.state (start head) n).currentTime →
      ∀ q ∈ (loop.state (start head) n).head, q.pid ≠ ptr.pid →
        0 < q.remain → q.at < ptr.at →
          ∀ level < LEVELS, q.pid ∉ (loop.state (start head) n).live level

/-- The clock after every process of the list was served at the highest level. -/
def clock (served : List Process) : Int :=
  served.foldl (fun t p => max t p.at + min p.bt 2) 0

/-- No process that is queued at first arrives after the clock of the first
pass once a process before it has to be served again. -/
def ArrivesInTime (head : List Process) : Prop :=
  ∀ k (hk : k < head.length), k < 100 → (∃ q ∈ head.take k, 2 < q.bt) →
    head[k].at ≤ clock (head.take k)

instance (head : List Process) : Decidable (ArrivesInTime head) :=
  inferInstanceAs (Decidable (∀ k (hk : k < head.length), k < 100 →
    (∃ q ∈ head.take k, 2 < q.bt) → head[k].at ≤ clock (head.take k)))

theorem arrivesInTime_iff_split {head : List Process} :
    ArrivesInTime head ↔ ∀ before ptr after, head = before ++ ptr :: after →
      before.length < 100 → (∃ q ∈ before, 2 < q.bt) →
        ptr.at ≤ clock before := by
  constructor
  · rintro h before ptr after rfl hlen hlong
    have hle := h before.length (by simp) hlen
    simp only [List.take_left, List.getElem_append_right, Nat.le_refl,
      Nat.sub_self, List.getElem_cons_zero] at hle
    exact hle hlong
  · intro h k hk hlen hlong
    refine h (head.take k) head[k] (head.drop (k + 1)) ?_ ?_ hlong
    · rw [List.cons_getElem_drop_succ, List.take_append_drop]
    · rw [List.length_take]
      omega

theorem clock_append (served : List Process) (p : Process) :
    clock (served ++ [p]) = max (clock served) p.at + min p.bt 2 := by
  simp [clock]

theorem dispatchTime_eq_max (t : Int) (p : Process) :
    dispatchTime t p = max t p.at := by
  unfold dispatchTime
  split <;> omega

theorem dispatched_eq_some {s : State} (h : Disciplined s) {ptr : Process}
    (hptr : dispatched s = some ptr) :
    s.level < LEVELS ∧ ptr ∈ s.head ∧ ∃ rest, s.live s.level = ptr.pid :: rest := by
  unfold dispatched at hptr
  split at hptr
  · rename_i hlt
    cases hlive : s.live s.level with
    | nil =>
        have hpop := (ArrayQueue.pop_eq_none_iff (h.valid s.level)).mpr hlive
        simp [hpop] at hptr
    | cons pid rest =>
        obtain ⟨queue, hpop, -⟩ :=
          ArrayQueue.pop_of_live_cons (h.valid s.level) hlive
        simp only [hpop] at hptr
        have hpid := (findProcess_eq_some hptr).1
        exact ⟨hlt, findProcess_mem hptr, rest, by rw [hpid]⟩
  · simp at hptr

theorem dispatched_of_live {s : State} (h : Disciplined s) {ptr : Process}
    {rest : List Int} (hlevel : s.level < LEVELS) (hptr : ptr ∈ s.head)
    (hlive : s.live s.level = ptr.pid :: rest) : dispatched s = some ptr := by
  obtain ⟨queue, hpop, -⟩ := ArrayQueue.pop_of_live_cons (h.valid s.level) hlive
  simp only [dispatched, if_pos hlevel, hpop]
  exact findProcess_of_mem h.nodup hptr

/-! ## After the first pass -/

theorem live_zero_step {s : State} (h : Disciplined s) (hzero : s.live 0 = []) :
    (step s).live 0 = [] := by
  rcases step_cases h with
    ⟨-, -, hstep⟩ | ⟨-, hstep⟩ | ⟨ptr, rest, queue, hhead, hcase⟩
  · rw [hstep]
    exact hzero
  · rw [hstep]
    exact hzero
  · have hlevel : 0 ≠ s.level := by
      intro hl
      have hlive := hhead.live_eq
      rw [← hl, hzero] at hlive
      contradiction
    have hpopped : (popped s queue).live 0 = [] := by
      rw [live_popped hhead, if_neg hlevel]
      exact hzero
    rcases hcase with ⟨-, hstep⟩ | ⟨-, hstep⟩
    · rw [hstep]
      exact hpopped
    · rw [hstep, preempt_popped]
      have hpos := (demotedLevel_lt hhead.lt).2.2
      have hvalid : ((suspended s ptr queue).queue (demotedLevel s.level)).Valid :=
        valid_popped h hhead _
      by_cases hfull :
          ((suspended s ptr queue).queue (demotedLevel s.level)).rear = MAX - 1
      · rw [enqueue_full hfull]
        exact hpopped
      · rw [live_enqueue_push _ hvalid hfull, if_neg (by omega)]
        exact hpopped

theorem arrived_of_live_zero {s : State} (h : Disciplined s)
    (hzero : s.live 0 = []) {ptr : Process} (hptr : dispatched s = some ptr) :
    ptr.at ≤ s.currentTime := by
  obtain ⟨hlt, hmem, rest, hlive⟩ := dispatched_eq_some h hptr
  have hlevel : 0 < s.level := by
    apply Nat.pos_of_ne_zero
    intro hl
    rw [hl, hzero] at hlive
    contradiction
  obtain ⟨p, hp, hpid, -, -, hat⟩ := h.entry s.level hlt ptr.pid (by simp [hlive])
  rw [← eq_of_pid_eq h.nodup hp hmem hpid]
  exact hat hlevel

/-! ## The first pass -/

/-- The first pass has served `before` and not yet `after`. -/
structure FirstPass (before after : List Process) (s : State) : Prop where
  level_eq : s.level = 0
  currentTime_eq : s.currentTime = clock before
  live_zero : s.live 0 = (after.take (100 - before.length)).map Process.pid
  live_one : s.live 1 =
    (before.filter fun p => decide (2 < p.bt)).map Process.pid
  unserved : ∀ p ∈ after, p ∈ s.head
  fresh : ∀ p ∈ after, p.remain = p.bt
  unfinished : ∀ p ∈ s.head, 0 < p.remain → p.pid ∈ s.live 1 ∨ p ∈ after

theorem firstPass_start {head : List Process} (hfresh : Fresh head) :
    FirstPass [] head (start head) := by
  have h := filled_start head
  refine ⟨h.level_eq, h.currentTime_eq, ?_, h.live_pos 1 (by decide), ?_,
    hfresh.remain_eq, ?_⟩
  · rw [h.live_zero, List.map_take]
    rfl
  · rw [h.head_eq]
    exact fun p hp => hp
  · rw [h.head_eq]
    exact fun p hp _ => .inr hp

section FirstPass

variable {before after : List Process} {ptr : Process} {s : State}

theorem FirstPass.live_cons (hpass : FirstPass before (ptr :: after) s)
    (hlen : before.length < 100) : s.live 0 =
      ptr.pid :: (after.take (100 - (before.length + 1))).map Process.pid := by
  have hk : 100 - before.length = 100 - (before.length + 1) + 1 := by omega
  rw [hpass.live_zero, hk, List.take_succ_cons, List.map_cons]

theorem FirstPass.dispatched_eq (hpass : FirstPass before (ptr :: after) s)
    (h : Disciplined s) (hlen : before.length < 100) :
    dispatched s = some ptr := by
  have hlive := hpass.live_cons hlen
  rw [← hpass.level_eq] at hlive
  refine dispatched_of_live h ?_ (hpass.unserved ptr (by simp)) hlive
  rw [hpass.level_eq]
  decide

theorem firstPass_finish (h : Disciplined s)
    (hpass : FirstPass before (ptr :: after) s) (hlen : before.length < 100)
    {rest : List Int} {queue : ArrayQueue Int}
    (hhead : Head s ptr rest queue) (hle : ptr.remain ≤ quantum s.level)
    (hnot : ∀ p ∈ after, p.pid ≠ ptr.pid) :
    FirstPass (before ++ [ptr]) after (finish (popped s queue) ptr) := by
  have hlevel := hpass.level_eq
  have hremain := hpass.fresh ptr (by simp)
  have hlive := hhead.live_eq
  have hmem := fun p => mem_updateProcess (q := p)
    (f := Process.complete (dispatchTime s.currentTime ptr + ptr.remain))
    h.nodup (findProcess_of_mem h.nodup hhead.mem)
  rw [hlevel, hpass.live_cons hlen, List.cons.injEq] at hlive
  rw [hlevel] at hle
  change ptr.remain ≤ 2 at hle
  have hone : (finish (popped s queue) ptr).live 1 = s.live 1 := by
    change (popped s queue).live 1 = _
    rw [live_popped hhead, if_neg (by omega)]
  constructor
  case level_eq => exact hlevel
  case currentTime_eq =>
    change dispatchTime s.currentTime ptr + ptr.remain = _
    rw [clock_append, dispatchTime_eq_max, hpass.currentTime_eq]
    omega
  case live_zero =>
    change (popped s queue).live 0 = _
    rw [live_popped hhead, if_pos hlevel.symm, ← hlive.2, List.length_append,
      List.length_singleton]
  case live_one =>
    have hshort : ¬ 2 < ptr.bt := by omega
    rw [hone, hpass.live_one]
    simp [hshort]
  case unserved =>
    intro p hp
    exact (hmem p).mpr (.inr ⟨hpass.unserved p (by simp [hp]), hnot p hp⟩)
  case fresh =>
    intro p hp
    exact hpass.fresh p (by simp [hp])
  case unfinished =>
    intro p hp hpos
    rw [hone]
    cases (hmem p).mp hp with
    | inl heq =>
        subst p
        simp at hpos
    | inr hother =>
        cases hpass.unfinished p hother.1 hpos with
        | inl hone => exact .inl hone
        | inr hafter =>
            cases List.mem_cons.mp hafter with
            | inl heq =>
                subst p
                exact absurd rfl hother.2
            | inr hafter => exact .inr hafter

theorem firstPass_preempt (h : Disciplined s) (hcompact : Compact s)
    (hpass : FirstPass before (ptr :: after) s) (hlen : before.length < 100)
    {rest : List Int} {queue : ArrayQueue Int}
    (hhead : Head s ptr rest queue) (hlt : quantum s.level < ptr.remain)
    (hnot : ∀ p ∈ after, p.pid ≠ ptr.pid) :
    FirstPass (before ++ [ptr]) after (preempt (popped s queue) ptr) := by
  have hlevel := hpass.level_eq
  have hremain := hpass.fresh ptr (by simp)
  have hlive := hhead.live_eq
  have hmem := fun p => mem_updateProcess (q := p)
    (f := Process.preempt (quantum s.level))
    h.nodup (findProcess_of_mem h.nodup hhead.mem)
  rw [hlevel, hpass.live_cons hlen, List.cons.injEq] at hlive
  have htwo : 2 < ptr.remain := by
    rw [hlevel] at hlt
    exact hlt
  have hdemoted : demotedLevel s.level = 1 := by
    simp [demotedLevel, LEVELS, hlevel]
  have hpush : ((suspended s ptr queue).queue 1).rear ≠ MAX - 1 := by
    have hfree := rear_ne_of_compact hhead hcompact (by omega)
    have hqueue := queue_suspended hhead
    rw [if_pos (by omega), hdemoted] at hqueue
    rw [hqueue]
    exact hfree
  have hvalid : ((suspended s ptr queue).queue 1).Valid := valid_popped h hhead 1
  have hnext : preempt (popped s queue) ptr =
      enqueue (suspended s ptr queue) 1 ptr.pid := by
    rw [preempt_popped, hdemoted]
  have hone : (preempt (popped s queue) ptr).live 1 = s.live 1 ++ [ptr.pid] := by
    rw [hnext, live_enqueue_push _ hvalid hpush, if_pos rfl]
    change (popped s queue).live 1 ++ _ = _
    rw [live_popped hhead, if_neg (by omega)]
  constructor
  case level_eq =>
    rw [hnext, enqueue_level]
    exact hlevel
  case currentTime_eq =>
    rw [hnext, enqueue_currentTime]
    change dispatchTime s.currentTime ptr + quantum s.level = _
    rw [clock_append, dispatchTime_eq_max, hpass.currentTime_eq, hlevel]
    change _ + 2 = _
    omega
  case live_zero =>
    rw [hnext, live_enqueue_push _ hvalid hpush, if_neg (by decide)]
    change (popped s queue).live 0 = _
    rw [live_popped hhead, if_pos hlevel.symm, ← hlive.2, List.length_append,
      List.length_singleton]
  case live_one =>
    have hlong : 2 < ptr.bt := by omega
    rw [hone, hpass.live_one]
    simp [hlong]
  case unserved =>
    intro p hp
    rw [hnext, enqueue_head]
    exact (hmem p).mpr (.inr ⟨hpass.unserved p (by simp [hp]), hnot p hp⟩)
  case fresh =>
    intro p hp
    exact hpass.fresh p (by simp [hp])
  case unfinished =>
    intro p hp hpos
    rw [hone, List.mem_append, List.mem_singleton]
    rw [hnext, enqueue_head] at hp
    cases (hmem p).mp hp with
    | inl heq =>
        subst p
        exact .inl (.inr rfl)
    | inr hother =>
        cases hpass.unfinished p hother.1 hpos with
        | inl hone => exact .inl (.inl hone)
        | inr hafter =>
            cases List.mem_cons.mp hafter with
            | inl heq =>
                subst p
                exact absurd rfl hother.2
            | inr hafter => exact .inr hafter

theorem firstPass_step (h : Disciplined s) (hcompact : Compact s)
    (hpass : FirstPass before (ptr :: after) s) (hlen : before.length < 100)
    (hnot : ∀ p ∈ after, p.pid ≠ ptr.pid) :
    FirstPass (before ++ [ptr]) after (step s) := by
  have hcons := hpass.live_cons hlen
  rcases step_cases h with
    ⟨-, hnil, -⟩ | ⟨hend, -⟩ | ⟨ptr', rest, queue, hhead, hcase⟩
  · rw [hpass.level_eq, hcons] at hnil
    contradiction
  · rw [hpass.level_eq] at hend
    contradiction
  · have hsame : ptr' = ptr := by
      have hlive := hhead.live_eq
      rw [hpass.level_eq, hcons, List.cons.injEq] at hlive
      exact eq_of_pid_eq h.nodup hhead.mem (hpass.unserved ptr (by simp))
        hlive.1.symm
    subst ptr'
    rcases hcase with ⟨hle, hstep⟩ | ⟨hlt, hstep⟩
    · rw [hstep]
      exact firstPass_finish h hpass hlen hhead hle hnot
    · rw [hstep]
      exact firstPass_preempt h hcompact hpass hlen hhead hlt hnot

end FirstPass

/-! ## Whole runs -/

section Runs

variable {head : List Process}

theorem firstPass_run (hfresh : Fresh head) (before : List Process) :
    ∀ after, head = before ++ after → before.length ≤ 100 →
      FirstPass before after (loop.state (start head) before.length) := by
  induction before using List.reverseRecOn with
  | nil =>
      intro after hsplit _
      rw [List.nil_append] at hsplit
      subst after
      exact firstPass_start hfresh
  | append_singleton before ptr ih =>
      intro after hsplit hlen
      rw [List.length_append, List.length_singleton] at hlen ⊢
      rw [List.append_assoc, List.singleton_append] at hsplit
      have hpass := ih (ptr :: after) hsplit (by omega)
      have hguard : loop.guard (loop.state (start head) before.length) = true := by
        apply guard_of_level_lt
        rw [hpass.level_eq]
        decide
      rw [loop.state_succ_of_guard hguard]
      refine firstPass_step (disciplined_run hfresh _) (compact_run hfresh _) hpass
        hlen ?_
      exact pid_ne_of_mem_after (hsplit ▸ hfresh.nodup) rfl

/-- Every state is one of the first pass, or nothing is left at the highest
level. -/
theorem firstPass_or_live_zero (hfresh : Fresh head) (n : Nat) :
    (∃ before ptr after, head = before ++ ptr :: after ∧ before.length = n ∧
      n < 100) ∨ (loop.state (start head) n).live 0 = [] := by
  by_cases hn : n < 100 ∧ n < head.length
  · refine .inl ⟨head.take n, head[n], head.drop (n + 1), ?_, ?_, hn.1⟩
    · rw [List.cons_getElem_drop_succ, List.take_append_drop]
    · simp [Nat.le_of_lt hn.2]
  · have hle : min 100 head.length ≤ n := by omega
    obtain ⟨k, rfl⟩ := Nat.exists_eq_add_of_le hle
    have hlength : (head.take (min 100 head.length)).length =
        min 100 head.length := by simp
    have hpass := firstPass_run hfresh (head.take (min 100 head.length))
      (head.drop (min 100 head.length)) (List.take_append_drop _ _).symm (by omega)
    rw [hlength] at hpass
    have hzero : (loop.state (start head) (min 100 head.length)).live 0 = [] := by
      rw [hpass.live_zero, hlength]
      simp
      omega
    have hlater := loop.invariant (P := fun s => Disciplined s ∧ s.live 0 = [])
      ⟨disciplined_run hfresh _, hzero⟩
      (fun _ ht _ => ⟨disciplined_step ht.1, live_zero_step ht.1 ht.2⟩) k
    rw [← loop.state_add] at hlater
    exact .inr hlater.2

theorem workConserving_of_arrivesInTime (hfresh : Fresh head)
    (hsorted : head.Pairwise fun p q => p.at ≤ q.at)
    (htime : ArrivesInTime head) : WorkConserving head := by
  intro n ptr hptr hjump q hq hne hpos hearlier
  have h := disciplined_run hfresh n
  cases firstPass_or_live_zero hfresh n with
  | inr hzero =>
      have harrived := arrived_of_live_zero h hzero hptr
      omega
  | inl hfirst =>
      obtain ⟨before, ptr', after, hsplit, rfl, hlen⟩ := hfirst
      have hpass := firstPass_run hfresh before (ptr' :: after) hsplit (by omega)
      have hsame := hpass.dispatched_eq h hlen
      rw [hptr, Option.some.injEq] at hsame
      subst ptr'
      cases hpass.unfinished q hq hpos with
      | inl hone =>
          rw [hpass.live_one] at hone
          obtain ⟨p, hp, -⟩ := List.mem_map.mp hone
          rw [List.mem_filter, decide_eq_true_eq] at hp
          have hle := arrivesInTime_iff_split.mp htime before ptr after hsplit hlen ⟨p, hp⟩
          rw [hpass.currentTime_eq] at hjump
          omega
      | inr hafter =>
          rw [hsplit, List.pairwise_append] at hsorted
          cases List.mem_cons.mp hafter with
          | inl heq =>
              subst q
              contradiction
          | inr hafter =>
              have hle := (List.pairwise_cons.mp hsorted.2.1).1 q hafter
              omega

theorem noneLeftWaiting_of_workConserving (h : WorkConserving head) :
    NoneLeftWaiting head := by
  intro n ptr hptr hjump q hq hne hpos hearlier
  exact absurd hearlier (h n ptr hptr hjump q hq hne hpos)

theorem arrivesInTime_of_noneLeftWaiting (hfresh : Fresh head)
    (hnone : NoneLeftWaiting head) : ArrivesInTime head := by
  apply arrivesInTime_iff_split.mpr
  intro before ptr after hsplit hlen hlong
  obtain ⟨q, hq, hbt⟩ := hlong
  by_contra hlate
  have h := disciplined_run hfresh before.length
  have hpass := firstPass_run hfresh before (ptr :: after) hsplit (by omega)
  have hone : q.pid ∈ (loop.state (start head) before.length).live 1 := by
    rw [hpass.live_one]
    exact List.mem_map_of_mem (List.mem_filter.mpr ⟨hq, by simpa using hbt⟩)
  obtain ⟨p, hp, hpid, hpos, -, hat⟩ := h.entry 1 (by decide) q.pid hone
  have harrived := hat (by decide)
  have hne : p.pid ≠ ptr.pid := by
    intro heq
    have hnodup := hfresh.nodup
    rw [hsplit, List.map_append, List.map_cons, List.nodup_append] at hnodup
    exact hnodup.2.2 q.pid (List.mem_map_of_mem hq) ptr.pid (by simp)
      (hpid.symm.trans heq)
  rw [hpass.currentTime_eq] at harrived
  refine hnone before.length ptr (hpass.dispatched_eq h hlen) ?_ p hp hne hpos
    (by omega) 1 (by decide) (hpid ▸ hone)
  rw [hpass.currentTime_eq]
  omega

/-- On a list in arrival order `mlfq` keeps the processor busy exactly when no
process arrives late in the first pass, whichever way waiting is read. -/
theorem mlfq_workConserving_iff (hfresh : Fresh head)
    (hsorted : head.Pairwise fun p q => p.at ≤ q.at) :
    (NoneLeftWaiting head ↔ ArrivesInTime head) ∧
      (WorkConserving head ↔ ArrivesInTime head) := by
  have hbusy := workConserving_of_arrivesInTime hfresh hsorted
  have htime := arrivesInTime_of_noneLeftWaiting hfresh
  constructor
  · exact ⟨htime, fun h => noneLeftWaiting_of_workConserving (hbusy h)⟩
  · exact ⟨fun h => htime (noneLeftWaiting_of_workConserving h), hbusy⟩

end Runs

/-- The first process needs a second round, the other one arrives much later. -/
def distantArrival : List Process :=
  assignProcessors 1 (createProcesses 0 [⟨1, 0, 5⟩, ⟨2, 100, 1⟩])

theorem distantArrival_left_waiting :
    ¬ NoneLeftWaiting distantArrival ∧ ¬ WorkConserving distantArrival := by
  have hnone : ¬ NoneLeftWaiting distantArrival := by
    intro h
    exact h 1 ⟨2, 100, 1, 0, -1, -1, -1, -1, 1⟩ (by decide) (by decide)
      ⟨1, 0, 5, 0, -1, -1, -1, -1, 3⟩ (by decide) (by decide) (by decide)
      (by decide) 1 (by decide) (by decide)
  exact ⟨hnone, fun h => hnone (noneLeftWaiting_of_workConserving h)⟩

theorem closeArrivals_workConserving :
    WorkConserving
      (assignProcessors 1 (createProcesses 0 [⟨1, 0, 5⟩, ⟨2, 2, 4⟩])) :=
  (mlfq_workConserving_iff (fresh_input 1 0 (by decide) (by decide))
    (by decide)).2.mpr (by decide)

end SyscallSched.Simulators.Mlfq
