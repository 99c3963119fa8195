import Mathlib.Data.List.Perm.Subperm
import SyscallSched.Simulators.Process
import SyscallSched.Simulators.Mlfq.Model

/-!
# Level discipline of `mlfq`

`Disciplined` holds in every state of a run, whether or not entries were
dropped: a pid is queued at most once over all levels, its process is
unfinished and has received exactly the units that lead to its level, and the
levels above the one being served are empty.
-/

namespace SyscallSched.Simulators.Mlfq

open SyscallSched.Foundation

/-- The units a process has received when it is queued at a level. -/
def Received : Nat → Process → Prop
  | 0, p => p.bt - p.remain = 0
  | 1, p => p.bt - p.remain = 2
  | _, p => ∃ k : Nat, p.bt - p.remain = 6 + 8 * k

theorem received_preempt {level : Nat} (hlevel : level < LEVELS) {p : Process}
    (h : Received level p) :
    Received (demotedLevel level) (p.preempt (quantum level)) := by
  have hcases : level = 0 ∨ level = 1 ∨ level = 2 := by
    unfold LEVELS at hlevel
    omega
  rcases hcases with rfl | rfl | rfl
  · change p.bt - p.remain = 0 at h
    change p.bt - (p.remain - 2) = 2
    omega
  · change p.bt - p.remain = 2 at h
    refine ⟨0, ?_⟩
    change p.bt - (p.remain - 4) = 6 + 8 * 0
    omega
  · obtain ⟨k, hk⟩ := h
    refine ⟨k + 1, ?_⟩
    change p.bt - (p.remain - 8) = 6 + 8 * ((k + 1 : Nat) : Int)
    push_cast
    omega

theorem quantum_pos (level : Nat) : 0 < quantum level := by
  unfold quantum
  split <;> decide

theorem le_dispatchTime (t : Int) (p : Process) :
    t ≤ dispatchTime t p ∧ p.at ≤ dispatchTime t p := by
  unfold dispatchTime
  split <;> omega

def Entry (currentTime : Int) (head : List Process) (level : Nat) (pid : Int) :
    Prop :=
  ∃ p ∈ head, p.pid = pid ∧ 0 < p.remain ∧ Received level p ∧
    (0 < level → p.at ≤ currentTime)

def State.queued (s : State) : List Int := s.live 0 ++ s.live 1 ++ s.live 2

structure Disciplined (s : State) : Prop where
  nodup : (s.head.map Process.pid).Nodup
  accounted : ∀ p ∈ s.head, Accounted s.currentTime p
  valid : ∀ level, (s.queue level).Valid
  once : s.queued.Nodup
  entry : ∀ level < LEVELS, ∀ pid ∈ s.live level,
    Entry s.currentTime s.head level pid
  drained : ∀ level < s.level, level < LEVELS → s.live level = []
  level_le : s.level ≤ LEVELS

/-! ## The outcomes of one iteration -/

def popped (s : State) (queue : ArrayQueue Int) : State :=
  { s with queue := Function.update s.queue s.level queue }

structure Head (s : State) (ptr : Process) (rest : List Int)
    (queue : ArrayQueue Int) : Prop where
  lt : s.level < LEVELS
  live_eq : s.live s.level = ptr.pid :: rest
  mem : ptr ∈ s.head
  pos : 0 < ptr.remain
  received : Received s.level ptr
  valid : queue.Valid
  rest_eq : queue.live = rest
  rear_eq : queue.rear = if rest = [] then -1 else (s.queue s.level).rear

theorem step_cases {s : State} (h : Disciplined s) :
    (s.level < LEVELS ∧ s.live s.level = [] ∧
      step s = { s with level := s.level + 1 }) ∨
    (s.level = LEVELS ∧ step s =
      { s with currentTime := s.currentTime + 1, level := 0, allDone := true }) ∨
    ∃ ptr rest queue, Head s ptr rest queue ∧
      ((ptr.remain ≤ quantum s.level ∧ step s = finish (popped s queue) ptr) ∨
        (quantum s.level < ptr.remain ∧
          step s = preempt (popped s queue) ptr)) := by
  by_cases hlt : s.level < LEVELS
  · cases hlive : s.live s.level with
    | nil =>
        have hpop := (ArrayQueue.pop_eq_none_iff (h.valid s.level)).mpr hlive
        refine .inl ⟨hlt, rfl, ?_⟩
        simp [step, hlt, hpop]
    | cons pid rest =>
        obtain ⟨queue, hpop, hvalid, hrest, -, hrear⟩ :=
          ArrayQueue.pop_of_live_cons (h.valid s.level) hlive
        obtain ⟨ptr, hptr, rfl, hpos, hreceived, -⟩ :=
          h.entry s.level hlt pid (by simp [hlive])
        have hfind := findProcess_of_mem h.nodup hptr
        refine .inr (.inr ⟨ptr, rest, queue,
          ⟨hlt, hlive, hptr, hpos, hreceived, hvalid, hrest, hrear⟩, ?_⟩)
        have hstep : step s = if ptr.remain ≤ quantum s.level then
            finish (popped s queue) ptr else preempt (popped s queue) ptr := by
          simp only [step, if_pos hlt, hpop, hfind]
          rfl
        rw [hstep]
        by_cases hle : ptr.remain ≤ quantum s.level
        · exact .inl ⟨hle, if_pos hle⟩
        · exact .inr ⟨by omega, if_neg hle⟩
  · refine .inr (.inl ⟨?_, ?_⟩)
    · have hle := h.level_le
      omega
    · simp [step, hlt]

/-! ## Queues after a step -/

theorem live_popped {s : State} {ptr : Process} {rest : List Int}
    {queue : ArrayQueue Int} (hhead : Head s ptr rest queue) (level : Nat) :
    (popped s queue).live level =
      if level = s.level then rest else s.live level := by
  by_cases hlevel : level = s.level
  · subst level
    simp [State.live, popped, hhead.rest_eq]
  · simp [State.live, popped, hlevel]

theorem valid_popped {s : State} (h : Disciplined s) {ptr : Process}
    {rest : List Int} {queue : ArrayQueue Int} (hhead : Head s ptr rest queue)
    (level : Nat) : ((popped s queue).queue level).Valid := by
  by_cases hlevel : level = s.level
  · subst level
    simpa [popped] using hhead.valid
  · simpa [popped, Function.update_of_ne hlevel] using h.valid level

theorem queued_popped {s : State} {ptr : Process} {rest : List Int}
    {queue : ArrayQueue Int} (hhead : Head s ptr rest queue) :
    s.queued.Perm (ptr.pid :: (popped s queue).queued) := by
  have hlive := hhead.live_eq
  have hcases : s.level = 0 ∨ s.level = 1 ∨ s.level = 2 := by
    have hlt := hhead.lt
    unfold LEVELS at hlt
    omega
  unfold State.queued
  simp only [live_popped hhead]
  rcases hcases with hlevel | hlevel | hlevel <;> rw [hlevel] at hlive <;>
    simp only [hlevel, hlive, List.perm_iff_count] <;> intro pid <;>
    simp [List.count_append, List.count_cons] <;> omega

section Enqueue

variable {s : State} {level : Nat} {pid : Int}

theorem enqueue_full (h : (s.queue level).rear = MAX - 1) :
    enqueue s level pid = { s with
      overflows := s.overflows ++ [(level, (s.live level).length)] } := by
  simp [enqueue, h, State.live]

theorem enqueue_push (h : (s.queue level).rear ≠ MAX - 1) :
    enqueue s level pid = { s with
      queue := Function.update s.queue level ((s.queue level).push pid) } := by
  simp [enqueue, h]

theorem live_enqueue_push (pid : Int) (hvalid : (s.queue level).Valid)
    (h : (s.queue level).rear ≠ MAX - 1) (i : Nat) :
    (enqueue s level pid).live i =
      if i = level then s.live level ++ [pid] else s.live i := by
  rw [enqueue_push h]
  by_cases hi : i = level
  · subst i
    simp [State.live, ArrayQueue.live_push hvalid]
  · simp [State.live, hi]

theorem queued_enqueue_push (pid : Int) (hvalid : (s.queue level).Valid)
    (h : (s.queue level).rear ≠ MAX - 1) (hlevel : level < LEVELS) :
    (enqueue s level pid).queued.Perm (pid :: s.queued) := by
  have hcases : level = 0 ∨ level = 1 ∨ level = 2 := by
    unfold LEVELS at hlevel
    omega
  unfold State.queued
  simp only [live_enqueue_push pid hvalid h]
  rcases hcases with rfl | rfl | rfl <;>
    simp only [List.perm_iff_count] <;> intro x <;>
    simp [List.count_append, List.count_cons] <;> omega

theorem valid_enqueue (hvalid : ∀ i, (s.queue i).Valid) (i : Nat) :
    ((enqueue s level pid).queue i).Valid := by
  by_cases h : (s.queue level).rear = MAX - 1
  · rw [enqueue_full h]
    exact hvalid i
  · rw [enqueue_push h]
    by_cases hi : i = level
    · subst i
      simpa using ArrayQueue.valid_push (hvalid level) pid
    · simpa [Function.update_of_ne hi] using hvalid i

@[simp] theorem enqueue_head : (enqueue s level pid).head = s.head := by
  unfold enqueue
  split <;> rfl

@[simp] theorem enqueue_currentTime :
    (enqueue s level pid).currentTime = s.currentTime := by
  unfold enqueue
  split <;> rfl

@[simp] theorem enqueue_level : (enqueue s level pid).level = s.level := by
  unfold enqueue
  split <;> rfl

@[simp] theorem enqueue_allDone :
    (enqueue s level pid).allDone = s.allDone := by
  unfold enqueue
  split <;> rfl

end Enqueue

theorem demotedLevel_lt {level : Nat} (h : level < LEVELS) :
    demotedLevel level < LEVELS ∧ level ≤ demotedLevel level ∧
      0 < demotedLevel level := by
  unfold demotedLevel
  unfold LEVELS at *
  split <;> omega

theorem mem_queued {s : State} {level : Nat} (hlevel : level < LEVELS)
    {pid : Int} (h : pid ∈ s.live level) : pid ∈ s.queued := by
  have hcases : level = 0 ∨ level = 1 ∨ level = 2 := by
    unfold LEVELS at hlevel
    omega
  unfold State.queued
  rcases hcases with rfl | rfl | rfl <;> simp [h]

/-! ## The invariant is kept -/

section Step

variable {s : State} {ptr : Process} {rest : List Int}
  {queue : ArrayQueue Int}

theorem entry_update (h : Disciplined s) (hptr : ptr ∈ s.head)
    (f : Process → Process) {t : Int} (ht : s.currentTime ≤ t) {level : Nat}
    {pid : Int} (hentry : Entry s.currentTime s.head level pid)
    (hne : pid ≠ ptr.pid) :
    Entry t (updateProcess f ptr.pid s.head) level pid := by
  obtain ⟨p, hp, rfl, hpos, hreceived, hat⟩ := hentry
  refine ⟨p, ?_, rfl, hpos, hreceived, fun hlevel => (hat hlevel).trans ht⟩
  exact (mem_updateProcess h.nodup (findProcess_of_mem h.nodup hptr)).mpr
    (.inr ⟨hp, hne⟩)

theorem ptr_not_mem_popped (h : Disciplined s) (hhead : Head s ptr rest queue) :
    ptr.pid ∉ (popped s queue).queued := by
  have hnodup := (queued_popped hhead).nodup_iff.mp h.once
  exact (List.nodup_cons.mp hnodup).1

theorem mem_live_of_popped (hhead : Head s ptr rest queue) {level : Nat}
    {pid : Int} (hpid : pid ∈ (popped s queue).live level) :
    pid ∈ s.live level := by
  rw [live_popped hhead] at hpid
  split at hpid
  · rename_i hlevel
    rw [hlevel, hhead.live_eq]
    exact List.mem_cons_of_mem _ hpid
  · exact hpid

theorem disciplined_served (h : Disciplined s) (hhead : Head s ptr rest queue)
    {f : Process → Process} (hpid : ∀ p, (f p).pid = p.pid) {t : Int}
    (ht : s.currentTime ≤ t) (hf : Accounted t (f ptr)) (done : Bool) :
    Disciplined { popped s queue with
      currentTime := t
      head := updateProcess f ptr.pid s.head
      allDone := done } where
  nodup := by
    rw [map_updateProcess Process.pid hpid]
    exact h.nodup
  accounted := by
    intro p hp
    rcases (mem_updateProcess h.nodup
      (findProcess_of_mem h.nodup hhead.mem)).mp hp with rfl | ⟨hp, -⟩
    · exact hf
    · exact (h.accounted p hp).mono ht
  valid := valid_popped h hhead
  once := by
    have hnodup := (queued_popped hhead).nodup_iff.mp h.once
    exact (List.nodup_cons.mp hnodup).2
  entry := by
    intro level hlevel pid hmem
    have hne : pid ≠ ptr.pid := by
      rintro rfl
      exact ptr_not_mem_popped h hhead (mem_queued hlevel hmem)
    exact entry_update h hhead.mem f ht
      (h.entry level hlevel pid (mem_live_of_popped hhead hmem)) hne
  drained := by
    intro level hlt hlevel
    have hne : level ≠ s.level := Nat.ne_of_lt hlt
    change (popped s queue).live level = []
    rw [live_popped hhead, if_neg hne]
    exact h.drained level hlt hlevel
  level_le := h.level_le

theorem disciplined_enqueue (h : Disciplined s) {level : Nat} {pid : Int}
    (hlevel : level < LEVELS) (hle : s.level ≤ level)
    (hentry : Entry s.currentTime s.head level pid) (hnot : pid ∉ s.queued) :
    Disciplined (enqueue s level pid) := by
  by_cases hfull : (s.queue level).rear = MAX - 1
  · rw [enqueue_full hfull]
    exact ⟨h.nodup, h.accounted, h.valid, h.once, h.entry, h.drained, h.level_le⟩
  · have hlive := live_enqueue_push pid (h.valid level) hfull
    constructor
    case nodup => simpa using h.nodup
    case accounted => simpa using h.accounted
    case valid => exact valid_enqueue h.valid
    case once =>
      refine (queued_enqueue_push pid (h.valid level) hfull hlevel).nodup_iff.mpr ?_
      exact List.nodup_cons.mpr ⟨hnot, h.once⟩
    case entry =>
      intro i hi x hx
      rw [hlive] at hx
      simp only [enqueue_currentTime, enqueue_head]
      split at hx
      · rename_i heq
        subst i
        rcases List.mem_append.mp hx with hx | hx
        · exact h.entry level hi x hx
        · rw [List.mem_singleton] at hx
          exact hx ▸ hentry
      · exact h.entry i hi x hx
    case drained =>
      intro i hi hi'
      rw [enqueue_level] at hi
      have hne : i ≠ level := by omega
      rw [hlive, if_neg hne]
      exact h.drained i hi hi'
    case level_le => simpa using h.level_le

theorem accounted_dispatchTime (h : Disciplined s) (hhead : Head s ptr rest queue) :
    Accounted (dispatchTime s.currentTime ptr) ptr ∧
      ptr.Ready (dispatchTime s.currentTime ptr) := by
  obtain ⟨hle, hat⟩ := le_dispatchTime s.currentTime ptr
  exact ⟨(h.accounted ptr hhead.mem).mono hle, hat, hhead.pos⟩

theorem disciplined_finish (h : Disciplined s) (hhead : Head s ptr rest queue) :
    Disciplined (finish (popped s queue) ptr) := by
  obtain ⟨haccounted, hready⟩ := accounted_dispatchTime h hhead
  have hle := (le_dispatchTime s.currentTime ptr).1
  have hpos := hhead.pos
  exact disciplined_served h hhead (complete_pid _) (by omega)
    (accounted_complete haccounted hready) false

/-- `ptr` has been preempted but not yet appended to its next level. -/
def suspended (s : State) (ptr : Process) (queue : ArrayQueue Int) : State :=
  { popped s queue with
    currentTime := dispatchTime s.currentTime ptr + quantum s.level
    head := updateProcess (Process.preempt (quantum s.level)) ptr.pid s.head
    allDone := false }

theorem preempt_popped (s : State) (ptr : Process) (queue : ArrayQueue Int) :
    preempt (popped s queue) ptr =
      enqueue (suspended s ptr queue) (demotedLevel s.level) ptr.pid := rfl

theorem disciplined_suspended (h : Disciplined s)
    (hhead : Head s ptr rest queue) (hlt : quantum s.level < ptr.remain) :
    Disciplined (suspended s ptr queue) := by
  obtain ⟨haccounted, hready⟩ := accounted_dispatchTime h hhead
  have hle := (le_dispatchTime s.currentTime ptr).1
  have hpos := quantum_pos s.level
  exact disciplined_served h hhead (preempt_pid _) (by omega)
    (accounted_preempt haccounted hready (by omega) hlt) false

theorem entry_suspended (h : Disciplined s) (hhead : Head s ptr rest queue)
    (hlt : quantum s.level < ptr.remain) :
    Entry (suspended s ptr queue).currentTime (suspended s ptr queue).head
      (demotedLevel s.level) ptr.pid := by
  refine ⟨ptr.preempt (quantum s.level), ?_, rfl, ?_,
    received_preempt hhead.lt hhead.received, ?_⟩
  · exact (mem_updateProcess h.nodup
      (findProcess_of_mem h.nodup hhead.mem)).mpr (.inl rfl)
  · simp only [preempt_remain]
    omega
  · intro _
    have hat := (le_dispatchTime s.currentTime ptr).2
    have hpos := quantum_pos s.level
    simp only [suspended, preempt_at]
    omega

theorem disciplined_preempt (h : Disciplined s) (hhead : Head s ptr rest queue)
    (hlt : quantum s.level < ptr.remain) :
    Disciplined (preempt (popped s queue) ptr) := by
  obtain ⟨hlevel, hle, -⟩ := demotedLevel_lt hhead.lt
  rw [preempt_popped]
  exact disciplined_enqueue (disciplined_suspended h hhead hlt) hlevel hle
    (entry_suspended h hhead hlt) (ptr_not_mem_popped h hhead)

theorem disciplined_step (h : Disciplined s) : Disciplined (step s) := by
  rcases step_cases h with
    ⟨hlt, hnil, hstep⟩ | ⟨hend, hstep⟩ | ⟨ptr, rest, queue, hhead, hcase⟩
  · rw [hstep]
    refine ⟨h.nodup, h.accounted, h.valid, h.once, h.entry, ?_, hlt⟩
    intro level hlevel hlevel'
    rcases Nat.lt_succ_iff_lt_or_eq.mp hlevel with hlevel | rfl
    · exact h.drained level hlevel hlevel'
    · exact hnil
  · rw [hstep]
    refine ⟨h.nodup, ?_, h.valid, h.once, ?_, ?_, Nat.zero_le _⟩
    · intro p hp
      exact (h.accounted p hp).mono (by simp)
    · intro level hlevel pid hpid
      obtain ⟨p, hp, heq, hpos, hreceived, hat⟩ := h.entry level hlevel pid hpid
      refine ⟨p, hp, heq, hpos, hreceived, fun hlevel' => ?_⟩
      exact (hat hlevel').trans (by simp)
    · intro level hlevel
      simp at hlevel
  · rcases hcase with ⟨-, hstep⟩ | ⟨hlt, hstep⟩
    · rw [hstep]
      exact disciplined_finish h hhead
    · rw [hstep]
      exact disciplined_preempt h hhead hlt

theorem queued_preempt (h : Disciplined s) (hhead : Head s ptr rest queue) :
    ((preempt (popped s queue) ptr).queued.Perm s.queued ∧
      (preempt (popped s queue) ptr).overflows = s.overflows) ∨
    ((preempt (popped s queue) ptr).queued = (popped s queue).queued ∧
      (preempt (popped s queue) ptr).overflows ≠ []) := by
  have hlevel := (demotedLevel_lt hhead.lt).1
  have hvalid : ((suspended s ptr queue).queue (demotedLevel s.level)).Valid :=
    valid_popped h hhead _
  rw [preempt_popped]
  by_cases hfull :
      ((suspended s ptr queue).queue (demotedLevel s.level)).rear = MAX - 1
  · rw [enqueue_full hfull]
    exact .inr ⟨rfl, by simp⟩
  · have hperm := queued_enqueue_push ptr.pid hvalid hfull hlevel
    refine .inl ⟨hperm.trans (queued_popped hhead).symm, ?_⟩
    rw [enqueue_push hfull]
    rfl

theorem queued_step_subset (h : Disciplined s) : (step s).queued ⊆ s.queued := by
  rcases step_cases h with
    ⟨-, -, hstep⟩ | ⟨-, hstep⟩ | ⟨ptr, rest, queue, hhead, hcase⟩
  · rw [hstep]
    exact List.Subset.refl _
  · rw [hstep]
    exact List.Subset.refl _
  · have hpopped : (popped s queue).queued ⊆ s.queued := fun pid hpid =>
      (queued_popped hhead).mem_iff.mpr (List.mem_cons_of_mem _ hpid)
    rcases hcase with ⟨-, hstep⟩ | ⟨-, hstep⟩
    · rw [hstep]
      exact hpopped
    · rw [hstep]
      rcases queued_preempt h hhead with ⟨hperm, -⟩ | ⟨heq, -⟩
      · exact hperm.subset
      · rw [heq]
        exact hpopped

theorem length_queued_step (h : Disciplined s) :
    (step s).queued.length ≤ s.queued.length :=
  ((disciplined_step h).once.subperm (queued_step_subset h)).length_le

end Step

/-! ## The first state -/

structure Fresh (head : List Process) : Prop where
  nodup : (head.map Process.pid).Nodup
  bt_pos : ∀ p ∈ head, 1 ≤ p.bt
  remain_eq : ∀ p ∈ head, p.remain = p.bt

theorem fresh_input (processors pr : Int) {input : List Request}
    (hpid : (input.map Request.pid).Nodup) (hbt : ∀ v ∈ input, 1 ≤ v.bt) :
    Fresh (assignProcessors processors (createProcesses pr input)) where
  nodup := by
    rw [map_pid_assignProcessors]
    exact hpid
  bt_pos := by
    intro p hp
    exact hbt _ (mem_assignProcessors hp).2.2
  remain_eq := by
    intro p hp
    exact (mem_assignProcessors hp).1

structure Filled (head ps : List Process) (s : State) : Prop where
  currentTime_eq : s.currentTime = 0
  head_eq : s.head = head
  level_eq : s.level = 0
  allDone_eq : s.allDone = true
  valid : ∀ level, (s.queue level).Valid
  live_zero : s.live 0 = (ps.map Process.pid).take 100
  rear_zero : (s.queue 0).rear + 1 = (s.live 0).length
  live_pos : ∀ level, 0 < level → s.live level = []
  overflows_eq : ps.length ≤ 100 → s.overflows = []

theorem filled_enqueue {head ps : List Process} {s : State}
    (h : Filled head ps s) (p : Process) :
    Filled head (ps ++ [p]) (enqueue s 0 p.pid) := by
  have hlength : (s.live 0).length = min 100 ps.length := by
    simp [h.live_zero]
  have hrear := h.rear_zero
  by_cases hfull : (s.queue 0).rear = MAX - 1
  · have hlong : 100 ≤ ps.length := by
      unfold MAX at hfull
      omega
    rw [enqueue_full hfull]
    refine ⟨h.currentTime_eq, h.head_eq, h.level_eq, h.allDone_eq, h.valid, ?_,
      hrear, h.live_pos, ?_⟩
    · change s.live 0 = _
      rw [h.live_zero, List.map_append,
        List.take_append_of_le_length (by simpa using hlong)]
    · intro hle
      simp at hle
      omega
  · have hshort : ps.length < 100 := by
      unfold MAX at hfull
      omega
    have hlive := live_enqueue_push p.pid (h.valid 0) hfull
    constructor
    case currentTime_eq => simpa using h.currentTime_eq
    case head_eq => simpa using h.head_eq
    case level_eq => simpa using h.level_eq
    case allDone_eq => simpa using h.allDone_eq
    case valid => exact valid_enqueue h.valid
    case live_zero =>
      rw [hlive, if_pos rfl, h.live_zero, List.take_of_length_le (by simp; omega),
        List.take_of_length_le (by simp; omega), List.map_append]
      simp
    case rear_zero =>
      rw [hlive, if_pos rfl, enqueue_push hfull]
      simp [hrear]
    case live_pos =>
      intro level hlevel
      rw [hlive, if_neg (Nat.pos_iff_ne_zero.mp hlevel)]
      exact h.live_pos level hlevel
    case overflows_eq =>
      intro _
      rw [enqueue_push hfull]
      exact h.overflows_eq (by omega)

theorem filled_foldl {head : List Process} (ps : List Process) :
    ∀ (before : List Process) {s : State}, Filled head before s →
      Filled head (before ++ ps)
        (ps.foldl (fun s temp => enqueue s 0 temp.pid) s) := by
  induction ps with
  | nil =>
      intro before s h
      simpa using h
  | cons p ps ih =>
      intro before s h
      rw [List.foldl_cons, List.append_cons]
      exact ih _ (filled_enqueue h p)

theorem filled_start (head : List Process) : Filled head head (start head) := by
  apply filled_foldl head []
  refine ⟨rfl, rfl, rfl, rfl, ?_, rfl, rfl, ?_, ?_⟩
  · intro level
    exact ArrayQueue.valid_empty _
  · intro level _
    rfl
  · intro _
    rfl

theorem queued_start (head : List Process) :
    (start head).queued = (head.map Process.pid).take 100 := by
  have h := filled_start head
  simp [State.queued, h.live_zero, h.live_pos]

theorem disciplined_start {head : List Process} (hfresh : Fresh head) :
    Disciplined (start head) := by
  have h := filled_start head
  constructor
  case nodup =>
    rw [h.head_eq]
    exact hfresh.nodup
  case accounted =>
    intro p hp
    rw [h.head_eq] at hp
    have hbt := hfresh.bt_pos p hp
    have hremain := hfresh.remain_eq p hp
    constructor <;> omega
  case valid => exact h.valid
  case once =>
    rw [queued_start]
    exact hfresh.nodup.sublist (List.take_sublist _ _)
  case entry =>
    intro level hlevel pid hpid
    cases level with
    | succ level =>
        rw [h.live_pos _ (Nat.succ_pos level)] at hpid
        simp at hpid
    | zero =>
        rw [h.live_zero] at hpid
        obtain ⟨p, hp, rfl⟩ := List.mem_map.mp (List.mem_of_mem_take hpid)
        have hbt := hfresh.bt_pos p hp
        have hremain := hfresh.remain_eq p hp
        refine ⟨p, ?_, rfl, by omega, ?_, by simp⟩
        · rw [h.head_eq]
          exact hp
        · change p.bt - p.remain = 0
          omega
  case drained =>
    intro level hlevel
    rw [h.level_eq] at hlevel
    omega
  case level_le =>
    rw [h.level_eq]
    exact Nat.zero_le _

theorem disciplined_run {head : List Process} (hfresh : Fresh head) (n : Nat) :
    Disciplined (loop.state (start head) n) :=
  loop.invariant (disciplined_start hfresh) (fun _ ht _ => disciplined_step ht) n

/-! ## Termination -/

/-- The last levels to visit before the loop can end, behind the work left. -/
def State.measure (s : State) : Nat :=
  8 * (work s.head).toNat + (if s.allDone then 0 else 4) + (LEVELS - s.level)

theorem measure_step {s : State} (h : Disciplined s)
    (hguard : loop.guard s = true) : (step s).measure < s.measure := by
  have hwork := work_nonneg h.accounted
  have hserved : ∀ {ptr : Process} {f : Process → Process}, ptr ∈ s.head →
      work (updateProcess f ptr.pid s.head) =
        work s.head + ((f ptr).remain - ptr.remain) := by
    intro ptr f hptr
    exact sum_updateProcess Process.remain (findProcess_of_mem h.nodup hptr)
  have hwork' := work_nonneg (disciplined_step h).accounted
  rcases step_cases h with
    ⟨hlt, -, hstep⟩ | ⟨hend, hstep⟩ | ⟨ptr, rest, queue, hhead, hcase⟩
  · rw [hstep]
    simp only [State.measure]
    omega
  · have hdone : s.allDone = false := by
      cases hd : s.allDone with
      | false => rfl
      | true => simp [loop, hend, hd] at hguard
    rw [hstep]
    simp only [State.measure, hdone, hend, LEVELS, if_true, Bool.false_eq_true,
      if_false]
    omega
  · have hpos := hhead.pos
    have hquantum := quantum_pos s.level
    have hle : (if s.allDone then 0 else 4) ≤ 4 := by split <;> omega
    rcases hcase with ⟨-, hstep⟩ | ⟨hlt, hstep⟩
    · rw [hstep] at hwork' ⊢
      have hdrop := hserved (f := Process.complete
        (dispatchTime s.currentTime ptr + ptr.remain)) hhead.mem
      simp only [State.measure, finish, popped] at hwork' ⊢
      rw [hdrop, complete_remain] at hwork' ⊢
      simp only [Bool.false_eq_true, if_false]
      omega
    · rw [hstep, preempt_popped] at hwork' ⊢
      have hdrop := hserved (f := Process.preempt (quantum s.level)) hhead.mem
      simp only [State.measure, enqueue_head, enqueue_level, enqueue_allDone,
        suspended, popped] at hwork' ⊢
      rw [hdrop, preempt_remain] at hwork' ⊢
      simp only [Bool.false_eq_true, if_false]
      omega

theorem returns {head : List Process} (hfresh : Fresh head) :
    ∃ final, Returns head final :=
  loop.terminates_of_measure State.measure (fun _ ht _ => disciplined_step ht)
    (fun _ ht hguard => measure_step ht hguard) (disciplined_start hfresh)

end SyscallSched.Simulators.Mlfq
