import SyscallSched.Foundation.Ring
import SyscallSched.Simulators.Mlfq.Invariant

/-!
# Cells of the lowest level

`rear` of a level is reset only when the level becomes empty.  At the lowest
level the unfinished processes rotate, so the cells that are used depend on the
bursts: `demand` is their number.  `State.cells` is the same number read off a
state between two iterations.
-/

namespace SyscallSched.Simulators.Mlfq

open SyscallSched.Foundation
open SyscallSched.Foundation.Rotation

def lead : Nat → Int
  | 0 => 6
  | 1 => 4
  | _ => 0

def rounds (level : Nat) (remain : Int) : List Nat :=
  if lead level < remain then [((remain - lead level + 7) / 8).toNat] else []

/-- The cells of the lowest level that `mlfq(head)` needs. -/
def demand (head : List Process) : Nat :=
  slots (head.flatMap fun p => rounds 0 p.bt)

theorem rounds_finish {level : Nat} (hlevel : level < 2) {remain : Int}
    (h : remain ≤ quantum level) : rounds level remain = [] := by
  have hcases : level = 0 ∨ level = 1 := by omega
  rcases hcases with rfl | rfl <;> simp only [quantum] at h <;>
    simp only [rounds, lead, ite_eq_right_iff] <;> intro hlt <;> omega

theorem rounds_preempt {level : Nat} (hlevel : level < 2) (remain : Int) :
    rounds (level + 1) (remain - quantum level) = rounds level remain := by
  have hcases : level = 0 ∨ level = 1 := by omega
  rcases hcases with rfl | rfl
  · simp only [rounds, lead, quantum]
    split <;> split
    · congr 3
      omega
    · omega
    · omega
    · rfl
  · simp only [rounds, lead, quantum]
    split <;> split
    · congr 3
      omega
    · omega
    · omega
    · rfl

theorem rounds_lowest {remain : Int} (hpos : 0 < remain) :
    ∃ k, rounds 2 remain = [k] ∧ 1 ≤ k ∧ (k ≤ 1 ↔ remain ≤ quantum 2) ∧
      (1 < k → rounds 2 (remain - quantum 2) = [k - 1]) := by
  refine ⟨((remain - 0 + 7) / 8).toNat, ?_, ?_, ?_, ?_⟩
  · simp [rounds, lead, hpos]
  · omega
  · simp only [quantum]
    omega
  · intro hk
    simp only [rounds, lead, quantum]
    rw [if_pos (by omega)]
    congr 1
    omega

theorem rounds_pos (level : Nat) (remain : Int) :
    ∀ k ∈ rounds level remain, 1 ≤ k := by
  intro k hk
  unfold rounds at hk
  split at hk
  · simp only [List.mem_singleton] at hk
    omega
  · simp at hk

/-! ## The rounds that lie ahead -/

def roundsOf (head : List Process) (level : Nat) (pid : Int) : List Nat :=
  match findProcess head pid with
  | some p => rounds level p.remain
  | none => []

def State.pending (s : State) : List Nat :=
  (s.live 2).flatMap (roundsOf s.head 2) ++
    (s.live 1).flatMap (roundsOf s.head 1) ++
      (s.live 0).flatMap (roundsOf s.head 0)

theorem pending_pos (s : State) : ∀ k ∈ s.pending, 1 ≤ k := by
  have hof : ∀ level pid, ∀ k ∈ roundsOf s.head level pid, 1 ≤ k := by
    intro level pid k hk
    unfold roundsOf at hk
    split at hk
    · exact rounds_pos _ _ k hk
    · simp at hk
  intro k hk
  simp only [State.pending, List.mem_append, List.mem_flatMap] at hk
  rcases hk with (⟨pid, -, hk⟩ | ⟨pid, -, hk⟩) | ⟨pid, -, hk⟩ <;>
    exact hof _ pid k hk

theorem roundsOf_of_mem {head : List Process}
    (hnodup : (head.map Process.pid).Nodup) {p : Process} (hp : p ∈ head)
    (level : Nat) : roundsOf head level p.pid = rounds level p.remain := by
  simp [roundsOf, findProcess_of_mem hnodup hp]

theorem flatMap_roundsOf_update {head : List Process} {f : Process → Process}
    (hf : ∀ p, (f p).pid = p.pid) {pid : Int} {pids : List Int}
    (hpid : pid ∉ pids) (level : Nat) :
    pids.flatMap (roundsOf (updateProcess f pid head) level) =
      pids.flatMap (roundsOf head level) := by
  apply List.flatMap_congr
  intro pid' hpid'
  have hne : pid' ≠ pid := by
    rintro rfl
    exact hpid hpid'
  simp only [roundsOf, findProcess_updateProcess hf, if_neg hne]

section Served

variable {s : State} {ptr : Process} {rest : List Int}
  {queue : ArrayQueue Int}

theorem pending_served (h : Disciplined s) (hhead : Head s ptr rest queue)
    {f : Process → Process} (hf : ∀ p, (f p).pid = p.pid) (t : Int)
    (done : Bool) :
    ({ popped s queue with
      currentTime := t
      head := updateProcess f ptr.pid s.head
      allDone := done } : State).pending = (popped s queue).pending := by
  have hnot : ∀ level < LEVELS, ptr.pid ∉ (popped s queue).live level := by
    intro level hlevel hmem
    exact ptr_not_mem_popped h hhead (mem_queued hlevel hmem)
  change (List.flatMap _ ((popped s queue).live 2) ++
    List.flatMap _ ((popped s queue).live 1)) ++
      List.flatMap _ ((popped s queue).live 0) = _
  rw [flatMap_roundsOf_update hf (hnot 2 (by decide)),
    flatMap_roundsOf_update hf (hnot 1 (by decide)),
    flatMap_roundsOf_update hf (hnot 0 (by decide))]
  rfl

theorem pending_popped_upper (h : Disciplined s) (hhead : Head s ptr rest queue)
    (hlevel : s.level < 2) (hrounds : rounds s.level ptr.remain = []) :
    (popped s queue).pending = s.pending := by
  have hof := roundsOf_of_mem h.nodup hhead.mem s.level
  rw [hrounds] at hof
  have hlive := hhead.live_eq
  have hcases : s.level = 0 ∨ s.level = 1 := by omega
  unfold State.pending
  simp only [live_popped hhead]
  rcases hcases with hl | hl <;> rw [hl] at hlive hof <;>
    simp [hl, hlive, hof, popped]

theorem queue_suspended (hhead : Head s ptr rest queue) :
    (suspended s ptr queue).queue (demotedLevel s.level) =
      if s.level < 2 then s.queue (s.level + 1) else queue := by
  have hcases : s.level = 0 ∨ s.level = 1 ∨ s.level = 2 := by
    have hlt := hhead.lt
    unfold LEVELS at hlt
    omega
  rcases hcases with hl | hl | hl <;>
    simp [suspended, popped, demotedLevel, LEVELS, hl]

theorem roundsOf_suspended (h : Disciplined s) (hhead : Head s ptr rest queue)
    (level : Nat) :
    roundsOf (suspended s ptr queue).head level ptr.pid =
      rounds level (ptr.remain - quantum s.level) := by
  simp only [suspended, roundsOf, findProcess_updateProcess (preempt_pid _),
    if_true, findProcess_of_mem h.nodup hhead.mem, Option.map_some,
    preempt_remain]

theorem flatMap_preempt (h : Disciplined s) (hhead : Head s ptr rest queue)
    (hpush : ((suspended s ptr queue).queue (demotedLevel s.level)).rear ≠
      MAX - 1) {level : Nat} (hlevel : level < LEVELS) :
    ((preempt (popped s queue) ptr).live level).flatMap
        (roundsOf (preempt (popped s queue) ptr).head level) =
      ((popped s queue).live level).flatMap (roundsOf s.head level) ++
        if level = demotedLevel s.level then
          rounds level (ptr.remain - quantum s.level) else [] := by
  have hnot : ptr.pid ∉ (popped s queue).live level := fun hmem =>
    ptr_not_mem_popped h hhead (mem_queued hlevel hmem)
  have hvalid : ((suspended s ptr queue).queue (demotedLevel s.level)).Valid :=
    valid_popped h hhead _
  have hkeep : ((popped s queue).live level).flatMap
      (roundsOf (suspended s ptr queue).head level) =
        ((popped s queue).live level).flatMap (roundsOf s.head level) :=
    flatMap_roundsOf_update (preempt_pid _) hnot level
  rw [preempt_popped, enqueue_head, live_enqueue_push _ hvalid hpush]
  by_cases hl : level = demotedLevel s.level
  · rw [if_pos hl, if_pos hl, ← hl, List.flatMap_append]
    congr 1
    simp [roundsOf_suspended h hhead]
  · rw [if_neg hl, if_neg hl, List.append_nil]
    exact hkeep

theorem pending_preempt_upper (h : Disciplined s) (hhead : Head s ptr rest queue)
    (hlevel : s.level < 2)
    (hpush : (s.queue (s.level + 1)).rear ≠ MAX - 1) :
    (preempt (popped s queue) ptr).pending = s.pending := by
  have hqueue := queue_suspended hhead
  rw [if_pos hlevel] at hqueue
  have hflat := fun {level} (hl : level < LEVELS) =>
    flatMap_preempt h hhead (hqueue ▸ hpush) hl
  have hof := roundsOf_of_mem h.nodup hhead.mem s.level
  rw [← rounds_preempt hlevel] at hof
  have hlive := hhead.live_eq
  have hcases : s.level = 0 ∨ s.level = 1 := by omega
  unfold State.pending
  rw [hflat (by decide), hflat (by decide), hflat (by decide)]
  simp only [live_popped hhead]
  rcases hcases with hl | hl
  · rw [hl] at hlive hof
    simp [hl, hlive, hof, demotedLevel, LEVELS]
  · have hdrained : s.live 0 = [] := h.drained 0 (by omega) (by decide)
    rw [hl] at hlive hof
    simp [hl, hlive, hof, demotedLevel, LEVELS, hdrained]

/-- At the lowest level the rounds ahead make a turn. -/
theorem pending_lowest (h : Disciplined s) (hhead : Head s ptr rest queue)
    (hlevel : s.level = 2) :
    ∃ k ks, s.pending = k :: ks ∧ ks.length = rest.length ∧
      (k ≤ 1 ↔ ptr.remain ≤ quantum 2) ∧
      (popped s queue).pending = ks ∧
      (quantum 2 < ptr.remain →
        ((suspended s ptr queue).queue 2).rear ≠ MAX - 1 →
          (preempt (popped s queue) ptr).pending = turn k ks) := by
  obtain ⟨k, hk, hkpos, hlast, hnext⟩ := rounds_lowest hhead.pos
  have hzero : s.live 0 = [] := h.drained 0 (by omega) (by decide)
  have hone : s.live 1 = [] := h.drained 1 (by omega) (by decide)
  have hlive := hhead.live_eq
  rw [hlevel] at hlive
  have hpopped : (popped s queue).pending = rest.flatMap (roundsOf s.head 2) := by
    unfold State.pending
    simp only [live_popped hhead]
    simp [hlevel, hzero, hone, popped]
  refine ⟨k, rest.flatMap (roundsOf s.head 2), ?_, ?_, hlast, hpopped, ?_⟩
  · unfold State.pending
    rw [hzero, hone, hlive, List.flatMap_cons,
      roundsOf_of_mem h.nodup hhead.mem, hk]
    simp
  · have hlength : ∀ pid ∈ rest, (roundsOf s.head 2 pid).length = 1 := by
      intro pid hpid
      have hmem : pid ∈ s.live 2 := by
        rw [hlive]
        exact List.mem_cons_of_mem _ hpid
      obtain ⟨p, hp, rfl, hpos, -⟩ := h.entry 2 (by decide) pid hmem
      obtain ⟨j, hj, -⟩ := rounds_lowest hpos
      rw [roundsOf_of_mem h.nodup hp, hj]
      rfl
    rw [List.length_flatMap, List.map_congr_left hlength]
    simp
  · intro hlt hpush
    have hdemoted : demotedLevel s.level = 2 := by
      simp [demotedLevel, LEVELS, hlevel]
    have hflat := fun {level} (hl : level < LEVELS) =>
      flatMap_preempt h hhead (hdemoted ▸ hpush) hl
    have hkgt : 1 < k := by omega
    unfold State.pending
    rw [hflat (by decide), hflat (by decide), hflat (by decide)]
    simp only [live_popped hhead]
    simp [hlevel, hzero, hone, hnext hkgt, turn, demotedLevel, LEVELS,
      Nat.not_le.mpr hkgt]

end Served

/-! ## Used cells -/

/-- No level has used more cells than there are, and until a level is served
its entries start at the first cell. -/
structure Compact (s : State) : Prop where
  queued_le : s.queued.length ≤ 100
  rear_le : ∀ level, (s.queue level).rear ≤ MAX - 1
  unserved : ∀ level, 0 < level → level < LEVELS → s.level < level →
    (s.queue level).rear + 1 = (s.live level).length

theorem length_live_le {s : State} {level : Nat} (hlevel : level < LEVELS) :
    (s.live level).length ≤ s.queued.length := by
  have hcases : level = 0 ∨ level = 1 ∨ level = 2 := by
    unfold LEVELS at hlevel
    omega
  unfold State.queued
  rcases hcases with rfl | rfl | rfl <;> simp only [List.length_append] <;> omega

section Cells

variable {s : State} {ptr : Process} {rest : List Int}
  {queue : ArrayQueue Int}

theorem length_live_popped_lt (hhead : Head s ptr rest queue) {level : Nat}
    (hlevel : level < LEVELS) :
    ((popped s queue).live level).length < s.queued.length := by
  have hperm := (queued_popped hhead).length_eq
  have hlive := length_live_le (s := popped s queue) hlevel
  simp only [List.length_cons] at hperm
  omega

theorem rear_ne_of_compact (hhead : Head s ptr rest queue)
    (hcompact : Compact s) (hlevel : s.level < 2) : (s.queue (s.level + 1)).rear ≠ MAX - 1 := by
  have hlt : s.level + 1 < LEVELS := by
    unfold LEVELS
    omega
  have hrear := hcompact.unserved (s.level + 1) (by omega) hlt (by omega)
  have hshort := length_live_popped_lt hhead hlt
  have hlen := hcompact.queued_le
  rw [live_popped hhead, if_neg (by omega)] at hshort
  unfold MAX
  omega

theorem compact_popped (hhead : Head s ptr rest queue) (hcompact : Compact s) :
    Compact (popped s queue) := by
  constructor
  case queued_le =>
    have hperm := (queued_popped hhead).length_eq
    have hlen := hcompact.queued_le
    simp only [List.length_cons] at hperm
    omega
  case rear_le =>
    intro level
    by_cases hl : level = s.level
    · subst level
      have hrear := hcompact.rear_le s.level
      simp only [popped, Function.update_self, hhead.rear_eq]
      split
      · decide
      · exact hrear
    · simp only [popped, Function.update_of_ne hl]
      exact hcompact.rear_le level
  case unserved =>
    intro level hpos hlt hlevel
    have hne : level ≠ s.level := Nat.ne_of_gt hlevel
    rw [live_popped hhead, if_neg hne]
    simp only [popped, Function.update_of_ne hne]
    exact hcompact.unserved level hpos hlt hlevel

theorem rear_le_enqueue (hle : ∀ level, (s.queue level).rear ≤ MAX - 1)
    (level : Nat) (pid : Int) (i : Nat) :
    ((enqueue s level pid).queue i).rear ≤ MAX - 1 := by
  by_cases hfull : (s.queue level).rear = MAX - 1
  · rw [enqueue_full hfull]
    exact hle i
  · rw [enqueue_push hfull]
    by_cases hi : i = level
    · subst i
      have hrear := hle level
      simp only [Function.update_self, ArrayQueue.rear_push]
      omega
    · simpa [Function.update_of_ne hi] using hle i

theorem unserved_preempt (h : Disciplined s) (hhead : Head s ptr rest queue)
    (hcompact : Compact s) {level : Nat} (hpos : 0 < level)
    (hlt : level < LEVELS) (hlevel : s.level < level) :
    ((preempt (popped s queue) ptr).queue level).rear + 1 =
      ((preempt (popped s queue) ptr).live level).length := by
  have hvalid : ((suspended s ptr queue).queue (demotedLevel s.level)).Valid :=
    valid_popped h hhead _
  have hlow : s.level < 2 := by
    unfold LEVELS at hlt
    omega
  have hpush : ((suspended s ptr queue).queue (demotedLevel s.level)).rear ≠
      MAX - 1 := by
    rw [queue_suspended hhead, if_pos hlow]
    exact rear_ne_of_compact hhead hcompact hlow
  have hrear : ((suspended s ptr queue).queue level).rear + 1 =
      ((suspended s ptr queue).live level).length :=
    (compact_popped hhead hcompact).unserved level hpos hlt hlevel
  rw [preempt_popped, live_enqueue_push _ hvalid hpush, enqueue_push hpush]
  by_cases hl : level = demotedLevel s.level
  · subst level
    simpa using hrear
  · rw [if_neg hl]
    simpa [Function.update_of_ne hl] using hrear

theorem compact_step (h : Disciplined s) (hcompact : Compact s) :
    Compact (step s) := by
  have hqueued := (length_queued_step h).trans hcompact.queued_le
  rcases step_cases h with
    ⟨-, -, hstep⟩ | ⟨hend, hstep⟩ | ⟨ptr, rest, queue, hhead, hcase⟩
  · rw [hstep] at hqueued ⊢
    refine ⟨hqueued, hcompact.rear_le, ?_⟩
    intro level hpos hlt hlevel
    exact hcompact.unserved level hpos hlt (Nat.lt_of_succ_lt hlevel)
  · rw [hstep] at hqueued ⊢
    refine ⟨hqueued, hcompact.rear_le, ?_⟩
    intro level hpos hlt hlevel
    have hnil : s.live level = [] := h.drained level (by omega) hlt
    have hrear := ArrayQueue.rear_eq_of_live_nil (h.valid level) hnil
    change (s.queue level).rear + 1 = (s.live level).length
    rw [hnil, hrear]
    rfl
  · have hpopped := compact_popped hhead hcompact
    rcases hcase with ⟨-, hstep⟩ | ⟨-, hstep⟩
    · rw [hstep] at hqueued ⊢
      exact ⟨hqueued, hpopped.rear_le, hpopped.unserved⟩
    · rw [hstep] at hqueued ⊢
      refine ⟨hqueued, ?_, ?_⟩
      · exact rear_le_enqueue (s := suspended s ptr queue) hpopped.rear_le _ _
      · intro level hpos hlt hlevel
        rw [preempt_popped, enqueue_level] at hlevel
        exact unserved_preempt h hhead hcompact hpos hlt hlevel

theorem compact_start (head : List Process) : Compact (start head) := by
  have h := filled_start head
  have hnil : ∀ level, 0 < level → ((start head).queue level).rear = -1 :=
    fun level hlevel =>
      ArrayQueue.rear_eq_of_live_nil (h.valid level) (h.live_pos level hlevel)
  constructor
  case queued_le =>
    rw [queued_start, List.length_take]
    exact Nat.min_le_left _ _
  case rear_le =>
    intro level
    cases level with
    | zero =>
        have hrear := h.rear_zero
        rw [h.live_zero, List.length_take] at hrear
        unfold MAX
        omega
    | succ level =>
        rw [hnil _ (Nat.succ_pos level)]
        decide
  case unserved =>
    intro level hpos _ _
    rw [hnil level hpos, h.live_pos level hpos]
    rfl

theorem compact_run {head : List Process} (hfresh : Fresh head) (n : Nat) :
    Compact (loop.state (start head) n) := by
  have hboth := loop.invariant (P := fun s => Disciplined s ∧ Compact s)
    ⟨disciplined_start hfresh, compact_start head⟩
    (fun _ ht _ => ⟨disciplined_step ht.1, compact_step ht.1 ht.2⟩) n
  exact hboth.2

end Cells

/-- The used cells of the lowest level together with those that its entries
will still take. -/
def State.cells (s : State) : Int :=
  (s.queue 2).rear + 1 + slots s.pending - (s.live 2).length

section Cells

variable {s : State} {ptr : Process} {rest : List Int}
  {queue : ArrayQueue Int}

theorem cells_finish_upper (h : Disciplined s) (hhead : Head s ptr rest queue)
    (hlevel : s.level < 2) (hle : ptr.remain ≤ quantum s.level) :
    (finish (popped s queue) ptr).cells = s.cells := by
  have hpending : (finish (popped s queue) ptr).pending = s.pending := by
    refine (pending_served h hhead (complete_pid _) _ false).trans ?_
    exact pending_popped_upper h hhead hlevel (rounds_finish hlevel hle)
  have hlive : (finish (popped s queue) ptr).live 2 = s.live 2 := by
    change (popped s queue).live 2 = _
    rw [live_popped hhead, if_neg (by omega)]
  have hqueue : (finish (popped s queue) ptr).queue 2 = s.queue 2 := by
    change Function.update s.queue s.level queue 2 = _
    rw [Function.update_of_ne (by omega)]
  rw [State.cells, State.cells, hpending, hlive, hqueue]

theorem cells_preempt_upper (h : Disciplined s) (hhead : Head s ptr rest queue)
    (hlevel : s.level < 2)
    (hpush : (s.queue (s.level + 1)).rear ≠ MAX - 1) :
    (preempt (popped s queue) ptr).cells = s.cells ∧
      (preempt (popped s queue) ptr).overflows = s.overflows := by
  have hpending := pending_preempt_upper h hhead hlevel hpush
  have hvalid : ((suspended s ptr queue).queue (demotedLevel s.level)).Valid :=
    valid_popped h hhead _
  have hfree : ((suspended s ptr queue).queue (demotedLevel s.level)).rear ≠
      MAX - 1 := by
    rw [queue_suspended hhead, if_pos hlevel]
    exact hpush
  have hlive : (suspended s ptr queue).live 2 = s.live 2 := by
    change (popped s queue).live 2 = _
    rw [live_popped hhead, if_neg (by omega)]
  have hqueue : (suspended s ptr queue).queue 2 = s.queue 2 := by
    change Function.update s.queue s.level queue 2 = _
    rw [Function.update_of_ne (by omega)]
  constructor
  · rw [State.cells, State.cells, hpending, preempt_popped,
      live_enqueue_push _ hvalid hfree, enqueue_push hfree]
    by_cases hl : 2 = demotedLevel s.level
    · rw [← hl]
      simp only [if_true, hlive, Function.update_self, ArrayQueue.rear_push,
        hqueue, List.length_append, List.length_singleton]
      omega
    · rw [if_neg hl]
      simp [hl, hlive, hqueue]
  · rw [preempt_popped, enqueue_push hfree]
    rfl

theorem cells_alone (h : Disciplined s) (hcompact : Compact s)
    {k : Nat} (hk : 1 ≤ k) (hpending : s.pending = [k])
    (hlive : (s.live 2).length = 1) : 1 ≤ s.cells ∧ s.cells ≤ 100 := by
  have hlength := ArrayQueue.live_length_le (h.valid 2)
  have hrear := hcompact.rear_le 2
  change ((s.live 2).length : Int) ≤ _ at hlength
  unfold MAX at hrear
  rw [State.cells, hpending, slots_singleton, hlive]
  omega

theorem cells_finish_lowest (h : Disciplined s) (hcompact : Compact s)
    (hhead : Head s ptr rest queue) (hlevel : s.level = 2)
    (hle : ptr.remain ≤ quantum s.level) :
    (finish (popped s queue) ptr).cells = s.cells ∨
      ((finish (popped s queue) ptr).cells ≤ s.cells ∧ s.cells ≤ 100) := by
  obtain ⟨k, ks, hpending, hlength, hlast, hpopped, -⟩ :=
    pending_lowest h hhead hlevel
  have hk : k ≤ 1 := hlast.mpr (hlevel ▸ hle)
  have hkpos : 1 ≤ k := pending_pos s k (by simp [hpending])
  have hspos : ∀ j ∈ ks, 1 ≤ j := fun j hj => pending_pos s j (by simp [hpending, hj])
  have hlive := hhead.live_eq
  have hrear := hhead.rear_eq
  rw [hlevel] at hlive hrear
  have hpending' : (finish (popped s queue) ptr).pending = ks :=
    (pending_served h hhead (complete_pid _) _ false).trans hpopped
  have hlive' : (finish (popped s queue) ptr).live 2 = rest := by
    change (popped s queue).live 2 = _
    rw [live_popped hhead, if_pos hlevel.symm]
  have hqueue' : (finish (popped s queue) ptr).queue 2 = queue := by
    change Function.update s.queue s.level queue 2 = _
    rw [hlevel, Function.update_self]
  have hcells : (finish (popped s queue) ptr).cells =
      queue.rear + 1 + slots ks - ks.length := by
    rw [State.cells, hpending', hlive', hqueue', hlength]
  cases rest with
  | nil =>
      have hnil : ks = [] := List.length_eq_zero_iff.mp hlength
      have hbounds := cells_alone h hcompact hkpos (hnil ▸ hpending) (by simp [hlive])
      rw [if_pos rfl] at hrear
      rw [hnil, hrear] at hcells
      simp at hcells
      omega
  | cons pid rest =>
      have hne : ks ≠ [] := List.ne_nil_of_length_pos (by simp [hlength])
      have hslots := slots_cons hkpos hne hspos
      rw [turn, if_pos hk] at hslots
      rw [if_neg (List.cons_ne_nil pid rest)] at hrear
      refine .inl ?_
      rw [hcells, State.cells, hpending, hslots, hlive, hrear, List.length_cons,
        ← hlength]
      push_cast
      omega

theorem cells_preempt_lowest (h : Disciplined s) (hcompact : Compact s)
    (hhead : Head s ptr rest queue) (hlevel : s.level = 2)
    (hlt : quantum s.level < ptr.remain)
    (hpush : ((suspended s ptr queue).queue 2).rear ≠ MAX - 1) :
    (preempt (popped s queue) ptr).cells = s.cells ∨
      ((preempt (popped s queue) ptr).cells ≤ s.cells ∧ s.cells ≤ 100) := by
  obtain ⟨k, ks, hpending, hlength, hlast, -, hnext⟩ :=
    pending_lowest h hhead hlevel
  have hpending' := hnext (hlevel ▸ hlt) hpush
  have hk : 1 < k := by
    rw [hlevel] at hlt
    omega
  have hspos : ∀ j ∈ ks, 1 ≤ j := fun j hj => pending_pos s j (by simp [hpending, hj])
  have hlive := hhead.live_eq
  have hrear := hhead.rear_eq
  rw [hlevel] at hlive hrear
  have hdemoted : demotedLevel s.level = 2 := by
    simp [demotedLevel, LEVELS, hlevel]
  have hvalid : ((suspended s ptr queue).queue 2).Valid := valid_popped h hhead _
  have hqueue' : (suspended s ptr queue).queue 2 = queue := by
    change Function.update s.queue s.level queue 2 = _
    rw [hlevel, Function.update_self]
  have hlive' : (suspended s ptr queue).live 2 = rest := by
    change (popped s queue).live 2 = _
    rw [live_popped hhead, if_pos hlevel.symm]
  have hcells : (preempt (popped s queue) ptr).cells =
      queue.rear + 1 + 1 + slots (turn k ks) - (ks.length + 1) := by
    rw [State.cells, hpending', preempt_popped, hdemoted,
      live_enqueue_push _ hvalid hpush, enqueue_push hpush]
    simp [hqueue', hlive', hlength]
  cases rest with
  | nil =>
      have hnil : ks = [] := List.length_eq_zero_iff.mp hlength
      have hbounds := cells_alone h hcompact (by omega) (hnil ▸ hpending)
        (by simp [hlive])
      rw [if_pos rfl] at hrear
      rw [hnil, hrear, turn, if_neg (by omega), List.nil_append,
        slots_singleton] at hcells
      simp only [List.length_nil] at hcells
      omega
  | cons pid rest =>
      have hne : ks ≠ [] := List.ne_nil_of_length_pos (by simp [hlength])
      have hslots := slots_cons (k := k) (by omega) hne hspos
      rw [if_neg (List.cons_ne_nil pid rest)] at hrear
      refine .inl ?_
      rw [hcells, State.cells, hpending, hslots, hlive, hrear, List.length_cons,
        ← hlength]
      push_cast
      omega

theorem cells_full (h : Disciplined s) (hhead : Head s ptr rest queue)
    (hlevel : s.level = 2) (hlt : quantum s.level < ptr.remain)
    (hfull : ((suspended s ptr queue).queue 2).rear = MAX - 1) :
    100 < s.cells := by
  obtain ⟨k, ks, hpending, hlength, hlast, -, -⟩ := pending_lowest h hhead hlevel
  have hk : 1 < k := by
    rw [hlevel] at hlt
    omega
  have hspos : ∀ j ∈ ks, 1 ≤ j := fun j hj => pending_pos s j (by simp [hpending, hj])
  have hlive := hhead.live_eq
  have hrear := hhead.rear_eq
  rw [hlevel] at hlive hrear
  have hqueue' : (suspended s ptr queue).queue 2 = queue := by
    change Function.update s.queue s.level queue 2 = _
    rw [hlevel, Function.update_self]
  rw [hqueue', hrear] at hfull
  unfold MAX at hfull
  cases rest with
  | nil => simp at hfull
  | cons pid rest =>
      have hne : ks ≠ [] := List.ne_nil_of_length_pos (by simp [hlength])
      have hslots := slots_cons (k := k) (by omega) hne hspos
      have hturn := length_le_slots (turn_pos (k := k) hspos)
      rw [turn, if_neg (by omega), List.length_append,
        List.length_singleton] at hturn
      rw [turn, if_neg (by omega)] at hslots
      rw [if_neg (List.cons_ne_nil pid rest)] at hfull
      rw [State.cells, hpending, hslots, hlive, List.length_cons, ← hlength]
      push_cast
      omega

end Cells

end SyscallSched.Simulators.Mlfq
