import SyscallSched.Simulators.Mlfqs.Model

/-!
# What the membership test reads

`enqueue` with the indices that its loops read.  The loop from `front` to `rear` has an
iteration even if the queue is empty, as both are -1 then: it reads `queue[-1]`, and a
process whose pid happens to lie there does not join.
-/

namespace SyscallSched.Simulators.Mlfqs

open SyscallSched.Foundation

/-! ## The loops with their reads -/

/-- The loop over `n` indices from `i` on: `is_in_queue`, and the indices that are read. -/
def search (cell : Int → Int) (pid : Int) : Nat → Int → Bool × List Int
  | 0, _ => (false, [])
  | n + 1, i =>
      if cell i = pid then (true, [i])
      else
        let next := search cell pid n (i + 1)
        (next.1, i :: next.2)

/-- `for (int i = *front; i <= *rear; i++)` -/
def isInQueue (queue : ArrayQueue Int) (pid : Int) : Bool × List Int :=
  search queue.cell pid (queue.rear - queue.front + 1).toNat queue.front

/-- The queue, the indices read so far and the pids appended so far. -/
structure Traced where
  queue : ArrayQueue Int
  reads : List Int
  appended : List Int

def Traced.add (s : Traced) (pid : Int) : Traced :=
  let found := isInQueue s.queue pid
  if found.1 then { s with reads := s.reads ++ found.2 }
  else
    { queue := s.queue.push pid
      reads := s.reads ++ found.2
      appended := s.appended ++ [pid] }

def Traced.scan (currentTime : Int) (head : List Process) (s : Traced) : Traced :=
  head.foldl (fun s temp => if temp.Ready currentTime then s.add temp.pid else s) s

def tracedEnqueue (currentTime : Int) (head : List Process) (queue : ArrayQueue Int)
    (pid : Int) : Traced :=
  let s := Traced.scan currentTime head ⟨queue, [], []⟩
  if pid ≠ -1 then s.add pid else s

section

variable {cell : Int → Int} {pid i t front rear : Int} {n : Nat} {head : List Process}
  {s s' : Traced} {pids : List Int}

theorem search_contains (cell : Int → Int) (pid : Int) (n : Nat) (i : Int) :
    (search cell pid n i).1 = ((List.range n).map fun k : Nat => cell (i + k)).contains pid := by
  induction n generalizing i with
  | zero => rfl
  | succ n ih =>
      have hshift : (fun k : Nat => cell (i + 1 + k)) =
          (fun k : Nat => cell (i + k)) ∘ Nat.succ := by
        funext k
        simp only [Function.comp_apply, Nat.succ_eq_add_one]
        congr 1
        omega
      rw [search, List.range_succ_eq_map, List.map_cons, List.map_map, ← hshift]
      by_cases h : cell i = pid
      · simp [h]
      · simp [h, ih, Ne.symm h]

theorem isInQueue_contains (queue : ArrayQueue Int) (pid : Int) :
    (isInQueue queue pid).1 = queue.window.contains pid := search_contains _ _ _ _

theorem Traced.add_queue (s : Traced) (queue : Queue) (hqueue : queue.toArrayQueue = s.queue)
    (pid : Int) : (Mlfqs.add arrayOps queue pid).toArrayQueue = (s.add pid).queue := by
  have hfound : arrayOps.isInQueue queue pid = (isInQueue s.queue pid).1 := by
    rw [isInQueue_contains, ← hqueue]
    rfl
  rw [Mlfqs.add, Traced.add, hfound]
  cases (isInQueue s.queue pid).1 with
  | true => exact hqueue
  | false => exact congrArg (ArrayQueue.push · pid) hqueue

theorem Traced.scan_queue (s : Traced) (queue : Queue) (hqueue : queue.toArrayQueue = s.queue)
    (t : Int) (head : List Process) :
    (Mlfqs.scan arrayOps t head queue).toArrayQueue = (s.scan t head).queue := by
  induction head generalizing s queue with
  | nil => exact hqueue
  | cons temp head ih =>
      by_cases hready : temp.Ready t
      · simp only [Mlfqs.scan, Traced.scan, List.foldl_cons, if_pos hready]
        exact ih _ _ (s.add_queue queue hqueue temp.pid)
      · simp only [Mlfqs.scan, Traced.scan, List.foldl_cons, if_neg hready]
        exact ih _ _ hqueue

theorem tracedEnqueue_queue (t : Int) (head : List Process) (queue : Queue) (pid : Int) :
    (tracedEnqueue t head queue.toArrayQueue pid).queue =
      (enqueue arrayOps t head queue pid).toArrayQueue := by
  have hscan := Traced.scan_queue ⟨queue.toArrayQueue, [], []⟩ queue rfl t head
  rw [tracedEnqueue, enqueue]
  split
  · exact (Traced.add_queue _ _ hscan pid).symm
  · exact hscan.symm

/-! ## The candidates -/

def candidates (t : Int) (head : List Process) (pid : Int) : List Int :=
  ((head.filter fun temp => temp.Ready t).map Process.pid) ++ if pid ≠ -1 then [pid] else []

theorem tracedEnqueue_eq (t : Int) (head : List Process) (queue : ArrayQueue Int) (pid : Int) :
    tracedEnqueue t head queue pid =
      (candidates t head pid).foldl Traced.add ⟨queue, [], []⟩ := by
  have hscan : ∀ (head : List Process) (s : Traced), s.scan t head =
      ((head.filter fun temp => temp.Ready t).map Process.pid).foldl Traced.add s := by
    intro head
    induction head with
    | nil => exact fun s => rfl
    | cons temp head ih =>
        intro s
        by_cases hready : temp.Ready t
        · simpa [Traced.scan, hready] using ih (s.add temp.pid)
        · simpa [Traced.scan, hready] using ih s
  rw [tracedEnqueue, candidates, List.foldl_append, hscan]
  split
  · rfl
  · rfl

theorem length_candidates_le (t : Int) (head : List Process) (pid : Int) :
    (candidates t head pid).length ≤ head.length + 1 := by
  have hle := List.length_filter_le (fun temp => decide (temp.Ready t)) head
  rw [candidates, List.length_append, List.length_map]
  split
  · simpa using hle
  · simpa using hle.trans (Nat.le_succ _)

/-! ## A queue that is not empty -/

theorem search_reads (cell : Int → Int) (pid : Int) (n : Nat) (i j : Int)
    (hj : j ∈ (search cell pid n i).2) : i ≤ j ∧ j < i + n := by
  induction n generalizing i with
  | zero => exact absurd hj List.not_mem_nil
  | succ n ih =>
      rw [search] at hj
      split at hj
      · rw [List.mem_singleton.mp hj]
        omega
      · cases List.mem_cons.mp hj with
        | inl heq => omega
        | inr hmem =>
            have := ih (i + 1) hmem
            omega

theorem search_congr {cell' : Int → Int} (pid : Int) (n : Nat) (i : Int)
    (h : ∀ j, i ≤ j → j < i + n → cell j = cell' j) :
    search cell pid n i = search cell' pid n i := by
  induction n generalizing i with
  | zero => rfl
  | succ n ih =>
      rw [search, search, h i (le_refl i) (by omega),
        ih (i + 1) fun j hj hj' => h j (by omega) (by omega)]

/-- The two queues have entries, and the same ones at the same indices. -/
structure Alike (s s' : Traced) : Prop where
  front : s.queue.front = s'.queue.front
  rear : s.queue.rear = s'.queue.rear
  nonneg : 0 ≤ s.queue.front
  le : s.queue.front ≤ s.queue.rear
  cells : ∀ i, s.queue.front ≤ i → i ≤ s.queue.rear → s.queue.cell i = s'.queue.cell i
  appended : s.appended = s'.appended

theorem Alike.search (h : Alike s s') (pid : Int) :
    isInQueue s.queue pid = isInQueue s'.queue pid := by
  have hle := h.le
  rw [isInQueue, isInQueue, ← h.front, ← h.rear]
  exact search_congr pid _ _ fun j hj hj' => h.cells j hj (by omega)

theorem push_of_nonneg {q : ArrayQueue Int} (hfront : 0 ≤ q.front) (hle : q.front ≤ q.rear)
    (x : Int) : q.push x = ⟨Function.update q.cell (q.rear + 1) x, q.front, q.rear + 1⟩ := by
  rw [ArrayQueue.push, if_neg (by omega)]

theorem Alike.add (h : Alike s s') (pid : Int) : Alike (s.add pid) (s'.add pid) := by
  have hle := h.le
  have hnonneg := h.nonneg
  rw [Traced.add, Traced.add, ← h.search pid]
  cases (isInQueue s.queue pid).1 with
  | true => exact ⟨h.front, h.rear, h.nonneg, h.le, h.cells, h.appended⟩
  | false =>
      rw [if_neg Bool.false_ne_true, if_neg Bool.false_ne_true, push_of_nonneg hnonneg hle,
        push_of_nonneg (h.front ▸ hnonneg) (h.front ▸ h.rear ▸ hle), ← h.front, ← h.rear]
      constructor
      case front => rfl
      case rear => rfl
      case nonneg => exact hnonneg
      case le =>
        change s.queue.front ≤ s.queue.rear + 1
        omega
      case cells =>
        intro i hi hi'
        by_cases hlast : i = s.queue.rear + 1
        · simp [hlast]
        · have hi' : i ≤ s.queue.rear + 1 := hi'
          dsimp only
          rw [Function.update_of_ne hlast, Function.update_of_ne hlast]
          exact h.cells i hi (by omega)
      case appended => rw [h.appended]

theorem Alike.foldl (h : Alike s s') (pids : List Int) :
    Alike (pids.foldl Traced.add s) (pids.foldl Traced.add s') := by
  induction pids generalizing s s' with
  | nil => exact h
  | cons pid pids ih => exact ih (h.add pid)

theorem foldl_reads (hnonneg : 0 ≤ s.queue.front) (hle : s.queue.front ≤ s.queue.rear)
    (hi : i ∈ (pids.foldl Traced.add s).reads) :
    i ∈ s.reads ∨ s.queue.front ≤ i ∧ i < s.queue.rear + pids.length := by
  induction pids generalizing s with
  | nil => exact .inl hi
  | cons pid pids ih =>
      have hstep : ∀ j ∈ (s.add pid).reads,
          j ∈ s.reads ∨ s.queue.front ≤ j ∧ j ≤ s.queue.rear := by
        intro j hj
        have hsearch := search_reads s.queue.cell pid
          (s.queue.rear - s.queue.front + 1).toNat s.queue.front j
        have hmem : j ∈ s.reads ++ (isInQueue s.queue pid).2 := by
          rw [Traced.add] at hj
          split at hj
          · exact hj
          · exact hj
        cases List.mem_append.mp hmem with
        | inl h => exact .inl h
        | inr h =>
            have := hsearch h
            exact .inr (by omega)
      have hqueue : (s.add pid).queue.front = s.queue.front ∧
          s.queue.rear ≤ (s.add pid).queue.rear ∧
          (s.add pid).queue.rear ≤ s.queue.rear + 1 := by
        rw [Traced.add]
        split
        · exact ⟨rfl, le_rfl, Int.le_add_one le_rfl⟩
        · rw [push_of_nonneg hnonneg hle]
          exact ⟨rfl, by dsimp only; omega, by dsimp only; omega⟩
      obtain ⟨hfront, hrear, hrear'⟩ := hqueue
      rw [List.length_cons]
      push_cast
      cases ih (s := s.add pid) (by omega) (by omega) hi with
      | inl h =>
          cases hstep i h with
          | inl h => exact .inl h
          | inr h => exact .inr (by omega)
      | inr h => exact .inr (by omega)

/-! ## An empty queue -/

theorem isInQueue_empty (cell : Int → Int) (pid : Int) :
    isInQueue (.empty cell) pid = (decide (cell (-1) = pid), [-1]) := by
  change search cell pid 1 (-1) = _
  rw [search, search]
  split
  case isTrue h => rw [decide_eq_true h]
  case isFalse h => rw [decide_eq_false h]

theorem foldl_appended (pids : List Int) (s : Traced) :
    ∃ more, (pids.foldl Traced.add s).appended = s.appended ++ more := by
  induction pids generalizing s with
  | nil => exact ⟨[], (List.append_nil _).symm⟩
  | cons pid pids ih =>
      obtain ⟨more, hmore⟩ := ih (s.add pid)
      rw [List.foldl_cons, hmore, Traced.add]
      split
      · exact ⟨more, rfl⟩
      · exact ⟨pid :: more, List.append_assoc _ _ _⟩

/-- The first pid joins, unless it lies in the cell before the array. -/
theorem foldl_joins (hempty : s.queue = .empty cell) (hcell : cell (-1) ≠ pid)
    (happended : s.appended = []) :
    ((pid :: pids).foldl Traced.add s).appended.head? = some pid := by
  obtain ⟨more, hmore⟩ := foldl_appended pids (s.add pid)
  rw [List.foldl_cons, hmore, Traced.add, hempty, isInQueue_empty, decide_eq_false hcell,
    if_neg Bool.false_ne_true, happended]
  rfl

/-- The pid in the cell before the array is never the first to join. -/
theorem foldl_hidden (hempty : s.queue = .empty cell) (happended : s.appended = [])
    (pids : List Int) :
    (pids.foldl Traced.add s).appended.head? ≠ some (cell (-1)) := by
  induction pids generalizing s with
  | nil =>
      rw [List.foldl_nil, happended]
      exact fun h => by cases h
  | cons pid pids ih =>
      by_cases hcell : cell (-1) = pid
      · rw [List.foldl_cons, Traced.add, hempty, isInQueue_empty, decide_eq_true hcell, if_pos rfl]
        exact ih rfl happended
      · rw [foldl_joins hempty hcell happended]
        exact fun h => hcell (Option.some.inj h).symm

end

/-! ## What `enqueue` depends on -/

theorem valid_tracedEnqueue {queue : ArrayQueue Int} (hq : queue.Valid) (t : Int)
    (head : List Process) (pid : Int) : (tracedEnqueue t head queue pid).queue.Valid := by
  have hfold : ∀ (pids : List Int) (s : Traced), s.queue.Valid →
      (pids.foldl Traced.add s).queue.Valid := by
    intro pids
    induction pids with
    | nil => exact fun s hs => hs
    | cons c pids ih =>
        intro s hs
        apply ih
        rw [Traced.add]
        split
        · exact hs
        · exact ArrayQueue.valid_push hs c
  rw [tracedEnqueue_eq]
  exact hfold _ _ hq

def SameWindow (front rear : Int) (cell cell' : Int → Int) : Prop :=
  front ≠ -1 → ∀ i, front ≤ i → i ≤ rear → cell i = cell' i

/-- What `enqueue` does depends on the entries only, and it stays inside the array. -/
structure ReadsEntries (t : Int) (head : List Process) (front rear pid : Int) : Prop where
  same : ∀ cell cell', SameWindow front rear cell cell' →
    let s := tracedEnqueue t head ⟨cell, front, rear⟩ pid
    let s' := tracedEnqueue t head ⟨cell', front, rear⟩ pid
    s.appended = s'.appended ∧ s.queue.front = s'.queue.front ∧ s.queue.rear = s'.queue.rear
  inside : rear < MAX - head.length → ∀ cell,
    ∀ i ∈ (tracedEnqueue t head ⟨cell, front, rear⟩ pid).reads, 0 ≤ i ∧ i < MAX

section

variable {t front rear pid : Int} {head : List Process}

theorem ReadsEntries.of_entries (hfront : 0 ≤ front) (hle : front ≤ rear) :
    ReadsEntries t head front rear pid := by
  constructor
  case same =>
    intro cell cell' hsame
    have halike : Alike ⟨⟨cell, front, rear⟩, [], []⟩ ⟨⟨cell', front, rear⟩, [], []⟩ :=
      ⟨rfl, rfl, hfront, hle, hsame (by omega), rfl⟩
    have hend := halike.foldl (candidates t head pid)
    rw [tracedEnqueue_eq, tracedEnqueue_eq]
    exact ⟨hend.appended, hend.front, hend.rear⟩
  case inside =>
    intro hroom cell i hi
    rw [tracedEnqueue_eq] at hi
    have hlength := length_candidates_le t head pid
    cases foldl_reads (s := ⟨⟨cell, front, rear⟩, [], []⟩) hfront hle hi with
    | inl h => exact absurd h List.not_mem_nil
    | inr h =>
        have hlow : front ≤ i := h.1
        have hhigh : i < rear + (candidates t head pid).length := h.2
        omega

theorem ReadsEntries.of_no_candidates (h : candidates t head pid = []) :
    ReadsEntries t head front rear pid := by
  constructor
  case same =>
    intro cell cell' _
    rw [tracedEnqueue_eq, tracedEnqueue_eq, h]
    exact ⟨rfl, rfl, rfl⟩
  case inside =>
    intro _ cell i hi
    rw [tracedEnqueue_eq, h] at hi
    exact absurd hi List.not_mem_nil

/-- The first candidate joins an empty queue or not, as `queue[-1]` has it. -/
theorem not_readsEntries (h : candidates t head pid ≠ []) :
    ¬ ReadsEntries t head (-1) (-1) pid := by
  intro hreads
  obtain ⟨c, cs, hcs⟩ := List.exists_cons_of_ne_nil h
  have hsame := (hreads.same (fun _ => c) (fun _ => c + 1) fun hne => absurd rfl hne).1
  rw [tracedEnqueue_eq, tracedEnqueue_eq, hcs] at hsame
  have hhidden := @foldl_hidden (fun _ => c) ⟨.empty fun _ => c, [], []⟩ rfl rfl (c :: cs)
  have hjoins := @foldl_joins (fun _ => c + 1) c ⟨.empty fun _ => c + 1, [], []⟩ cs rfl
    (by omega) rfl
  exact hhidden ((congrArg List.head? hsame).trans hjoins)

theorem candidates_eq_nil_iff : candidates t head pid = [] ↔
    pid = -1 ∧ ∀ temp ∈ head, ¬ temp.Ready t := by
  rw [candidates, List.append_eq_nil_iff, List.map_eq_nil_iff, List.filter_eq_nil_iff]
  simp only [decide_eq_true_eq, ite_eq_right_iff, reduceCtorEq, imp_false, not_not]
  exact and_comm

end

/-- `enqueue` looks at entries only, exactly if the queue has one or no pid is tested. -/
theorem enqueue_readsEntries_iff (t : Int) (head : List Process) (pid : Int) {front rear : Int}
    (hvalid : front = -1 ∧ rear = -1 ∨ 0 ≤ front ∧ front ≤ rear) :
    ReadsEntries t head front rear pid ↔
      front ≠ -1 ∨ pid = -1 ∧ ∀ temp ∈ head, ¬ temp.Ready t := by
  rw [← candidates_eq_nil_iff]
  cases hvalid with
  | inl hempty =>
      obtain ⟨rfl, rfl⟩ := hempty
      rw [or_iff_right (not_not_intro rfl)]
      constructor
      · exact fun hreads => not_not.mp fun h => not_readsEntries h hreads
      · exact ReadsEntries.of_no_candidates
  | inr hentries => exact iff_of_true (.of_entries hentries.1 hentries.2) (.inl (by omega))

def arrived : Process :=
  { pid := 1, «at» := 0, bt := 3, pr := 0, ct := -1, tat := -1, wt := -1, rt := -1, remain := 3 }

theorem enqueue_readsEntries_partly : ReadsEntries 0 [arrived] 2 4 7 :=
  (enqueue_readsEntries_iff 0 [arrived] 7 (.inr (by decide))).mpr (.inl (by decide))

/-- The first call of `rr`: with 1 in `queue[-1]`, the process does not join. -/
theorem enqueue_readsBefore :
    ¬ ReadsEntries 0 [arrived] (-1) (-1) (-1) ∧
      (tracedEnqueue 0 [arrived] (.empty fun _ => 1) (-1)).appended = [] ∧
      (tracedEnqueue 0 [arrived] (.empty fun _ => 0) (-1)).appended = [1] ∧
      (tracedEnqueue 0 [arrived] (.empty fun _ => 0) (-1)).reads = [-1] :=
  ⟨not_readsEntries (by decide), by decide, by decide, by decide⟩

end SyscallSched.Simulators.Mlfqs
