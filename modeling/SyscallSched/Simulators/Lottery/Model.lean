import Mathlib.Algebra.Order.Ring.Int
import Mathlib.Data.List.Basic
import Mathlib.Data.Int.Interval
import SyscallSched.Foundation.Loop

/-!
# Lottery scheduling

The main loop of `sched_algo_lottery_improved.c` and of
`sched_algo_lottery_existing.c`, which have the same code.  A pointer into the
process list is a position, so that two records may have the same pid.  The
successive values of `rand()` are a stream; the state holds how many of them
were read.  As before an `int` is an integer: the sum of the tickets and the
clock have to fit.
-/

namespace SyscallSched.Simulators.Lottery

open SyscallSched.Foundation

structure Process where
  pid : Int
  tt : Int
  «at» : Int
  bt : Int
  pr : Int
  ct : Int
  tat : Int
  wt : Int
  rt : Int
  remainingTime : Int
  completed : Bool
  deriving DecidableEq, Repr

/-- The four numbers that one call of `create_process` reads. -/
structure Request where
  pid : Int
  tt : Int
  «at» : Int
  bt : Int
  deriving DecidableEq, Repr

def newProcess (v : Request) : Process where
  pid := v.pid
  tt := v.tt
  «at» := v.at
  bt := v.bt
  pr := -1
  ct := -1
  tat := -1
  wt := -1
  rt := -1
  remainingTime := v.bt
  completed := false

def createProcess (head : List Process) (v : Request) : List Process :=
  head ++ [newProcess v]

def createProcesses (input : List Request) : List Process :=
  input.foldl createProcess []

def assignProcessors (processors : Int) (head : List Process) :
    List Process :=
  head.mapIdx fun i temp => { temp with pr := (i : Int).tmod processors }

/-- The test of both loops over the list. -/
def Process.Drawable (currentTime : Int) (p : Process) : Prop :=
  p.completed = false ∧ p.at ≤ currentTime

instance (currentTime : Int) (p : Process) :
    Decidable (p.Drawable currentTime) :=
  inferInstanceAs (Decidable (_ ∧ _))

def calculateTotalTickets (head : List Process) (currentTime : Int) : Int :=
  head.foldl (fun totalTickets temp =>
    if temp.Drawable currentTime then totalTickets + temp.tt
    else totalTickets) 0

def drawFrom (winningTicket currentTime : Int) :
    Int → List Process → Option Nat
  | _, [] => none
  | ticketCount, temp :: rest =>
      if temp.Drawable currentTime then
        if ticketCount + temp.tt ≥ winningTicket then some 0
        else
          (drawFrom winningTicket currentTime (ticketCount + temp.tt) rest).map
            Nat.succ
      else (drawFrom winningTicket currentTime ticketCount rest).map Nat.succ

/-- `rand` is the value that `rand()` returns if it is called. -/
def lotteryDraw (head : List Process) (totalTickets currentTime : Int)
    (rand : Nat) : Option Nat :=
  if totalTickets = 0 then none
  else drawFrom ((rand : Int).tmod totalTickets + 1) currentTime 0 head

structure State where
  head : List Process
  activeProcesses : Int
  round : Int
  currentTime : Int
  /-- How many values of the stream were read. -/
  draws : Nat
  deriving DecidableEq, Repr

/-- The assignments to the selected process. -/
def Process.tick (currentTime : Int) (p : Process) : Process :=
  { p with
    rt := if p.rt = -1 then currentTime - p.at else p.rt
    remainingTime := p.remainingTime - 1
    completed := if p.remainingTime - 1 = 0 then true else p.completed
    ct := if p.remainingTime - 1 = 0 then currentTime + 1 else p.ct }

def selected (rand : Nat → Nat) (s : State) : Option Nat :=
  lotteryDraw s.head (calculateTotalTickets s.head s.currentTime) s.currentTime
    (rand s.draws)

def drawsAfter (s : State) : Nat :=
  if calculateTotalTickets s.head s.currentTime = 0 then s.draws
  else s.draws + 1

/-- The branch for `selected_process == NULL`. -/
def idle (s : State) : State :=
  { s with currentTime := s.currentTime + 1, draws := drawsAfter s }

/-- The rest of the loop body for the selected process `ptr` at position `i`. -/
def serve (s : State) (i : Nat) (ptr : Process) : State where
  head := s.head.modify i (Process.tick s.currentTime)
  activeProcesses :=
    if ptr.remainingTime - 1 = 0 then s.activeProcesses - 1
    else s.activeProcesses
  round := s.round + 1
  currentTime := s.currentTime + 1
  draws := drawsAfter s

def step (rand : Nat → Nat) (s : State) : State :=
  match selected rand s with
  | none => idle s
  | some i =>
      match s.head[i]? with
      | none => idle s
      | some ptr => serve s i ptr

def loop (rand : Nat → Nat) : Loop State where
  guard s := decide (s.activeProcesses > 0)
  body := step rand

def start (head : List Process) : State where
  head := head
  activeProcesses := head.length
  round := 1
  currentTime := 0
  draws := 0

def Ends (rand : Nat → Nat) (head : List Process) (final : State) : Prop :=
  (loop rand).Exits (start head) final

def Process.metrics (temp : Process) : Process :=
  let tat := temp.ct - temp.at
  { temp with
    tat := tat, wt := tat - temp.bt,
    rt := if temp.rt = -1 then temp.at else temp.rt }

def calculateMetrics (head : List Process) : List Process :=
  head.map Process.metrics

/-! ## The draw -/

theorem calculateTotalTickets_eq_sum (head : List Process)
    (currentTime : Int) :
    calculateTotalTickets head currentTime =
      (head.map fun p => if p.Drawable currentTime then p.tt else 0).sum := by
  have general : ∀ total : Int, head.foldl (fun totalTickets temp =>
      if temp.Drawable currentTime then totalTickets + temp.tt
      else totalTickets) total = total +
        (head.map fun p => if p.Drawable currentTime then p.tt else 0).sum := by
    induction head with
    | nil => simp
    | cons temp rest ih =>
        intro total
        simp only [List.foldl_cons, ih, List.map_cons, List.sum_cons]
        split
        · exact Int.add_assoc _ _ _
        · simp
  simpa [calculateTotalTickets] using general 0

theorem calculateTotalTickets_cons (temp : Process) (rest : List Process)
    (currentTime : Int) :
    calculateTotalTickets (temp :: rest) currentTime =
      (if temp.Drawable currentTime then temp.tt else 0) +
        calculateTotalTickets rest currentTime := by
  simp [calculateTotalTickets_eq_sum]

theorem calculateTotalTickets_nonneg {head : List Process}
    (htt : ∀ p ∈ head, 0 ≤ p.tt) (currentTime : Int) :
    0 ≤ calculateTotalTickets head currentTime := by
  induction head with
  | nil => simp [calculateTotalTickets]
  | cons temp rest ih =>
      have hhead := htt temp (by simp)
      have hrest := ih fun p hp => htt p (by simp [hp])
      rw [calculateTotalTickets_cons]
      split <;> omega

theorem drawFrom_eq_some {winningTicket currentTime ticketCount : Int}
    {head : List Process} {i : Nat}
    (h : drawFrom winningTicket currentTime ticketCount head = some i)
    (hcount : ticketCount < winningTicket) :
    ∃ p, head[i]? = some p ∧ p.Drawable currentTime ∧ 1 ≤ p.tt := by
  induction head generalizing ticketCount i with
  | nil => simp [drawFrom] at h
  | cons temp rest ih =>
      rw [drawFrom] at h
      by_cases hdraw : temp.Drawable currentTime
      · rw [if_pos hdraw] at h
        by_cases hwin : ticketCount + temp.tt ≥ winningTicket
        · rw [if_pos hwin, Option.some.injEq] at h
          subst i
          exact ⟨temp, rfl, hdraw, by omega⟩
        · rw [if_neg hwin, Option.map_eq_some_iff] at h
          obtain ⟨j, hj, rfl⟩ := h
          exact ih hj (by omega)
      · rw [if_neg hdraw, Option.map_eq_some_iff] at h
        obtain ⟨j, hj, rfl⟩ := h
        exact ih hj hcount

theorem drawFrom_ne_none {winningTicket currentTime ticketCount : Int}
    {head : List Process} (hcount : ticketCount < winningTicket)
    (hsold : winningTicket ≤ ticketCount + calculateTotalTickets head currentTime) :
    drawFrom winningTicket currentTime ticketCount head ≠ none := by
  induction head generalizing ticketCount with
  | nil =>
      simp [calculateTotalTickets] at hsold
      omega
  | cons temp rest ih =>
      rw [calculateTotalTickets_cons] at hsold
      rw [drawFrom]
      by_cases hdraw : temp.Drawable currentTime
      · rw [if_pos hdraw] at hsold ⊢
        by_cases hwin : ticketCount + temp.tt ≥ winningTicket
        · simp [hwin]
        · rw [if_neg hwin]
          have hrest := ih (show ticketCount + temp.tt < winningTicket by omega)
            (by omega)
          simpa using hrest
      · rw [if_neg hdraw] at hsold ⊢
        have hrest := ih hcount (by omega)
        simpa using hrest

theorem selected_eq_some {rand : Nat → Nat} {s : State} {i : Nat}
    (h : selected rand s = some i) :
    ∃ p, s.head[i]? = some p ∧ p.Drawable s.currentTime ∧ 1 ≤ p.tt := by
  unfold selected lotteryDraw at h
  split at h
  · simp at h
  · have hmod := Int.tmod_nonneg (calculateTotalTickets s.head s.currentTime)
      (Int.natCast_nonneg (rand s.draws))
    exact drawFrom_eq_some h (by omega)

theorem selected_eq_none_iff {rand : Nat → Nat} {s : State}
    (htt : ∀ p ∈ s.head, 0 ≤ p.tt) :
    selected rand s = none ↔
      calculateTotalTickets s.head s.currentTime = 0 := by
  unfold selected lotteryDraw
  have hnonneg := calculateTotalTickets_nonneg htt s.currentTime
  by_cases htotal : calculateTotalTickets s.head s.currentTime = 0
  · simp [htotal]
  · have hpos : 0 < calculateTotalTickets s.head s.currentTime := by omega
    have hlow := Int.tmod_nonneg (calculateTotalTickets s.head s.currentTime)
      (Int.natCast_nonneg (rand s.draws))
    have hhigh := Int.tmod_lt_of_pos (rand s.draws : Int) hpos
    have hne : drawFrom ((rand s.draws : Int).tmod
        (calculateTotalTickets s.head s.currentTime) + 1) s.currentTime 0
          s.head ≠ none :=
      drawFrom_ne_none (by omega) (by omega)
    simp only [htotal, iff_false]
    exact hne

end SyscallSched.Simulators.Lottery

/-!
## Proportional draws

The tickets of a list are numbered in list order, the tickets of processes that do not
take part left out.  A process wins with the numbers of its own tickets, so it is drawn
by as many winning tickets as it holds.
-/

namespace SyscallSched.Simulators.Lottery

/-- `lottery_draw` after it has drawn `winningTicket`. -/
def drawTicket (head : List Process) (currentTime winningTicket : Int) : Option Nat :=
  drawFrom winningTicket currentTime 0 head

theorem lotteryDraw_eq_drawTicket {head : List Process} {totalTickets : Int}
    (h : totalTickets ≠ 0) (currentTime : Int) (rand : Nat) :
    lotteryDraw head totalTickets currentTime rand =
      drawTicket head currentTime ((rand : Int).tmod totalTickets + 1) := by
  rw [lotteryDraw, if_neg h]
  rfl

/-- The process at position `i` wins with the tickets after those of the processes in
front of it. -/
theorem drawFrom_eq_some_iff {winningTicket currentTime ticketCount : Int}
    {head : List Process} {i : Nat} {p : Process} (htt : ∀ p ∈ head, 0 ≤ p.tt)
    (hcount : ticketCount < winningTicket) (hp : head[i]? = some p)
    (hdraw : p.Drawable currentTime) :
    drawFrom winningTicket currentTime ticketCount head = some i ↔
      ticketCount + calculateTotalTickets (head.take i) currentTime < winningTicket ∧
      winningTicket ≤ ticketCount + calculateTotalTickets (head.take i) currentTime + p.tt := by
  induction head generalizing ticketCount i with
  | nil => simp at hp
  | cons temp rest ih =>
      have hrest : ∀ p ∈ rest, 0 ≤ p.tt := fun p hp => htt p (by simp [hp])
      rw [drawFrom]
      cases i with
      | zero =>
          simp only [List.getElem?_cons_zero, Option.some.injEq] at hp
          subst temp
          rw [if_pos hdraw]
          simp [calculateTotalTickets]
          omega
      | succ i =>
          simp only [List.getElem?_cons_succ] at hp
          rw [List.take_succ_cons, calculateTotalTickets_cons]
          have hfront := calculateTotalTickets_nonneg
            (fun p hp => hrest p (List.mem_of_mem_take hp) : ∀ p ∈ rest.take i, 0 ≤ p.tt)
            currentTime
          by_cases hhead : temp.Drawable currentTime
          · rw [if_pos hhead, if_pos hhead]
            by_cases hwin : ticketCount + temp.tt ≥ winningTicket
            · rw [if_pos hwin]
              simp
              omega
            · rw [if_neg hwin, ← Int.add_assoc, ← ih hrest (by omega) hp]
              simp
          · rw [if_neg hhead, if_neg hhead, Int.zero_add, ← ih hrest hcount hp]
            simp

theorem tickets_le_total {head : List Process} {currentTime : Int} {i : Nat} {p : Process}
    (htt : ∀ p ∈ head, 0 ≤ p.tt) (hp : head[i]? = some p) (hdraw : p.Drawable currentTime) :
    calculateTotalTickets (head.take i) currentTime + p.tt ≤
      calculateTotalTickets head currentTime := by
  induction head generalizing i with
  | nil => simp at hp
  | cons temp rest ih =>
      have hrest : ∀ p ∈ rest, 0 ≤ p.tt := fun p hp => htt p (by simp [hp])
      cases i with
      | zero =>
          simp only [List.getElem?_cons_zero, Option.some.injEq] at hp
          subst temp
          have hnonneg := calculateTotalTickets_nonneg hrest currentTime
          rw [calculateTotalTickets_cons, if_pos hdraw]
          simp [calculateTotalTickets] at hnonneg ⊢
          omega
      | succ i =>
          simp only [List.getElem?_cons_succ] at hp
          have hle := ih hrest hp
          rw [List.take_succ_cons, calculateTotalTickets_cons, calculateTotalTickets_cons]
          omega

def winningTickets (head : List Process) (currentTime : Int) (i : Nat) : List Int :=
  let tickets := (List.range (calculateTotalTickets head currentTime).toNat).map
    fun (k : Nat) => (k : Int) + 1
  tickets.filter fun w => decide (drawTicket head currentTime w = some i)

theorem mem_winningTickets {head : List Process} {currentTime w : Int} {i : Nat} :
    w ∈ winningTickets head currentTime i ↔
      (1 ≤ w ∧ w ≤ calculateTotalTickets head currentTime) ∧
        drawTicket head currentTime w = some i := by
  simp only [winningTickets, List.mem_filter, List.mem_map, List.mem_range, decide_eq_true_eq]
  refine and_congr_left fun _ => ?_
  constructor
  · rintro ⟨k, hk, rfl⟩
    omega
  · rintro ⟨hlow, hhigh⟩
    exact ⟨(w - 1).toNat, by omega, by omega⟩

theorem nodup_winningTickets (head : List Process) (currentTime : Int) (i : Nat) :
    (winningTickets head currentTime i).Nodup := by
  apply List.Nodup.filter
  apply List.Nodup.map _ List.nodup_range
  intro a b hab
  simpa using hab

theorem length_winningTickets {head : List Process} {currentTime : Int} {i : Nat} {p : Process}
    (htt : ∀ p ∈ head, 0 ≤ p.tt) (hp : head[i]? = some p) (hdraw : p.Drawable currentTime) :
    ((winningTickets head currentTime i).length : Int) = p.tt := by
  have hfront := calculateTotalTickets_nonneg
    (fun p hp => htt p (List.mem_of_mem_take hp) : ∀ p ∈ head.take i, 0 ≤ p.tt) currentTime
  have hsold := tickets_le_total htt hp hdraw
  have howner : 0 ≤ p.tt := htt p (List.mem_of_getElem? hp)
  have hset : (winningTickets head currentTime i).toFinset =
      Finset.Ioc (calculateTotalTickets (head.take i) currentTime)
        (calculateTotalTickets (head.take i) currentTime + p.tt) := by
    ext w
    rw [List.mem_toFinset, mem_winningTickets, Finset.mem_Ioc]
    constructor
    · rintro ⟨⟨hw, _⟩, hdrawn⟩
      have hrange := (drawFrom_eq_some_iff htt (show 0 < w by omega) hp hdraw).mp hdrawn
      omega
    · rintro ⟨hlow, hhigh⟩
      refine ⟨by omega, ?_⟩
      exact (drawFrom_eq_some_iff htt (show 0 < w by omega) hp hdraw).mpr (by omega)
  rw [← List.toFinset_card_of_nodup (nodup_winningTickets head currentTime i), hset,
    Int.card_Ioc]
  omega

/-- The winning ticket is one of those sold, each of them draws a process that takes
part, and each such process is drawn by as many winning tickets as it holds. -/
theorem lotteryDraw_proportional (head : List Process) (currentTime : Int)
    (htt : ∀ p ∈ head, 0 ≤ p.tt) (hpos : 0 < calculateTotalTickets head currentTime) :
    (∀ rand, ∃ w, (1 ≤ w ∧ w ≤ calculateTotalTickets head currentTime) ∧
      lotteryDraw head (calculateTotalTickets head currentTime) currentTime rand =
        drawTicket head currentTime w ∧
      w = (rand : Int).tmod (calculateTotalTickets head currentTime) + 1) ∧
    (∀ w, 1 ≤ w ∧ w ≤ calculateTotalTickets head currentTime → ∃ i p,
      drawTicket head currentTime w = some i ∧ head[i]? = some p ∧
      p.completed = false ∧ p.at ≤ currentTime) ∧
    ∀ i p, head[i]? = some p → p.completed = false → p.at ≤ currentTime →
      ((winningTickets head currentTime i).length : Int) = p.tt := by
  refine ⟨?_, ?_, ?_⟩
  · intro rand
    have hlow := Int.tmod_nonneg (calculateTotalTickets head currentTime)
      (Int.natCast_nonneg rand)
    have hhigh := Int.tmod_lt_of_pos (rand : Int) hpos
    refine ⟨_, ?_, lotteryDraw_eq_drawTicket (by omega) currentTime rand, rfl⟩
    omega
  · intro w hw
    have hne : drawTicket head currentTime w ≠ none :=
      drawFrom_ne_none (by omega) (by omega)
    obtain ⟨i, hi⟩ := Option.ne_none_iff_exists'.mp hne
    obtain ⟨p, hp, hdraw, _⟩ := drawFrom_eq_some hi (by omega)
    exact ⟨i, p, hi, hp, hdraw.1, hdraw.2⟩
  · intro i p hp hcompleted harrived
    exact length_winningTickets htt hp ⟨hcompleted, harrived⟩

def fourProcesses : List Process :=
  createProcesses [⟨1, 2, 0, 3⟩, ⟨2, 0, 0, 1⟩, ⟨3, 5, 9, 1⟩, ⟨4, 3, 1, 2⟩]

theorem lotteryDraw_proportional_four :
    calculateTotalTickets fourProcesses 1 = 5 ∧
      (winningTickets fourProcesses 1 3).length = (3 : Int) :=
  ⟨by decide, (lotteryDraw_proportional fourProcesses 1 (by decide) (by decide)).2.2 3 _ rfl
    (by decide) (by decide)⟩

end SyscallSched.Simulators.Lottery
