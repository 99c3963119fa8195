import Mathlib.Algebra.Order.Group.Int
import SyscallSched.Foundation.Makespan
import SyscallSched.Simulators.Lottery.Correctness

/-!
# The makespan of the lottery loop

Two runs on different streams may serve different processes in every iteration.
Their `load`, the work left of the processes that arrive until some time, is
nevertheless the same after the same number of iterations, and with it the idle
iterations and the end of the loop.
-/

namespace SyscallSched.Simulators.Lottery

open SyscallSched.Foundation

def load (horizon : Int) (head : List Process) : Int :=
  (head.map fun p => if p.at ≤ horizon then p.remainingTime else 0).sum

theorem load_pos_iff {s : State} (h : Consistent s) (horizon : Int) :
    0 < load horizon s.head ↔
      ∃ p ∈ s.head, p.at ≤ horizon ∧ p.completed = false := by
  have hnonneg : ∀ x ∈ s.head.map fun p =>
      if p.at ≤ horizon then p.remainingTime else 0, 0 ≤ x := by
    intro x hx
    obtain ⟨p, hp, rfl⟩ := List.mem_map.mp hx
    split
    · exact (h.kept p hp).nonneg
    · exact Int.le_refl 0
  constructor
  · intro hpos
    by_contra hnone
    have hzero : load horizon s.head = 0 := by
      apply List.sum_eq_zero
      intro x hx
      obtain ⟨p, hp, rfl⟩ := List.mem_map.mp hx
      by_cases hat : p.at ≤ horizon
      · have hcompleted : p.completed = true := by
          by_contra hnot
          exact hnone ⟨p, hp, hat, by simpa using hnot⟩
        rw [if_pos hat]
        exact (h.kept p hp).completed_iff.mp hcompleted
      · exact if_neg hat
    omega
  · rintro ⟨p, hp, hat, hcompleted⟩
    have hp' := (h.kept p hp).pos_iff.mpr hcompleted
    have hle : p.remainingTime ≤ load horizon s.head := by
      refine List.single_le_sum hnonneg _ ?_
      refine List.mem_map.mpr ⟨p, hp, ?_⟩
      exact if_pos hat
    omega

theorem load_serve {s : State} {i : Nat} {p : Process} {horizon : Int}
    (hp : s.head[i]? = some p) (hat : p.at ≤ horizon) :
    load horizon (serve s i p).head = load horizon s.head - 1 := by
  obtain ⟨before, after, hsplit, hmodify⟩ :=
    modify_split hp (Process.tick s.currentTime)
  simp only [load, serve, hmodify]
  simp only [hsplit, List.map_append, List.map_cons, List.sum_append,
    List.sum_cons, tick_remainingTime, tick_at, if_pos hat]
  omega

theorem selected_none_iff_load {rand : Nat → Nat} {s : State} {last : Int}
    (h : Consistent s) (hticketed : Ticketed last s) :
    selected rand s = none ↔ ¬ 0 < load s.currentTime s.head := by
  rw [selected_eq_none_iff fun p hp => (h.kept p hp).tickets,
    calculateTotalTickets_eq_zero_iff fun p hp => (hticketed p hp).1,
    load_pos_iff h]
  constructor
  · rintro hnone ⟨p, hp, hat, hcompleted⟩
    exact hnone p hp ⟨hcompleted, hat⟩
  · intro hnone p hp hdraw
    exact hnone ⟨p, hp, hdraw.2, hdraw.1⟩

theorem guard_iff_load {rand : Nat → Nat} {s : State} (h : Consistent s) :
    (loop rand).guard s = true ↔
      ∃ horizon ≥ s.currentTime, 0 < load horizon s.head := by
  simp only [loop, decide_eq_true_eq]
  constructor
  · intro hactive
    obtain ⟨p, hp, hcompleted⟩ := exists_uncompleted h hactive
    refine ⟨max s.currentTime p.at, Int.le_max_left _ _, ?_⟩
    exact (load_pos_iff h _).mpr ⟨p, hp, Int.le_max_right _ _, hcompleted⟩
  · rintro ⟨horizon, -, hpos⟩
    obtain ⟨p, hp, -, hcompleted⟩ := (load_pos_iff h horizon).mp hpos
    have hcount : 0 < s.head.countP fun p => !p.completed :=
      List.countP_pos_iff.mpr ⟨p, hp, by simp [hcompleted]⟩
    have hactive := h.active
    omega

/-! ## Two streams -/

/-- Two states that differ only in who has been served. -/
structure SameLoad (last : Int) (s s' : State) : Prop where
  consistent : Consistent s
  consistent' : Consistent s'
  ticketed : Ticketed last s
  ticketed' : Ticketed last s'
  currentTime_eq : s.currentTime = s'.currentTime
  load_eq : ∀ horizon ≥ s.currentTime, load horizon s.head = load horizon s'.head

section Streams

variable {last : Int} {s s' : State} (rand rand' : Nat → Nat)

theorem SameLoad.guard_eq (h : SameLoad last s s') :
    (loop rand).guard s = (loop rand').guard s' := by
  rw [Bool.eq_iff_iff, guard_iff_load h.consistent, guard_iff_load h.consistent']
  constructor
  · rintro ⟨horizon, hle, hpos⟩
    exact ⟨horizon, h.currentTime_eq ▸ hle, h.load_eq horizon hle ▸ hpos⟩
  · rintro ⟨horizon, hle, hpos⟩
    have hle' : horizon ≥ s.currentTime := h.currentTime_eq ▸ hle
    exact ⟨horizon, hle', h.load_eq horizon hle' ▸ hpos⟩

theorem SameLoad.selected_none_iff (h : SameLoad last s s') :
    selected rand s = none ↔ selected rand' s' = none := by
  have hload := h.load_eq s.currentTime (Int.le_refl _)
  rw [selected_none_iff_load h.consistent h.ticketed,
    selected_none_iff_load h.consistent' h.ticketed', hload, h.currentTime_eq]

theorem step_load (h : Consistent s) :
    (step rand s).currentTime = s.currentTime + 1 ∧
      ∀ horizon ≥ s.currentTime, load horizon (step rand s).head =
        load horizon s.head - if selected rand s = none then 0 else 1 := by
  rcases step_cases rand fun p hp => (h.kept p hp).tickets with
    ⟨hsel, -, hstep⟩ | ⟨i, p, hsel, hp, hdraw, -, hstep⟩
  · rw [hstep, hsel]
    refine ⟨rfl, ?_⟩
    intro horizon _
    simp [idle]
  · rw [hstep, hsel]
    refine ⟨rfl, ?_⟩
    intro horizon hle
    rw [load_serve hp (hdraw.2.trans hle)]
    simp

theorem sameLoad_step (h : SameLoad last s s') :
    SameLoad last (step rand s) (step rand' s') := by
  obtain ⟨htime, hload⟩ := step_load rand h.consistent
  obtain ⟨htime', hload'⟩ := step_load rand' h.consistent'
  constructor
  case consistent => exact consistent_step h.consistent
  case consistent' => exact consistent_step h.consistent'
  case ticketed => exact ticketed_step rand h.consistent h.ticketed
  case ticketed' => exact ticketed_step rand' h.consistent' h.ticketed'
  case currentTime_eq => rw [htime, htime', h.currentTime_eq]
  case load_eq =>
    intro horizon hle
    have hle' : horizon ≥ s.currentTime := by omega
    have hsel := h.selected_none_iff rand rand'
    rw [hload horizon hle', hload' horizon (h.currentTime_eq ▸ hle'),
      h.load_eq horizon hle']
    simp only [hsel]

end Streams

theorem sameLoad_run {head : List Process} (h : Admissible head)
    (htt : ∀ p ∈ head, 1 ≤ p.tt) (rand rand' : Nat → Nat) :
    ∃ last, ∀ n, SameLoad last ((loop rand).state (start head) n)
      ((loop rand').state (start head) n) := by
  obtain ⟨last, hlast⟩ := exists_last head
  have hticketed : Ticketed last (start head) := fun p hp => ⟨htt p hp, hlast p hp⟩
  have hstart : SameLoad last (start head) (start head) :=
    ⟨consistent_start h, consistent_start h, hticketed, hticketed, rfl,
      fun _ _ => rfl⟩
  refine ⟨last, fun n => ?_⟩
  exact (loop rand).lockstep (loop rand') (R := SameLoad last)
    (fun s t hst => hst.guard_eq rand rand')
    (fun s t hst _ => sameLoad_step rand rand' hst) hstart n

/-! ## The common end -/

def task (p : Process) : Task := (p.at, p.remainingTime)

/-- The rest of the work would be finished at `finish` by a server that takes
the processes in the order of their arrival. -/
def Finishes (finish : Int) (s : State) : Prop :=
  ∃ tasks : List Task, tasks.Perm (s.head.map task) ∧
    tasks.Pairwise (fun a b => a.1 ≤ b.1) ∧
      finishTime s.currentTime tasks = finish

theorem finishes_idle {finish last : Int} {s : State} (h : Consistent s)
    (hticketed : Ticketed last s) (hactive : s.activeProcesses > 0)
    (htotal : calculateTotalTickets s.head s.currentTime = 0)
    (hfinish : Finishes finish s) : Finishes finish (idle s) := by
  obtain ⟨tasks, hperm, hsorted, htime⟩ := hfinish
  have hnone := (calculateTotalTickets_eq_zero_iff
    fun p hp => (hticketed p hp).1).mp htotal
  refine ⟨tasks, hperm, hsorted, ?_⟩
  rw [← htime]
  refine finishTime_idle ?_ ?_
  · intro a ha
    obtain ⟨p, hp, rfl⟩ := List.mem_map.mp (hperm.mem_iff.mp ha)
    have hkept := h.kept p hp
    have hbt := hkept.bt_pos
    by_cases hat : p.at ≤ s.currentTime
    · have hcompleted : p.completed = true := by
        by_contra hnot
        exact hnone p hp ⟨by simpa using hnot, hat⟩
      exact .inl ⟨hkept.completed_iff.mp hcompleted, hat⟩
    · exact .inr (by simpa [task] using hat)
  · obtain ⟨p, hp, hcompleted⟩ := exists_uncompleted h hactive
    refine ⟨task p, hperm.mem_iff.mpr (List.mem_map_of_mem hp), ?_⟩
    by_contra hnot
    exact hnone p hp ⟨hcompleted, by simpa [task] using hnot⟩

theorem finishes_serve {finish : Int} {s : State} (h : Consistent s) {i : Nat}
    {p : Process} (hp : s.head[i]? = some p) (hdraw : p.Drawable s.currentTime)
    (hfinish : Finishes finish s) : Finishes finish (serve s i p) := by
  obtain ⟨tasks, hperm, hsorted, htime⟩ := hfinish
  obtain ⟨left, right, hsplit, hmodify⟩ :=
    modify_split hp (Process.tick s.currentTime)
  rw [hsplit, List.map_append, List.map_cons] at hperm
  have hmem : task p ∈ tasks := hperm.mem_iff.mpr (by simp)
  obtain ⟨before, after, rfl⟩ := List.append_of_mem hmem
  have hwork : ∀ a ∈ before, 0 ≤ a.2 := by
    intro a ha
    have hmem := hperm.mem_iff.mp (List.mem_append_left _ ha)
    rw [← List.map_cons, ← List.map_append, ← hsplit] at hmem
    obtain ⟨q, hq, rfl⟩ := List.mem_map.mp hmem
    exact (h.kept q hq).nonneg
  have hrest : (before ++ after).Perm (left.map task ++ right.map task) := by
    have hcons := (List.perm_middle.symm.trans hperm).trans List.perm_middle
    exact hcons.cons_inv
  have hfst : (before ++ (p.at, p.remainingTime - 1) :: after).map Prod.fst =
      (before ++ task p :: after).map Prod.fst := by
    simp [task]
  refine ⟨before ++ (p.at, p.remainingTime - 1) :: after, ?_, ?_, ?_⟩
  · simp only [serve, hmodify, List.map_append, List.map_cons]
    exact (List.perm_middle.trans (hrest.cons _)).trans List.perm_middle.symm
  · rw [← List.pairwise_map (f := Prod.fst) (R := fun a b : Int => a ≤ b)] at hsorted ⊢
    rw [hfst]
    exact hsorted
  · rw [← htime]
    exact finishTime_serve hdraw.2 hsorted hwork

theorem finishes_run {head : List Process} (h : Admissible head)
    (htt : ∀ p ∈ head, 1 ≤ p.tt) {finish : Int}
    (hstart : Finishes finish (start head)) (rand : Nat → Nat) (n : Nat) :
    Finishes finish ((loop rand).state (start head) n) := by
  obtain ⟨last, hlast⟩ := exists_last head
  have hall := (loop rand).invariant
    (P := fun s => (Consistent s ∧ Ticketed last s) ∧ Finishes finish s)
    ⟨⟨consistent_start h, fun p hp => ⟨htt p hp, hlast p hp⟩⟩, hstart⟩ ?_ n
  · exact hall.2
  · intro s hs hguard
    obtain ⟨⟨hconsistent, hticketed⟩, hfinish⟩ := hs
    refine ⟨⟨consistent_step hconsistent, ticketed_step rand hconsistent hticketed⟩, ?_⟩
    change Finishes finish (step rand s)
    rcases step_cases rand fun p hp => (hconsistent.kept p hp).tickets with
      ⟨-, htotal, hstep⟩ | ⟨i, p, -, hp, hdraw, -, hstep⟩
    · rw [hstep]
      exact finishes_idle hconsistent hticketed (by simpa [loop] using hguard)
        htotal hfinish
    · rw [hstep]
      exact finishes_serve hconsistent hp hdraw hfinish

theorem currentTime_of_ends {head : List Process} (h : Admissible head)
    (htt : ∀ p ∈ head, 1 ≤ p.tt) {finish : Int}
    (hstart : Finishes finish (start head)) {rand : Nat → Nat} {final : State}
    (hends : Ends rand head final) : final.currentTime = finish := by
  have hcompleted := completed_of_ends h hends
  obtain ⟨n, rfl, -⟩ := hends
  obtain ⟨tasks, hperm, -, htime⟩ := finishes_run h htt hstart rand n
  rw [← htime]
  symm
  apply finishTime_done
  intro a ha
  obtain ⟨p, hp, rfl⟩ := List.mem_map.mp (hperm.mem_iff.mp ha)
  obtain ⟨-, hzero, hkept⟩ := hcompleted p hp
  have hbt := hkept.bt_pos
  have hserved := hkept.served (by omega)
  refine ⟨hzero, ?_⟩
  change p.at ≤ _
  omega

def IdleAt (rand : Nat → Nat) (head : List Process) (t : Int) : Prop :=
  ∃ n, (loop rand).guard ((loop rand).state (start head) n) = true ∧
    selected rand ((loop rand).state (start head) n) = none ∧
      ((loop rand).state (start head) n).currentTime = t

theorem idleAt_of_idleAt {head : List Process} (h : Admissible head)
    (htt : ∀ p ∈ head, 1 ≤ p.tt) {rand : Nat → Nat} (rand' : Nat → Nat) {t : Int}
    (hidle : IdleAt rand head t) : IdleAt rand' head t := by
  obtain ⟨last, hsame⟩ := sameLoad_run h htt rand rand'
  obtain ⟨n, hguard, hsel, htime⟩ := hidle
  refine ⟨n, ?_, ?_, ?_⟩
  · rw [← (hsame n).guard_eq rand rand']
    exact hguard
  · exact ((hsame n).selected_none_iff rand rand').mp hsel
  · rw [← (hsame n).currentTime_eq]
    exact htime

theorem currentTime_eq_of_ends {head : List Process} (h : Admissible head)
    (htt : ∀ p ∈ head, 1 ≤ p.tt) {rand rand' : Nat → Nat} {final final' : State}
    (hends : Ends rand head final) (hends' : Ends rand' head final') :
    final.currentTime = final'.currentTime := by
  obtain ⟨last, hsame⟩ := sameLoad_run h htt rand rand'
  obtain ⟨n, rfl, hexit⟩ := hends
  have hexit' : (loop rand').guard ((loop rand').state (start head) n) = false := by
    rw [← (hsame n).guard_eq rand rand']
    exact hexit
  rw [(loop rand').exits_unique hends' ⟨n, rfl, hexit'⟩]
  exact (hsame n).currentTime_eq

theorem finishes_start {head : List Process} (h : Admissible head)
    {order : List Request} (hperm : order.Perm (head.map identity))
    (hsorted : order.Pairwise fun v w => v.at ≤ w.at) :
    Finishes (order.foldl (fun finish v => max finish v.at + v.bt) 0)
      (start head) := by
  have htasks : head.map task =
      (head.map identity).map fun v => (v.at, v.bt) := by
    rw [List.map_map]
    apply List.map_congr_left
    intro p hp
    simp [task, identity, (h.fresh p hp).1]
  refine ⟨order.map fun v => (v.at, v.bt), ?_, ?_, ?_⟩
  · change List.Perm _ (head.map task)
    rw [htasks]
    exact hperm.map _
  · rw [List.pairwise_map]
    exact hsorted
  · rw [finishTime, List.foldl_map]
    rfl

/-- The clock at the end and the idle ticks do not depend on the stream.  The
end is that of the processes served one after the other as they arrive. -/
theorem lottery_makespan (processors : Int) (input : List Request)
    (htt : ∀ v ∈ input, 1 ≤ v.tt) (hbt : ∀ v ∈ input, 1 ≤ v.bt)
    (rand rand' : Nat → Nat) :
    let head := assignProcessors processors (createProcesses input)
    ∃ final final', Ends rand head final ∧ Ends rand' head final' ∧
      final.currentTime = final'.currentTime ∧
      (∀ t, IdleAt rand head t ↔ IdleAt rand' head t) ∧
      ∀ order : List Request, order.Perm input →
        order.Pairwise (fun v w => v.at ≤ w.at) →
          final.currentTime =
            order.foldl (fun finish v => max finish v.at + v.bt) 0 := by
  intro head
  have hnonneg : ∀ v ∈ input, 0 ≤ v.tt := fun v hv =>
    Int.le_trans (by decide) (htt v hv)
  have h : Admissible head := admissible_input processors hnonneg hbt
  have hidentity : head.map identity = input := map_identity_input processors input
  have htickets : ∀ p ∈ head, 1 ≤ p.tt := by
    intro p hp
    have hmem : identity p ∈ input := hidentity ▸ List.mem_map_of_mem hp
    exact htt _ hmem
  obtain ⟨final, hends⟩ := ends_of_ticketed h htickets rand
  obtain ⟨final', hends'⟩ := ends_of_ticketed h htickets rand'
  refine ⟨final, final', hends, hends', ?_, ?_, ?_⟩
  · exact currentTime_eq_of_ends h htickets hends hends'
  · intro t
    exact ⟨idleAt_of_idleAt h htickets rand', idleAt_of_idleAt h htickets rand⟩
  · intro order hperm hsorted
    refine currentTime_of_ends h htickets ?_ hends
    exact finishes_start h (hidentity ▸ hperm) hsorted

theorem lottery_makespan_seven :
    ∃ final, Ends (fun n => n * n) (assignProcessors 2 (createProcesses
      [⟨1, 2, 0, 3⟩, ⟨2, 1, 5, 2⟩])) final ∧ final.currentTime = 7 := by
  obtain ⟨final, final', hends, -, -, -, htime⟩ :=
    lottery_makespan 2 [⟨1, 2, 0, 3⟩, ⟨2, 1, 5, 2⟩] (by decide) (by decide)
      (fun n => n * n) fun n => n + 1
  exact ⟨final, hends, htime _ (List.Perm.refl _) (by decide)⟩

end SyscallSched.Simulators.Lottery
