import Mathlib.Algebra.Order.Ring.Int
import Mathlib.Algebra.Order.BigOperators.Group.List
import Mathlib.Data.List.Nodup
import SyscallSched.Simulators.Lottery.Model

/-!
# States of the lottery loop

`Kept` relates one record to the clock and `Consistent` a whole state.  Both
hold whatever the draws are, and also when some process has no tickets.
-/

namespace SyscallSched.Simulators.Lottery

open SyscallSched.Foundation

/-- `rt` is set by the first tick, at time `at + rt`. -/
structure Kept (t : Int) (p : Process) : Prop where
  tickets : 0 ≤ p.tt
  bt_pos : 1 ≤ p.bt
  nonneg : 0 ≤ p.remainingTime
  le_bt : p.remainingTime ≤ p.bt
  completed_iff : p.completed = true ↔ p.remainingTime = 0
  unserved : p.remainingTime = p.bt → p.rt = -1
  served : p.remainingTime < p.bt →
    0 ≤ p.rt ∧ p.at + p.rt + (p.bt - p.remainingTime) ≤ t
  finished : p.remainingTime = 0 → p.ct ≤ t ∧ p.at + p.rt + p.bt ≤ p.ct

theorem Kept.mono {t t' : Int} {p : Process} (h : Kept t p) (htt : t ≤ t') :
    Kept t' p where
  tickets := h.tickets
  bt_pos := h.bt_pos
  nonneg := h.nonneg
  le_bt := h.le_bt
  completed_iff := h.completed_iff
  unserved := h.unserved
  served hlt := ⟨(h.served hlt).1, (h.served hlt).2.trans htt⟩
  finished hzero := ⟨(h.finished hzero).1.trans htt, (h.finished hzero).2⟩

theorem Kept.pos_iff {t : Int} {p : Process} (h : Kept t p) :
    0 < p.remainingTime ↔ p.completed = false := by
  have hnonneg := h.nonneg
  have hiff := h.completed_iff
  cases hc : p.completed with
  | false =>
      simp only [hc, Bool.false_eq_true, false_iff] at hiff
      simp only [iff_true]
      omega
  | true =>
      simp only [hc, true_iff] at hiff
      simp only [Bool.true_eq_false, iff_false]
      omega

/-! ## One tick -/

@[simp] theorem tick_tt (t : Int) (p : Process) : (p.tick t).tt = p.tt := rfl

@[simp] theorem tick_at (t : Int) (p : Process) : (p.tick t).at = p.at := rfl

@[simp] theorem tick_bt (t : Int) (p : Process) : (p.tick t).bt = p.bt := rfl

@[simp] theorem tick_remainingTime (t : Int) (p : Process) :
    (p.tick t).remainingTime = p.remainingTime - 1 := rfl

theorem tick_rt (t : Int) (p : Process) :
    (p.tick t).rt = if p.rt = -1 then t - p.at else p.rt := rfl

theorem tick_of_last {t : Int} {p : Process} (h : p.remainingTime - 1 = 0) :
    (p.tick t).completed = true ∧ (p.tick t).ct = t + 1 := by
  simp [Process.tick, h]

theorem tick_of_not_last {t : Int} {p : Process}
    (h : p.remainingTime - 1 ≠ 0) :
    (p.tick t).completed = p.completed ∧ (p.tick t).ct = p.ct := by
  simp [Process.tick, h]

theorem kept_tick {t : Int} {p : Process} (h : Kept t p)
    (hdraw : p.Drawable t) : Kept (t + 1) (p.tick t) := by
  obtain ⟨hcompleted, hat⟩ := hdraw
  have hpos := h.pos_iff.mpr hcompleted
  have hbt := h.bt_pos
  have hle := h.le_bt
  have hrt : 0 ≤ (p.tick t).rt ∧
      p.at + (p.tick t).rt + (p.bt - p.remainingTime) ≤ t := by
    rw [tick_rt]
    by_cases hlt : p.remainingTime < p.bt
    · have hserved := h.served hlt
      rw [if_neg (by omega)]
      exact hserved
    · rw [if_pos (h.unserved (by omega))]
      omega
  constructor
  case tickets => simpa using h.tickets
  case bt_pos => simpa using hbt
  case nonneg => simp only [tick_remainingTime]; omega
  case le_bt => simp only [tick_remainingTime, tick_bt]; omega
  case completed_iff =>
    by_cases hlast : p.remainingTime - 1 = 0
    · simp [tick_of_last hlast, hlast]
    · simp [tick_of_not_last hlast, hlast, hcompleted]
  case unserved =>
    intro heq
    simp only [tick_remainingTime, tick_bt] at heq
    omega
  case served =>
    intro _
    simp only [tick_remainingTime, tick_bt, tick_at]
    omega
  case finished =>
    intro hlast
    simp only [tick_remainingTime] at hlast
    simp only [(tick_of_last hlast).2, tick_at, tick_bt]
    omega

/-! ## One iteration -/

theorem step_cases (rand : Nat → Nat) {s : State}
    (htt : ∀ p ∈ s.head, 0 ≤ p.tt) :
    (selected rand s = none ∧
      calculateTotalTickets s.head s.currentTime = 0 ∧
        step rand s = idle s) ∨
    ∃ i p, selected rand s = some i ∧ s.head[i]? = some p ∧
      p.Drawable s.currentTime ∧ 1 ≤ p.tt ∧ step rand s = serve s i p := by
  cases hsel : selected rand s with
  | none =>
      refine .inl ⟨rfl, (selected_eq_none_iff htt).mp hsel, ?_⟩
      simp [step, hsel]
  | some i =>
      obtain ⟨p, hp, hdraw, htickets⟩ := selected_eq_some hsel
      refine .inr ⟨i, p, rfl, hp, hdraw, htickets, ?_⟩
      simp [step, hsel, hp]

theorem modify_split {α : Type} {l : List α} {i : Nat} {a : α}
    (h : l[i]? = some a) (f : α → α) :
    ∃ before after, l = before ++ a :: after ∧
      l.modify i f = before ++ f a :: after := by
  obtain ⟨hi, rfl⟩ := List.getElem?_eq_some_iff.mp h
  refine ⟨l.take i, l.drop (i + 1), ?_, ?_⟩
  · rw [List.cons_getElem_drop_succ, List.take_append_drop]
  · rw [List.modify_eq_take_cons_drop hi]

theorem mem_serve {s : State} {i : Nat} {p q : Process}
    (hp : s.head[i]? = some p) (hq : q ∈ (serve s i p).head) :
    q = p.tick s.currentTime ∨ q ∈ s.head := by
  obtain ⟨before, after, hsplit, hmodify⟩ :=
    modify_split hp (Process.tick s.currentTime)
  simp only [serve, hmodify, List.mem_append, List.mem_cons] at hq
  rw [hsplit]
  simp only [List.mem_append, List.mem_cons]
  rcases hq with hq | hq | hq
  · exact .inr (.inl hq)
  · exact .inl hq
  · exact .inr (.inr (.inr hq))

structure Consistent (s : State) : Prop where
  kept : ∀ p ∈ s.head, Kept s.currentTime p
  active : s.activeProcesses = s.head.countP fun p => !p.completed
  distinct : ∀ (i j : Nat) (p q : Process), i ≠ j → s.head[i]? = some p →
    s.head[j]? = some q → p.completed = true → q.completed = true → p.ct ≠ q.ct

theorem consistent_idle {s : State} (h : Consistent s) : Consistent (idle s) where
  kept p hp := (h.kept p hp).mono (by simp [idle])
  active := h.active
  distinct := h.distinct

section Serve

variable {s : State} {i : Nat} {p : Process}

theorem active_serve (h : Consistent s) (hp : s.head[i]? = some p)
    (hdraw : p.Drawable s.currentTime) :
    (serve s i p).activeProcesses =
      (serve s i p).head.countP fun q => !q.completed := by
  obtain ⟨before, after, hsplit, hmodify⟩ :=
    modify_split hp (Process.tick s.currentTime)
  have hactive := h.active
  simp only [hsplit, List.countP_append, List.countP_cons, hdraw.1] at hactive
  simp only [serve, hmodify, List.countP_append, List.countP_cons]
  by_cases hlast : p.remainingTime - 1 = 0
  · simp only [(tick_of_last hlast).1, if_pos hlast]
    simp at hactive ⊢
    omega
  · simp only [(tick_of_not_last hlast).1, hdraw.1, if_neg hlast]
    exact hactive

theorem ct_lt_of_completed (h : Consistent s) {q : Process} (hq : q ∈ s.head)
    (hcompleted : q.completed = true) : q.ct < s.currentTime + 1 := by
  have hkept := h.kept q hq
  have hle := (hkept.finished (hkept.completed_iff.mp hcompleted)).1
  omega

theorem ct_tick_ne (h : Consistent s) (hdraw : p.Drawable s.currentTime)
    (hpc : (p.tick s.currentTime).completed = true) {q : Process}
    (hq : q ∈ s.head) (hqc : q.completed = true) :
    (p.tick s.currentTime).ct ≠ q.ct := by
  have hlt := ct_lt_of_completed h hq hqc
  by_cases hlast : p.remainingTime - 1 = 0
  · rw [(tick_of_last hlast).2]
    omega
  · rw [(tick_of_not_last hlast).1, hdraw.1] at hpc
    contradiction

theorem consistent_serve (h : Consistent s) (hp : s.head[i]? = some p)
    (hdraw : p.Drawable s.currentTime) : Consistent (serve s i p) := by
  have hkept := h.kept p (List.mem_of_getElem? hp)
  constructor
  case kept =>
    intro q hq
    cases mem_serve hp hq with
    | inl heq =>
        subst q
        exact kept_tick hkept hdraw
    | inr hmem => exact (h.kept q hmem).mono (by simp [serve])
  case active => exact active_serve h hp hdraw
  case distinct =>
    intro j k q r hne hj hk hqc hrc
    simp only [serve] at hj hk
    by_cases hji : i = j
    · subst j
      rw [List.getElem?_modify_eq, hp] at hj
      rw [List.getElem?_modify_ne _ _ hne] at hk
      cases hj
      exact ct_tick_ne h hdraw hqc (List.mem_of_getElem? hk) hrc
    · rw [List.getElem?_modify_ne _ _ hji] at hj
      by_cases hki : i = k
      · subst k
        rw [List.getElem?_modify_eq, hp] at hk
        cases hk
        exact (ct_tick_ne h hdraw hrc (List.mem_of_getElem? hj) hqc).symm
      · rw [List.getElem?_modify_ne _ _ hki] at hk
        exact h.distinct j k q r hne hj hk hqc hrc

end Serve

theorem consistent_step {rand : Nat → Nat} {s : State} (h : Consistent s) :
    Consistent (step rand s) := by
  rcases step_cases rand fun p hp => (h.kept p hp).tickets with
    ⟨-, -, hstep⟩ | ⟨i, p, -, hp, hdraw, -, hstep⟩
  · rw [hstep]
    exact consistent_idle h
  · rw [hstep]
    exact consistent_serve h hp hdraw

/-! ## The input of a process -/

/-- What `create_process` reads and the loop does not write. -/
def identity (p : Process) : Request := ⟨p.pid, p.tt, p.at, p.bt⟩

theorem map_identity_step (rand : Nat → Nat) (s : State) :
    (step rand s).head.map identity = s.head.map identity := by
  have hserve : ∀ i p, (serve s i p).head.map identity = s.head.map identity := by
    intro i p
    apply List.ext_getElem?
    intro j
    simp only [serve, List.getElem?_map, List.getElem?_modify]
    cases s.head[j]? with
    | none => rfl
    | some q =>
        simp only [Option.map_eq_map, Option.map_some, Option.some.injEq]
        split <;> rfl
  unfold step
  split
  · rfl
  · split
    · rfl
    · exact hserve _ _

theorem map_identity_run (rand : Nat → Nat) (head : List Process) (n : Nat) :
    ((loop rand).state (start head) n).head.map identity = head.map identity :=
  (loop rand).invariant (P := fun s => s.head.map identity = head.map identity)
    rfl (fun s hs _ => (map_identity_step rand s).trans hs) n

theorem createProcesses_eq (input : List Request) :
    createProcesses input = input.map newProcess := by
  have general : ∀ head : List Process,
      input.foldl createProcess head = head ++ input.map newProcess := by
    induction input with
    | nil => simp
    | cons v rest ih =>
        intro head
        rw [List.foldl_cons, ih]
        simp [createProcess]
  simpa [createProcesses] using general []

theorem map_identity_input (processors : Int) (input : List Request) :
    (assignProcessors processors (createProcesses input)).map identity =
      input := by
  apply List.ext_getElem?
  intro i
  rw [createProcesses_eq, assignProcessors, List.getElem?_map,
    List.getElem?_mapIdx, List.getElem?_map]
  cases input[i]? <;> rfl

theorem fresh_input {processors : Int} {input : List Request} {p : Process}
    (hp : p ∈ assignProcessors processors (createProcesses input)) :
    identity p ∈ input ∧ p.remainingTime = p.bt ∧ p.completed = false ∧
      p.rt = -1 := by
  constructor
  · rw [← map_identity_input processors input]
    exact List.mem_map_of_mem hp
  · rw [createProcesses_eq, assignProcessors, List.mem_mapIdx] at hp
    obtain ⟨i, hi, rfl⟩ := hp
    simp [newProcess]

/-- A process list as `main` passes it to the loop. -/
structure Admissible (head : List Process) : Prop where
  tickets : ∀ p ∈ head, 0 ≤ p.tt
  bt_pos : ∀ p ∈ head, 1 ≤ p.bt
  fresh : ∀ p ∈ head,
    p.remainingTime = p.bt ∧ p.completed = false ∧ p.rt = -1

theorem admissible_input (processors : Int) {input : List Request}
    (htt : ∀ v ∈ input, 0 ≤ v.tt) (hbt : ∀ v ∈ input, 1 ≤ v.bt) :
    Admissible (assignProcessors processors (createProcesses input)) where
  tickets _ hp := htt _ (fresh_input hp).1
  bt_pos _ hp := hbt _ (fresh_input hp).1
  fresh _ hp := (fresh_input hp).2

theorem consistent_start {head : List Process} (h : Admissible head) :
    Consistent (start head) := by
  constructor
  case kept =>
    intro p hp
    obtain ⟨hremaining, hcompleted, hrt⟩ := h.fresh p hp
    have hbt := h.bt_pos p hp
    have htickets := h.tickets p hp
    constructor
    case completed_iff =>
      simp only [hcompleted, Bool.false_eq_true, false_iff]
      omega
    all_goals omega
  case active =>
    have hcount : head.countP (fun p => !p.completed) = head.length := by
      rw [List.countP_eq_length]
      intro p hp
      simp [(h.fresh p hp).2.1]
    simp [start, hcount]
  case distinct =>
    intro i j p q _ hp _ hpc _
    rw [(h.fresh p (List.mem_of_getElem? hp)).2.1] at hpc
    contradiction

theorem consistent_run {head : List Process} (h : Admissible head)
    (rand : Nat → Nat) (n : Nat) :
    Consistent ((loop rand).state (start head) n) :=
  (loop rand).invariant (consistent_start h)
    (fun _ hs _ => consistent_step hs) n

end SyscallSched.Simulators.Lottery
