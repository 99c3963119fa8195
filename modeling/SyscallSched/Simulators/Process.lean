import Mathlib.Data.List.Basic
import Mathlib.Data.List.Nodup
import Mathlib.Algebra.BigOperators.Group.List.Basic
import Mathlib.Tactic.Ring
import Mathlib.Algebra.Order.BigOperators.Group.List

/-!
# Process lists of the queue simulators

The records and list functions shared by `sched_algo_mlfqs_improved.c` and
`sched_algo_mlfq_existing.c`.  A linked list is the list of its records, in
link order.  Every `int` is an integer: the C programs have no defined
behaviour once one of them overflows.
-/

namespace SyscallSched.Simulators

structure Process where
  pid : Int
  «at» : Int
  bt : Int
  pr : Int
  ct : Int
  tat : Int
  wt : Int
  rt : Int
  remain : Int
  deriving DecidableEq, Repr

/-- The three numbers that one call of `create_process` reads. -/
structure Request where
  pid : Int
  «at» : Int
  bt : Int
  deriving DecidableEq, Repr

/-- Append a fresh record; `pr` is the program's initial processor number. -/
def createProcess (pr : Int) (head : List Process) (v : Request) :
    List Process :=
  head ++ [{
    pid := v.pid, «at» := v.at, bt := v.bt, pr := pr, ct := -1, tat := -1,
    wt := -1, rt := -1, remain := v.bt }]

def createProcesses (pr : Int) (input : List Request) : List Process :=
  input.foldl (createProcess pr) []

def assignProcessors (processors : Int) (head : List Process) :
    List Process :=
  head.mapIdx fun i temp => { temp with pr := (i : Int).tmod processors }

def findProcess (head : List Process) (pid : Int) : Option Process :=
  head.find? fun temp => temp.pid == pid

/-- A write through the pointer that `findProcess head pid` returns. -/
def updateProcess (f : Process → Process) (pid : Int) :
    List Process → List Process
  | [] => []
  | temp :: rest =>
      if temp.pid = pid then f temp :: rest
      else temp :: updateProcess f pid rest

def Process.complete (currentTime : Int) (ptr : Process) : Process :=
  let tat := currentTime - ptr.at
  { ptr with
    remain := 0, ct := currentTime, tat := tat, wt := tat - ptr.bt,
    rt := currentTime - ptr.at - ptr.bt }

def Process.preempt (quantum : Int) (ptr : Process) : Process :=
  { ptr with remain := ptr.remain - quantum }

/-- The test that the programs make before a process may be queued. -/
def Process.Ready (currentTime : Int) (p : Process) : Prop :=
  p.at ≤ currentTime ∧ 0 < p.remain

instance (currentTime : Int) (p : Process) :
    Decidable (p.Ready currentTime) :=
  inferInstanceAs (Decidable (_ ∧ _))

theorem Process.Ready.mono {t t' : Int} {p : Process} (h : p.Ready t)
    (htt : t ≤ t') : p.Ready t' :=
  ⟨h.1.trans htt, h.2⟩

theorem createProcesses_eq (pr : Int) (input : List Request) :
    createProcesses pr input = input.map fun v =>
      { pid := v.pid, «at» := v.at, bt := v.bt, pr := pr, ct := -1,
        tat := -1, wt := -1, rt := -1, remain := v.bt } := by
  have general : ∀ (head : List Process),
      input.foldl (createProcess pr) head = head ++ input.map fun v =>
        { pid := v.pid, «at» := v.at, bt := v.bt, pr := pr, ct := -1,
          tat := -1, wt := -1, rt := -1, remain := v.bt } := by
    induction input with
    | nil => simp
    | cons v rest ih =>
        intro head
        rw [List.foldl_cons, ih]
        simp [createProcess]
  simpa [createProcesses] using general []

/-- What `main` passes to the scheduler: fresh records in input order. -/
theorem mem_assignProcessors {processors pr : Int} {input : List Request}
    {p : Process}
    (hp : p ∈ assignProcessors processors (createProcesses pr input)) :
    p.remain = p.bt ∧ p.ct = -1 ∧ (⟨p.pid, p.at, p.bt⟩ : Request) ∈ input := by
  rw [assignProcessors, List.mem_mapIdx] at hp
  obtain ⟨i, hi, rfl⟩ := hp
  have hi' : i < input.length := by simpa [createProcesses_eq] using hi
  have hmem : input[i] ∈ input := List.getElem_mem hi'
  simp only [createProcesses_eq, List.getElem_map]
  exact ⟨trivial, trivial, hmem⟩

theorem map_pid_assignProcessors (processors pr : Int)
    (input : List Request) :
    (assignProcessors processors (createProcesses pr input)).map Process.pid =
      input.map Request.pid := by
  simp [assignProcessors, createProcesses_eq, List.ext_getElem_iff]

/-! ## Reading and writing one record -/

theorem findProcess_eq_some {head : List Process} {pid : Int} {ptr : Process}
    (h : findProcess head pid = some ptr) :
    ptr.pid = pid ∧ ∃ before after, head = before ++ ptr :: after ∧
      ∀ p ∈ before, p.pid ≠ pid := by
  obtain ⟨hpid, before, after, rfl, hbefore⟩ :=
    List.find?_eq_some_iff_append.mp h
  refine ⟨by simpa using hpid, before, after, rfl, ?_⟩
  simpa using hbefore

theorem findProcess_isSome {head : List Process} {p : Process}
    (hp : p ∈ head) : ∃ ptr, findProcess head p.pid = some ptr := by
  rw [← Option.isSome_iff_exists, findProcess, List.find?_isSome]
  exact ⟨p, hp, by simp⟩

theorem updateProcess_append {f : Process → Process} {pid : Int}
    {before after : List Process} {ptr : Process} (hptr : ptr.pid = pid)
    (hbefore : ∀ p ∈ before, p.pid ≠ pid) :
    updateProcess f pid (before ++ ptr :: after) = before ++ f ptr :: after := by
  induction before with
  | nil => simp [updateProcess, hptr]
  | cons p before ih =>
      have hp : p.pid ≠ pid := hbefore p (by simp)
      rw [List.cons_append, updateProcess, if_neg hp,
        ih fun q hq => hbefore q (by simp [hq])]
      rfl

theorem pid_ne_of_mem_after {before after : List Process} {ptr : Process}
    {pid : Int} (hnodup : ((before ++ ptr :: after).map Process.pid).Nodup)
    (hptr : ptr.pid = pid) : ∀ p ∈ after, p.pid ≠ pid := by
  intro p hp heq
  rw [List.map_append, List.map_cons] at hnodup
  have hcons := (List.nodup_append.mp hnodup).2.1
  refine (List.nodup_cons.mp hcons).1 ?_
  exact List.mem_map.mpr ⟨p, hp, heq.trans hptr.symm⟩

/-- With distinct pids, a write changes exactly the record with that pid. -/
theorem mem_updateProcess {f : Process → Process} {pid : Int}
    {head : List Process} {ptr : Process}
    (hnodup : (head.map Process.pid).Nodup)
    (hfind : findProcess head pid = some ptr) {q : Process} :
    q ∈ updateProcess f pid head ↔ q = f ptr ∨ (q ∈ head ∧ q.pid ≠ pid) := by
  obtain ⟨hptr, before, after, rfl, hbefore⟩ := findProcess_eq_some hfind
  have hafter : ∀ p ∈ after, p.pid ≠ pid := pid_ne_of_mem_after hnodup hptr
  rw [updateProcess_append hptr hbefore]
  simp only [List.mem_append, List.mem_cons]
  constructor
  · rintro (hq | rfl | hq)
    · exact .inr ⟨.inl hq, hbefore q hq⟩
    · exact .inl rfl
    · exact .inr ⟨.inr (.inr hq), hafter q hq⟩
  · rintro (rfl | ⟨hq | rfl | hq, hne⟩)
    · exact .inr (.inl rfl)
    · exact .inl hq
    · exact absurd hptr hne
    · exact .inr (.inr hq)

theorem findProcess_mem {head : List Process} {pid : Int} {ptr : Process}
    (hfind : findProcess head pid = some ptr) : ptr ∈ head :=
  List.mem_of_find?_eq_some hfind

theorem eq_of_pid_eq {head : List Process}
    (hnodup : (head.map Process.pid).Nodup) {p q : Process} (hp : p ∈ head)
    (hq : q ∈ head) (h : p.pid = q.pid) : p = q :=
  List.inj_on_of_nodup_map hnodup hp hq h

theorem findProcess_of_mem {head : List Process}
    (hnodup : (head.map Process.pid).Nodup) {p : Process} (hp : p ∈ head) :
    findProcess head p.pid = some p := by
  obtain ⟨ptr, hptr⟩ := findProcess_isSome hp
  rw [hptr, eq_of_pid_eq hnodup (findProcess_mem hptr) hp
    (findProcess_eq_some hptr).1]

theorem findProcess_updateProcess {f : Process → Process}
    (hf : ∀ p, (f p).pid = p.pid) (pid pid' : Int) (head : List Process) :
    findProcess (updateProcess f pid head) pid' =
      if pid' = pid then (findProcess head pid').map f
      else findProcess head pid' := by
  induction head with
  | nil => simp [updateProcess, findProcess]
  | cons p rest ih =>
      unfold findProcess at ih ⊢
      by_cases hp : p.pid = pid
      · by_cases hpid : pid' = pid
        · simp [updateProcess, hp, hpid, hf]
        · simp [updateProcess, hp, hf, hpid, Ne.symm hpid]
      · by_cases hpid : p.pid = pid'
        · simp [updateProcess, hpid, hpid ▸ hp]
        · simp [updateProcess, hp, hpid, ih]

theorem map_updateProcess {α : Type} (g : Process → α)
    {f : Process → Process} (hf : ∀ p, g (f p) = g p) (pid : Int)
    (head : List Process) :
    (updateProcess f pid head).map g = head.map g := by
  induction head with
  | nil => rfl
  | cons p rest ih =>
      by_cases hp : p.pid = pid
      · simp [updateProcess, hp, hf]
      · simp [updateProcess, hp, ih]

theorem sum_updateProcess (g : Process → Int) {f : Process → Process}
    {pid : Int} {head : List Process} {ptr : Process}
    (hfind : findProcess head pid = some ptr) :
    ((updateProcess f pid head).map g).sum =
      (head.map g).sum + (g (f ptr) - g ptr) := by
  obtain ⟨hptr, before, after, rfl, hbefore⟩ := findProcess_eq_some hfind
  rw [updateProcess_append hptr hbefore]
  simp only [List.map_append, List.map_cons, List.sum_append, List.sum_cons]
  ring

theorem countP_updateProcess (P : Process → Bool) {f : Process → Process}
    {pid : Int} {head : List Process} {ptr : Process}
    (hnodup : (head.map Process.pid).Nodup)
    (hfind : findProcess head pid = some ptr) :
    (updateProcess f pid head).countP P =
      (head.countP fun q => decide (q.pid ≠ pid) && P q) +
        if P (f ptr) then 1 else 0 := by
  obtain ⟨hptr, before, after, rfl, hbefore⟩ := findProcess_eq_some hfind
  have hafter : ∀ p ∈ after, p.pid ≠ pid := pid_ne_of_mem_after hnodup hptr
  have hcount : ∀ {ps : List Process}, (∀ p ∈ ps, p.pid ≠ pid) →
      ps.countP (fun q => decide (q.pid ≠ pid) && P q) = ps.countP P := by
    intro ps hps
    apply List.countP_congr
    intro q hq
    simp [hps q hq]
  rw [updateProcess_append hptr hbefore]
  simp only [List.countP_append, List.countP_cons, hcount hbefore, hcount hafter]
  simp [hptr]
  omega

@[simp] theorem complete_pid (t : Int) (p : Process) :
    (p.complete t).pid = p.pid := rfl

@[simp] theorem complete_at (t : Int) (p : Process) :
    (p.complete t).at = p.at := rfl

@[simp] theorem complete_bt (t : Int) (p : Process) :
    (p.complete t).bt = p.bt := rfl

@[simp] theorem complete_remain (t : Int) (p : Process) :
    (p.complete t).remain = 0 := rfl

@[simp] theorem preempt_pid (d : Int) (p : Process) :
    (p.preempt d).pid = p.pid := rfl

@[simp] theorem preempt_at (d : Int) (p : Process) :
    (p.preempt d).at = p.at := rfl

@[simp] theorem preempt_bt (d : Int) (p : Process) :
    (p.preempt d).bt = p.bt := rfl

@[simp] theorem preempt_remain (d : Int) (p : Process) :
    (p.preempt d).remain = p.remain - d := rfl

end SyscallSched.Simulators

/-!
## What a record has waited

The time that a process has waited by the clock `t`, of which `rt` is the value that its
completion leaves: the programs compute `rt` from the clock at the end and not from the
clock at the first dispatch.
-/

namespace SyscallSched.Simulators

/-- The time since the arrival less the units received; the stored `rt` once finished. -/
def Process.delay (t : Int) (p : Process) : Int :=
  if 0 < p.remain then t + p.remain - p.bt - p.at else p.rt

variable {t quantum : Int} {p : Process}

theorem delay_of_unfinished (h : 0 < p.remain) :
    p.delay t = t + p.remain - p.bt - p.at := by
  simp [Process.delay, h]

theorem delay_of_finished (h : ¬ 0 < p.remain) : p.delay t = p.rt := by
  simp [Process.delay, h]

theorem delay_complete (h : 0 < p.remain) (t' : Int) :
    (p.complete (t + p.remain)).delay t' = p.delay t := by
  rw [delay_of_finished (by simp), delay_of_unfinished h]
  simp only [Process.complete]
  omega

theorem delay_preempt (hquantum : 0 ≤ quantum) (h : quantum < p.remain) :
    (p.preempt quantum).delay (t + quantum) = p.delay t := by
  have hleft : 0 < (p.preempt quantum).remain := by
    simp only [preempt_remain]
    omega
  rw [delay_of_unfinished hleft, delay_of_unfinished (by omega)]
  simp only [preempt_remain, preempt_bt, preempt_at]
  omega

theorem delay_of_unserved (hpos : 0 < p.remain) (hremain : p.remain = p.bt) :
    p.delay t = t - p.at := by
  rw [delay_of_unfinished hpos]
  omega

end SyscallSched.Simulators

/-!
## Records against the clock

The relation between a record and the clock that every queue simulator keeps:
the units a process received fit between its arrival and now, and a finished
record holds the metrics of its completion time.
-/

namespace SyscallSched.Simulators

structure Accounted (currentTime : Int) (p : Process) : Prop where
  bt_pos : 1 ≤ p.bt
  remain_nonneg : 0 ≤ p.remain
  remain_le : p.remain ≤ p.bt
  served : p.remain < p.bt → p.at + (p.bt - p.remain) ≤ currentTime
  ct_le : p.remain = 0 → p.ct ≤ currentTime
  le_ct : p.remain = 0 → p.at + p.bt ≤ p.ct
  metrics : p.remain = 0 → p.tat = p.ct - p.at ∧ p.wt = p.tat - p.bt

theorem Accounted.mono {t t' : Int} {p : Process} (h : Accounted t p)
    (htt : t ≤ t') : Accounted t' p where
  bt_pos := h.bt_pos
  remain_nonneg := h.remain_nonneg
  remain_le := h.remain_le
  served hlt := (h.served hlt).trans htt
  ct_le hzero := (h.ct_le hzero).trans htt
  le_ct := h.le_ct
  metrics := h.metrics

theorem Accounted.arrived_work {t : Int} {p : Process} (h : Accounted t p)
    (hready : p.Ready t) : p.at + (p.bt - p.remain) ≤ t := by
  have hle := h.remain_le
  have hat := hready.1
  by_cases hlt : p.remain < p.bt
  · exact h.served hlt
  · omega

theorem accounted_complete {t : Int} {p : Process} (h : Accounted t p)
    (hready : p.Ready t) :
    Accounted (t + p.remain) (p.complete (t + p.remain)) := by
  have hwork := h.arrived_work hready
  have hbt := h.bt_pos
  constructor
  case bt_pos => exact hbt
  case remain_nonneg => simp
  case remain_le => simp only [complete_remain, complete_bt]; omega
  case served => intro _; simp only [complete_at, complete_bt, complete_remain]; omega
  case ct_le => intro _; simp [Process.complete]
  case le_ct => intro _; simp only [Process.complete]; omega
  case metrics => intro _; exact ⟨rfl, rfl⟩

theorem accounted_preempt {t quantum : Int} {p : Process} (h : Accounted t p)
    (hready : p.Ready t) (hquantum : 0 ≤ quantum) (hlt : quantum < p.remain) :
    Accounted (t + quantum) (p.preempt quantum) := by
  have hwork := h.arrived_work hready
  have hle := h.remain_le
  constructor
  case bt_pos => exact h.bt_pos
  case remain_nonneg => simp only [preempt_remain]; omega
  case remain_le => simp only [preempt_remain, preempt_bt]; omega
  case served => intro _; simp only [preempt_at, preempt_bt, preempt_remain]; omega
  case ct_le => intro hzero; simp only [preempt_remain] at hzero; omega
  case le_ct => intro hzero; simp only [preempt_remain] at hzero; omega
  case metrics => intro hzero; simp only [preempt_remain] at hzero; omega

def work (head : List Process) : Int := (head.map Process.remain).sum

theorem work_nonneg {t : Int} {head : List Process}
    (h : ∀ p ∈ head, Accounted t p) : 0 ≤ work head := by
  apply List.sum_nonneg
  intro r hr
  obtain ⟨p, hp, rfl⟩ := List.mem_map.mp hr
  exact (h p hp).remain_nonneg

end SyscallSched.Simulators
