import Mathlib.Algebra.BigOperators.Group.Finset.Piecewise
import Mathlib.Algebra.Order.BigOperators.Group.Finset
import SyscallSched.Xv6.Proc

/-!
# The accounting scheduler and `sys_cpuutilization`

The scheduler charges a quantum to every process it dispatches and a quantum of
idle time for every process it finds asleep.  What it sees of a process when it
looks at it is an input: between two looks anything may run.
-/

namespace SyscallSched.Xv6

structure Times where
  totalTime : Nat → Nat := fun _ => 0
  idleTime : Nat → Nat := fun _ => 0
  /-- `cpu->idle_time` -/
  cpuIdleTime : Nat := 0
  /-- how many slots the current pass has looked at: the first loop looks at
  every slot, then the second loop does -/
  looked : Nat := 0

/-- `x += QUANTUM` for a `uint64`. -/
def charge (quantum x : Nat) : Nat := (x + quantum) % 2 ^ 64

/-- The scheduler starts by clearing the times of a process nobody chose: `p` is
not initialised. -/
def Times.start (p : Nat) : Times :=
  { totalTime := Function.update (fun _ => 0) p 0
    idleTime := Function.update (fun _ => 0) p 0 }

/-- The scheduler looks at the next slot and finds it in the state `seen`. -/
def Times.look (quantum : Nat) (t : Times) (seen : ProcState) : Times :=
  let looked := (t.looked + 1) % (2 * nproc)
  if t.looked < nproc then
    if seen = .runnable then
      { t with
        totalTime := Function.update t.totalTime t.looked
          (charge quantum (t.totalTime t.looked))
        looked }
    else
      { t with looked }
  else
    if seen = .sleeping then
      { t with cpuIdleTime := charge quantum t.cpuIdleTime, looked }
    else
      { t with looked }

def Times.run (quantum : Nat) (t : Times) (looks : List ProcState) : Times :=
  looks.foldl (Times.look quantum) t

/-- `for(p = proc; ...) sum += f(p)` for a `uint64`. -/
def sumTimes (f : Nat → Nat) : Nat :=
  (List.range nproc).foldl (fun sum p => (sum + f p) % 2 ^ 64) 0

def sysCpuutilization (t : Times) : Nat :=
  let totalTime := sumTimes t.totalTime
  let idleTime := sumTimes t.idleTime
  if totalTime = 0 then 0
  else (totalTime + (2 ^ 64 - idleTime)) % 2 ^ 64 * 100 % 2 ^ 64 / totalTime

/-! ## What was charged -/

abbrev Dispatch (looked : Nat) (seen : ProcState) : Prop :=
  looked < nproc ∧ seen = .runnable

abbrev Asleep (looked : Nat) (seen : ProcState) : Prop :=
  ¬ looked < nproc ∧ seen = .sleeping

section

variable (due : Nat → ProcState → Prop) [∀ looked seen, Decidable (due looked seen)]

/-- The quanta charged for the looks that are due one, from a point where
`looked` slots of the pass have been looked at. -/
def timeCharged (quantum : Nat) : Nat → List ProcState → Nat
  | _, [] => 0
  | looked, seen :: looks =>
      (if due looked seen then quantum else 0) +
        timeCharged quantum ((looked + 1) % (2 * nproc)) looks

omit [∀ looked seen, Decidable (due looked seen)] in
/-- Some look is due a quantum. -/
def EverDue : Nat → List ProcState → Prop
  | _, [] => False
  | looked, seen :: looks =>
      due looked seen ∨ EverDue ((looked + 1) % (2 * nproc)) looks

theorem timeCharged_eq_zero {quantum : Nat} (hq : 0 < quantum) (looked : Nat)
    (looks : List ProcState) :
    timeCharged due quantum looked looks = 0 ↔ ¬ EverDue due looked looks := by
  induction looks generalizing looked with
  | nil => simp [timeCharged, EverDue]
  | cons seen looks ih =>
      by_cases hdue : due looked seen
      · simp [timeCharged, EverDue, hdue, hq.ne']
      · simp [timeCharged, EverDue, hdue, ih]

end

/-! ## The counters -/

theorem sumTimes_eq (f : Nat → Nat) :
    sumTimes f = (∑ p ∈ Finset.range nproc, f p) % 2 ^ 64 := by
  rw [sumTimes]
  induction nproc with
  | zero => simp
  | succ n ih =>
      rw [List.range_succ, List.foldl_append, ih, Finset.sum_range_succ]
      simp [Nat.mod_add_mod]

theorem sum_charge {f : Nat → Nat} {p quantum : Nat} (hp : p < nproc)
    (h : ∑ i ∈ Finset.range nproc, f i + quantum < 2 ^ 64) :
    ∑ i ∈ Finset.range nproc, Function.update f p (charge quantum (f p)) i =
      ∑ i ∈ Finset.range nproc, f i + quantum := by
  have hmem := Finset.mem_range.mpr hp
  have hle : f p ≤ ∑ i ∈ Finset.range nproc, f i :=
    Finset.single_le_sum (fun i _ => Nat.zero_le (f i)) hmem
  have hcharge : charge quantum (f p) = f p + quantum :=
    Nat.mod_eq_of_lt (by omega)
  rw [Finset.sum_update_of_mem hmem, hcharge, ← Finset.add_sum_erase _ f hmem,
    Finset.sdiff_singleton_eq_erase]
  omega

/-- Along a run, the times of the processes add up to what was charged, and the
idle times of the processes stay as they were. -/
theorem run_times {quantum : Nat} {t : Times} {looks : List ProcState}
    (h : ∑ p ∈ Finset.range nproc, t.totalTime p + timeCharged Dispatch quantum t.looked looks
      < 2 ^ 64) :
    ∑ p ∈ Finset.range nproc, (t.run quantum looks).totalTime p =
        ∑ p ∈ Finset.range nproc, t.totalTime p + timeCharged Dispatch quantum t.looked looks ∧
      (t.run quantum looks).idleTime = t.idleTime := by
  induction looks generalizing t with
  | nil => simp [timeCharged, Times.run]
  | cons seen looks ih =>
      have hrun : t.run quantum (seen :: looks) = (t.look quantum seen).run quantum looks :=
        rfl
      have hlooked : (t.look quantum seen).looked = (t.looked + 1) % (2 * nproc) := by
        simp only [Times.look]
        split <;> split <;> rfl
      have hidle : (t.look quantum seen).idleTime = t.idleTime := by
        simp only [Times.look]
        split <;> split <;> rfl
      have hsum : ∑ p ∈ Finset.range nproc, (t.look quantum seen).totalTime p =
          ∑ p ∈ Finset.range nproc, t.totalTime p +
            if Dispatch t.looked seen then quantum else 0 := by
        by_cases hcharged : Dispatch t.looked seen
        · simp only [timeCharged, if_pos hcharged] at h
          simp only [Times.look, if_pos hcharged.1, if_pos hcharged.2, if_pos hcharged]
          exact sum_charge hcharged.1 (by omega)
        · rw [if_neg hcharged, Nat.add_zero]
          simp only [Times.look]
          split
          · rename_i hfirst
            rw [if_neg (fun hseen => hcharged ⟨hfirst, hseen⟩)]
          · split <;> rfl
      simp only [timeCharged] at h
      rw [hrun]
      obtain ⟨htotal, hidle'⟩ := ih (by rw [hsum, hlooked]; omega)
      refine ⟨?_, hidle'.trans hidle⟩
      rw [htotal, hsum, hlooked, timeCharged]
      omega

/-! ## What the call returns -/

/-- The utilization in percent, rounded down, of a clock that charged `total` and
of that `idle` while processes slept. -/
def Utilizes (result total idle : Nat) : Prop :=
  (result : Int) = (if total = 0 then 0 else ((total : Int) - idle) * 100 / total) ∧
    result ≤ 100

/-- The scheduler charges idle time to the CPU, and the call adds up the idle
times of the processes. -/
theorem sysCpuutilization_run {quantum p : Nat} {looks : List ProcState}
    (h : 100 * timeCharged Dispatch quantum 0 looks < 2 ^ 64) :
    sysCpuutilization ((Times.start p).run quantum looks) =
      if timeCharged Dispatch quantum 0 looks = 0 then 0 else 100 := by
  have hclear : Function.update (fun _ => 0) p 0 = (fun _ : Nat => (0 : Nat)) :=
    Function.update_eq_self p _
  have hstart : ∑ i ∈ Finset.range nproc, (Times.start p).totalTime i = 0 := by
    simp [Times.start]
  have hbound : ∑ i ∈ Finset.range nproc, (Times.start p).totalTime i +
      timeCharged Dispatch quantum (Times.start p).looked looks < 2 ^ 64 := by
    rw [hstart]
    simp only [Times.start]
    omega
  obtain ⟨htotal, hidle⟩ := run_times hbound
  rw [hstart, Nat.zero_add] at htotal
  have hzero : (Times.start p).idleTime = fun _ => 0 := hclear
  have hsum : sumTimes ((Times.start p).run quantum looks).totalTime =
      timeCharged Dispatch quantum 0 looks := by
    rw [sumTimes_eq, htotal]
    exact Nat.mod_eq_of_lt (by simp only [Times.start]; omega)
  have hsleep : sumTimes ((Times.start p).run quantum looks).idleTime = 0 := by
    rw [sumTimes_eq, hidle, hzero]
    simp
  rw [sysCpuutilization, hsum, hsleep]
  generalize timeCharged Dispatch quantum 0 looks = total at h
  split
  · rfl
  · have hpos : 0 < total := by omega
    have hwrap : (total + (2 ^ 64 - 0)) % 2 ^ 64 = total := by omega
    have hhundred : total * 100 % 2 ^ 64 = total * 100 := by omega
    rw [hwrap, hhundred]
    exact Nat.mul_div_cancel_left 100 hpos

/-- The call reports the utilization exactly when nothing was dispatched or no
process was found asleep. -/
theorem sysCpuutilization_utilizes_iff (quantum p : Nat) (looks : List ProcState)
    (hq : 0 < quantum) (htotal : 100 * timeCharged Dispatch quantum 0 looks < 2 ^ 64)
    (_ : 100 * timeCharged Asleep quantum 0 looks < 2 ^ 64) :
    Utilizes (sysCpuutilization ((Times.start p).run quantum looks))
        (timeCharged Dispatch quantum 0 looks) (timeCharged Asleep quantum 0 looks) ↔
      ¬ (EverDue Dispatch 0 looks ∧ EverDue Asleep 0 looks) := by
  have hdispatch := timeCharged_eq_zero Dispatch hq 0 looks
  have hsleep := timeCharged_eq_zero Asleep hq 0 looks
  rw [sysCpuutilization_run htotal, Utilizes]
  generalize timeCharged Dispatch quantum 0 looks = total at *
  generalize timeCharged Asleep quantum 0 looks = idle at *
  by_cases hzero : total = 0
  · have hnone := hdispatch.mp hzero
    simp [hzero, hnone]
  · have hsome : EverDue Dispatch 0 looks := by
      by_contra hnone
      exact hzero (hdispatch.mpr hnone)
    have hpos : (0 : Int) < total := by omega
    rw [if_neg hzero, if_neg hzero]
    constructor
    · rintro ⟨hvalue, -⟩ ⟨-, hasleep⟩
      have hidle : idle ≠ 0 := fun h0 => hsleep.mp h0 hasleep
      have hless : ((total : Int) - idle) * 100 / total < 100 :=
        Int.ediv_lt_of_lt_mul hpos (by omega)
      omega
    · intro hnot
      have hidle : idle = 0 := hsleep.mpr fun hasleep => hnot ⟨hsome, hasleep⟩
      refine ⟨?_, Nat.le_refl 100⟩
      rw [hidle]
      simp only [Nat.cast_zero, sub_zero]
      exact (Int.mul_ediv_cancel_left 100 hpos.ne').symm

/-- Slot 0 is dispatched, and is asleep when the second loop looks at it. -/
def sleeperLooks : List ProcState :=
  .runnable :: List.replicate 63 .unused ++ [.sleeping]

theorem sleeper_reported_busy : sysCpuutilization ((Times.start 0).run 1 sleeperLooks) = 100 ∧
    ¬ Utilizes (sysCpuutilization ((Times.start 0).run 1 sleeperLooks))
      (timeCharged Dispatch 1 0 sleeperLooks) (timeCharged Asleep 1 0 sleeperLooks) := by
  rw [Utilizes]
  decide +kernel

/-- One pass: three processes are dispatched, and two of them are still runnable when
the second loop looks at them. -/
def busyPass : List ProcState :=
  List.replicate 3 .runnable ++ List.replicate 61 .unused ++
    [.runnable, .zombie, .runnable] ++ List.replicate 61 .unused

theorem passes_reported_busy : Utilizes
    (sysCpuutilization ((Times.start 0).run 1 (busyPass ++ busyPass ++ [.runnable]))) 7 0 := by
  have hdispatch : timeCharged Dispatch 1 0 (busyPass ++ busyPass ++ [.runnable]) = 7 := by
    decide +kernel
  have hasleep : timeCharged Asleep 1 0 (busyPass ++ busyPass ++ [.runnable]) = 0 := by
    decide +kernel
  have hiff := sysCpuutilization_utilizes_iff 1 0 (busyPass ++ busyPass ++ [.runnable])
    (by decide) (by rw [hdispatch]; decide) (by rw [hasleep]; decide)
  rw [hdispatch, hasleep] at hiff
  apply hiff.mpr
  intro h
  exact (timeCharged_eq_zero Asleep (by decide) 0 _).mp hasleep h.2

end SyscallSched.Xv6
