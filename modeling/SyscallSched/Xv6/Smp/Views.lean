import SyscallSched.Xv6.Smp.Core

/-!
# Updates of the state, and the threads that run
-/

namespace SyscallSched.Xv6.Smp

variable {s : State} {l : Thread → Core} {c c' : Nat} {t : Thread} {u : Core}

/-! ## Updates seen through a field -/

theorem view_update {β : Type} (f : Core → β) (hf : f u = f (l t)) (j : Thread) :
    f (Function.update l t u j) = f (l j) := by
  by_cases hj : j = t
  · subst hj
    simpa using hf
  · simp [hj]

@[simp] theorem setCpu_lock {v : Cpu} : (s.setCpu c v).lock = s.lock := rfl

@[simp] theorem setCpu_state {v : Cpu} : (s.setCpu c v).state = s.state := rfl

@[simp] theorem setCpu_mem {v : Cpu} : (s.setCpu c v).mem = s.mem := rfl

@[simp] theorem setLock_cpu {k : Lock} {v : Spinlock} : (s.setLock k v).cpu = s.cpu := rfl

@[simp] theorem setLock_state {k : Lock} {v : Spinlock} : (s.setLock k v).state = s.state := rfl

@[simp] theorem setLock_mem {k : Lock} {v : Spinlock} : (s.setLock k v).mem = s.mem := rfl

@[simp] theorem setState_cpu {p : Nat} {st : ProcState} : (s.setState p st).cpu = s.cpu := rfl

@[simp] theorem setState_lock {p : Nat} {st : ProcState} : (s.setState p st).lock = s.lock := rfl

@[simp] theorem setState_mem {p : Nat} {st : ProcState} : (s.setState p st).mem = s.mem := rfl

@[simp] theorem setState_self {p : Nat} {st : ProcState} : (s.setState p st).state p = st := by
  simp [State.setState]

@[simp] theorem setState_cur {p : Nat} {st : ProcState} : (s.setState p st).cur c = s.cur c := rfl

@[simp] theorem setState_running {p : Nat} {st : ProcState} :
    (s.setState p st).Running t ↔ s.Running t := Iff.rfl

@[simp] theorem setLock_cur {k : Lock} {v : Spinlock} : (s.setLock k v).cur c = s.cur c := rfl

@[simp] theorem setLock_running {k : Lock} {v : Spinlock} :
    (s.setLock k v).Running t ↔ s.Running t := Iff.rfl

theorem setState_of_ne {p q : Nat} {st : ProcState} (hq : q ≠ p) :
    (s.setState p st).state q = s.state q := by
  simp [State.setState, hq]

theorem setCpu_self : s.setCpu c (s.cpu c) = s := by
  simp [State.setCpu]

theorem setCpu_cpu_self {v : Cpu} : (s.setCpu c v).cpu c = v := by
  simp [State.setCpu]

theorem setCpu_cpu_of_ne {v : Cpu} (hc : c' ≠ c) : (s.setCpu c v).cpu c' = s.cpu c' := by
  simp [State.setCpu, hc]

theorem setCpu_cur_self {v : Cpu} : (s.setCpu c v).cur c = v.cur := by
  simp [State.setCpu, State.cur]

theorem setCpu_cur_of_ne {v : Cpu} (hc : c' ≠ c) : (s.setCpu c v).cur c' = s.cur c' := by
  simp [State.setCpu, State.cur, hc]

theorem setCpu_cur {v : Cpu} (hv : v.cur = s.cur c) (c' : Nat) :
    (s.setCpu c v).cur c' = s.cur c' := by
  by_cases hc : c' = c
  · subst hc
    simpa [State.setCpu, State.cur] using hv
  · simp [State.setCpu, State.cur, hc]

/-! ## What the invariant says of the threads that run -/

section

variable (h : Inv s l)

include h

theorem Inv.cur_inj (hc : s.cur c = s.cur c') : c = c' := by
  obtain hcpu | ⟨p, hp, _⟩ := h.cur c
  · obtain hcpu' | ⟨p, hp, _⟩ := h.cur c'
    · rw [hcpu, hcpu'] at hc
      injection hc
    · rw [hcpu, hp] at hc
      cases hc
  · exact h.once c c' p hp (hc ▸ hp)

theorem Inv.cur_cpu (hc : s.cur c = .cpu c') : c = c' := by
  obtain hcpu | ⟨p, hp, _⟩ := h.cur c
  · rw [hcpu] at hc
    injection hc
  · rw [hp] at hc
    cases hc

theorem Inv.update_cur (hc : c' ≠ c) :
    Function.update l (s.cur c) u (s.cur c') = l (s.cur c') :=
  Function.update_of_ne (fun heq => hc (h.cur_inj heq)) _ _

/-- What is known of a process is known under its lock. -/
theorem Inv.grip_of_state {p : Nat} {st : ProcState} (hst : (l (s.cur c)).state p = some st) :
    (l (s.cur c)).grip (.proc p) ≠ .free := by
  intro hfree
  rw [(h.unknown _ _ (h.live c) hfree).1] at hst
  cases hst

theorem Inv.grip_of_idle {p : Nat} (hidle : (l (s.cur c)).idle p = true) :
    (l (s.cur c)).grip (.proc p) ≠ .free := by
  intro hfree
  rw [(h.unknown _ _ (h.live c) hfree).2] at hidle
  cases hidle

theorem Inv.sie_of_grip {k : Lock} (hk : (l (s.cur c)).grip k ≠ .free) :
    (l (s.cur c)).sie = false := by
  cases hsie : (l (s.cur c)).sie with
  | false => rfl
  | true => exact absurd (((h.tied c).on hsie).free.2 k) hk

theorem Inv.state_of_running {p : Nat} (hp : s.Running (.proc p)) :
    s.state p ≠ .unused ∧ s.state p ≠ .used := by
  have hown := h.own p hp
  split at hown
  · simp [hown]
  · exact hown.2

theorem Inv.not_running_of_child {p : Nat} {b : Bool} (hlive : (l t).live = true)
    (hchild : (l t).child = some (p, b)) : ¬ s.Running (.proc p) := by
  intro hp
  exact (h.state_of_running hp).2 (h.child t p b hlive hchild).1

/-- Under the lock of another process, one that is not running runs nowhere. -/
theorem Inv.not_running_of_state {p : Nat} (hgrip : (l (s.cur c)).grip (.proc p) ≠ .free)
    (hother : s.cur c ≠ .proc p) (hst : s.state p ≠ .running) : ¬ s.Running (.proc p) := by
  rintro ⟨c', hc'⟩
  have hown := h.own p ⟨c', hc'⟩
  split at hown
  · exact hst hown
  · rename_i hheld
    rw [← hc'] at hheld
    have hcc := h.holder _ _ _ hgrip hheld
    rw [hcc] at hother
    exact hother hc'

end

end SyscallSched.Xv6.Smp
