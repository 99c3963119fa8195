import Mathlib.Logic.Function.Basic
import SyscallSched.Xv6.Proc

/-!
# Spinlocks (`spinlock.c`)

The state of one CPU: how deep `push_off` is nested, whether interrupts were on
before the first of them, whether they are on, and the locks that it holds.  A
lock that another CPU holds makes `acquire` spin, which is not a step here.

`Erases F f` says that a program `F` with locks does what `f` does without.
-/

namespace SyscallSched.Xv6

open SyscallSched.Foundation

namespace Lock

/-- The spinlocks that the calls below take. -/
inductive Name where
  | proc (p : Nat)
  | wait
  | pid
  | kmem
  | ftable
  | itable
  deriving DecidableEq, Repr

structure Cpu where
  noff : Nat := 0
  intena : Bool := false
  intr : Bool := true
  held : Name → Bool := fun _ => false

structure Machine where
  kernel : Kernel
  cpu : Cpu

inductive LockPanic where
  | acquire
  | release
  | popOffInterruptible
  | popOff
  | schedPLock
  | schedLocks
  | schedRunning
  | schedInterruptible
  | kernel (e : Panic)

abbrev LockM := StateT Machine (Except LockPanic)

def pushOff : LockM Unit :=
  modify fun m => { m with cpu :=
    { m.cpu with
      intr := false
      intena := if m.cpu.noff = 0 then m.cpu.intr else m.cpu.intena
      noff := m.cpu.noff + 1 } }

def popOff : LockM Unit := do
  let m ← get
  if m.cpu.intr then
    throw .popOffInterruptible
  else if m.cpu.noff < 1 then
    throw .popOff
  else
    set { m with cpu :=
      { m.cpu with
        noff := m.cpu.noff - 1
        intr := if m.cpu.noff - 1 = 0 ∧ m.cpu.intena then true else m.cpu.intr } }

def acquire (l : Name) : LockM Unit := do
  pushOff
  let m ← get
  if m.cpu.held l then
    throw .acquire
  else
    set { m with cpu := { m.cpu with held := Function.update m.cpu.held l true } }

def release (l : Name) : LockM Unit := do
  let m ← get
  if m.cpu.held l then do
    set { m with cpu := { m.cpu with held := Function.update m.cpu.held l false } }
    popOff
  else
    throw .release

def inKernel {α : Type} (x : KernelM α) : LockM α := fun m =>
  match x m.kernel with
  | .error e => .error (.kernel e)
  | .ok (a, kernel) => .ok (a, { m with kernel })

/-! ## One acquisition -/

def Cpu.locked (c : Cpu) (l : Name) : Cpu :=
  { noff := c.noff + 1
    intena := if c.noff = 0 then c.intr else c.intena
    intr := false
    held := Function.update c.held l true }

/-- `c` up to `intena`, which means nothing while `noff` is 0. -/
def Cpu.marked (c : Cpu) : Cpu :=
  { c with intena := if c.noff = 0 then c.intr else c.intena }

def Cpu.Ok (c : Cpu) : Prop := 0 < c.noff → c.intr = false

section

variable {c c' : Cpu} {l l' : Name} {k : Kernel}

@[simp] theorem locked_marked : (c.locked l).marked = c.locked l := by
  simp [Cpu.locked, Cpu.marked]

@[simp] theorem marked_locked : c.marked.locked l = c.locked l := by
  by_cases h : c.noff = 0 <;> simp [Cpu.locked, Cpu.marked, h]

@[simp] theorem marked_marked : c.marked.marked = c.marked := by
  by_cases h : c.noff = 0 <;> simp [Cpu.marked, h]

theorem locked_comm (h : l ≠ l') : (c.locked l).locked l' = (c.locked l').locked l := by
  simp [Cpu.locked, Function.update_comm h]

theorem ok_locked : (c.locked l).Ok := fun _ => rfl

theorem locked_held_self : (c.locked l).held l = true := by
  simp [Cpu.locked]

theorem locked_held_ne (h : l' ≠ l) : (c.locked l).held l' = c.held l' := by
  simp [Cpu.locked, h]

theorem locked_congr (h : c'.marked = c.marked) : c'.locked l = c.locked l := by
  rw [← marked_locked, h, marked_locked]

theorem held_congr (h : c'.marked = c.marked) : c'.held = c.held := by
  have hsame := congrArg Cpu.held h
  exact hsame

theorem noff_congr (h : c'.marked = c.marked) : c'.noff = c.noff := by
  have hsame := congrArg Cpu.noff h
  exact hsame

theorem intr_congr (h : c'.marked = c.marked) : c'.intr = c.intr := by
  have hsame := congrArg Cpu.intr h
  exact hsame

theorem ok_congr (h : c'.marked = c.marked) (hc : c.Ok) : c'.Ok := by
  intro hpos
  rw [noff_congr h] at hpos
  rw [intr_congr h]
  exact hc hpos

theorem eq_locked (h : c'.marked = (c.locked l).marked) : c' = c.locked l := by
  have hpos : c'.noff ≠ 0 := by
    rw [noff_congr h]
    exact Nat.succ_ne_zero _
  rw [locked_marked] at h
  rw [← h]
  simp [Cpu.marked, hpos]

theorem pushOff_run : pushOff ⟨k, c⟩ = .ok ((), ⟨k, { c with
    intr := false
    intena := if c.noff = 0 then c.intr else c.intena
    noff := c.noff + 1 }⟩) := rfl

theorem acquire_run (h : c.held l = false) : acquire l ⟨k, c⟩ = .ok ((), ⟨k, c.locked l⟩) := by
  rw [acquire, Total.run_bind pushOff_run, Total.run_bind (a := _) (t := _) rfl,
    if_neg (by simpa using h)]
  rfl

theorem popOff_run (hintr : c.intr = false) (hnoff : 0 < c.noff) :
    popOff ⟨k, c⟩ = .ok ((), ⟨k, { c with
      noff := c.noff - 1
      intr := if c.noff - 1 = 0 ∧ c.intena then true else c.intr }⟩) := by
  rw [popOff, Total.run_bind (a := ⟨k, c⟩) (t := ⟨k, c⟩) rfl, if_neg (by simp [hintr]),
    if_neg (by simp only; omega)]
  rfl

theorem release_run (hc : c.Ok) (h : c.held l = false) :
    release l ⟨k, c.locked l⟩ = .ok ((), ⟨k, c.marked⟩) := by
  have hopen : release l ⟨k, c.locked l⟩ = popOff ⟨k, { c.locked l with
      held := Function.update (c.locked l).held l false }⟩ := by
    rw [release, Total.run_bind (a := ⟨k, c.locked l⟩) (t := ⟨k, c.locked l⟩) rfl,
      if_pos locked_held_self]
    rfl
  have hheld : Function.update (c.locked l).held l false = c.held := by
    simp [Cpu.locked, ← h]
  rw [hopen, popOff_run rfl (Nat.succ_pos _), hheld]
  congr 3
  by_cases hzero : c.noff = 0
  · simp [Cpu.locked, Cpu.marked, hzero]
  · have hoff := hc (Nat.pos_of_ne_zero hzero)
    simp [Cpu.locked, Cpu.marked, hzero, hoff]

end

/-! ## Erasing the locks -/

section

variable {α β : Type} {k : Kernel} {c c₀ : Cpu} {l : Name}

/-- From `k` and `c`, `F` returns what `f` returns, in the state in which `f`
does, and leaves the CPU as in `post`. -/
def Erases (F : LockM α) (f : KernelM α) (k : Kernel) (c : Cpu) (post : α → Cpu) : Prop :=
  ∀ a k', f k = .ok (a, k') → ∃ c', F ⟨k, c⟩ = .ok (a, ⟨k', c'⟩) ∧ c'.marked = (post a).marked

namespace Erases

variable {F : LockM α} {f : KernelM α} {G : α → LockM β} {g : α → KernelM β}
  {post : α → Cpu} {post' : β → Cpu}

theorem of_pure {a : α} (h : c.marked = (post a).marked) : Erases (pure a) (pure a) k c post := by
  intro b k' hrun
  cases hrun
  exact ⟨c, rfl, h⟩

theorem of_kernel (x : KernelM α) : Erases (inKernel x) x k c fun _ => c := by
  intro a k' hrun
  refine ⟨c, ?_, rfl⟩
  rw [inKernel]
  simp only [hrun]

theorem bind (hF : Erases F f k c post)
    (hG : ∀ a k₁ c₁, f k = .ok (a, k₁) → c₁.marked = (post a).marked →
      Erases (G a) (g a) k₁ c₁ post') : Erases (F >>= G) (f >>= g) k c post' := by
  intro b k' hrun
  obtain ⟨a, k₁, hf, hg⟩ := bind_ok hrun
  obtain ⟨c₁, hF₁, hc₁⟩ := hF a k₁ hf
  obtain ⟨c', hG₁, hc'⟩ := hG a k₁ c₁ hf hc₁ b k' hg
  exact ⟨c', by rw [Total.run_bind hF₁, hG₁], hc'⟩

theorem acquire (hl : c.held l = false) (hF : Erases F f k (c.locked l) post) :
    Erases (Lock.acquire l >>= fun _ => F) f k c post := by
  intro a k' hrun
  rw [Total.run_bind (acquire_run hl)]
  exact hF a k' hrun

theorem release (hc : c.marked = (c₀.locked l).marked) (hok : c₀.Ok) (hl : c₀.held l = false)
    (hF : ∀ c₁, c₁.marked = c₀.marked → Erases F f k c₁ post) :
    Erases (Lock.release l >>= fun _ => F) f k c post := by
  intro a k' hrun
  rw [eq_locked hc, Total.run_bind (release_run hok hl)]
  exact hF c₀.marked marked_marked a k' hrun

end Erases

end

end Lock

end SyscallSched.Xv6
