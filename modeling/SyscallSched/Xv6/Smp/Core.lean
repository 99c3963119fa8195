import SyscallSched.Xv6.Smp.Model

/-!
# What a thread of the kernel knows of itself

`Core` is the part of the state that a thread has to itself: the nesting of `push_off`,
its interrupts, the spinlocks it holds, and under a process's lock the state of that
process.  `Core.Pre` is what an operation asks of the thread that does it, `Core.Gives`
what it answers, and `Core.next` what the thread has afterwards.
-/

namespace SyscallSched.Xv6.Smp

/-- `marked` is a lock that is taken, but does not bear the CPU's name. -/
inductive Grip where
  | free
  | marked
  | held
  deriving DecidableEq, Repr

structure Core where
  me : Thread
  live : Bool
  noff : Nat
  /-- `mycpu()->intena` -/
  intena : Option Bool
  sie : Bool
  /-- the bits `spie` and `spp` of `sstatus` -/
  prev : Option (Bool × Bool)
  grip : Lock → Grip
  /-- `c->proc`, for a scheduler -/
  cproc : Option Nat
  /-- `p->state`, under the lock of `p` -/
  state : Nat → Option ProcState
  /-- no CPU runs `p`, under the lock of `p` -/
  idle : Nat → Bool
  /-- the slot that `fork` is filling, and whether its context is set -/
  child : Option (Nat × Bool)

/-- Spinlocks are taken in the order of their ranks. -/
def Lock.rank : Lock → Nat
  | .wait => 0
  | .tick => 0
  | .sleep _ => 0
  | .proc _ => 1
  | .pid => 2

namespace Core

def myproc (u : Core) : Option Nat :=
  match u.me with
  | .proc p => some p
  | .cpu _ => u.cproc

theorem myproc_of_proc {u : Core} {p : Nat} (hme : u.me = .proc p) : u.myproc = some p := by
  rw [myproc, hme]

theorem myproc_of_cpu {u : Core} {c : Nat} (hme : u.me = .cpu c) : u.myproc = u.cproc := by
  rw [myproc, hme]

/-- No spinlock is held. -/
def Free (u : Core) : Prop := u.noff = 0 ∧ ∀ k, u.grip k = .free

/-- What holds of a thread whenever interrupts are on. -/
structure Open (u : Core) : Prop where
  free : u.Free
  cproc : u.cproc = none
  intena : u.intena = none
  prev : u.prev = none

def Only (u : Core) (p : Nat) : Prop :=
  u.grip (.proc p) = .held ∧ ∀ k, k ≠ .proc p → u.grip k = .free

/-- A scheduler while its CPU runs `p`. -/
structure Away (p : Nat) (u : Core) : Prop where
  live : u.live = true
  noff : u.noff = 1
  intena : u.intena = none
  sie : u.sie = false
  prev : u.prev = none
  only : u.Only p
  cproc : u.cproc = some p
  state : ∀ q, u.state q = none
  idle : ∀ q, u.idle q = false

/-- A process in `sched`, or one that has not run yet. -/
structure Parked (p : Nat) (u : Core) : Prop where
  live : u.live = true
  noff : u.noff = 1
  intena : u.intena = none
  sie : u.sie = false
  prev : u.prev = none
  only : u.Only p
  state : u.state p = some .running
  idle : ∀ q, u.idle q = false

def fresh (p : Nat) : Core where
  me := .proc p
  live := true
  noff := 1
  intena := none
  sie := false
  prev := none
  grip := Function.update (fun _ => .free) (.proc p) .held
  cproc := none
  state := Function.update (fun _ => none) p (some .running)
  idle := fun _ => false
  child := none

/-- The changes of `p->state` that are allowed under the lock of `p`. -/
def Moves (u : Core) (p : Nat) (st : ProcState) : Prop :=
  if u.me = .proc p then
    u.state p = some .running ∧ (st = .runnable ∨ st = .sleeping ∨ st = .zombie)
  else
    match st with
    | .unused => (u.idle p = true ∧ u.state p = some .zombie) ∨ ∃ b, u.child = some (p, b)
    | .used => u.idle p = true ∧ u.state p = some .unused ∧ u.child = none ∧ p < NPROC
    | .runnable => (u.idle p = true ∧ u.state p = some .sleeping) ∨ u.child = some (p, true)
    | .running => u.idle p = true ∧ u.state p = some .runnable ∧ ∃ c, u.me = .cpu c
    | _ => False

def Pre (u : Core) : Op → Prop
  | .intrOn => u.Free ∧ u.cproc = none
  | .setSstatus v => u.sie = false ∧ v.sie = false
  | .sret => u.Free ∧ u.cproc = none ∧ u.sie = false ∧ u.prev = some (true, true)
  | .cpuid => u.sie = false
  | .noff => u.sie = false
  | .setNoff _ => u.sie = false
  | .intena => u.sie = false
  | .setIntena _ => u.sie = false
  | .cproc => u.sie = false
  | .setCproc _ => u.sie = false ∧ ∃ c, u.me = .cpu c
  | .swap k => u.sie = false ∧ u.grip k = .free ∧
      ∀ k', u.grip k' ≠ .free → k'.rank < k.rank
  | .lockCpu _ => u.sie = false
  | .setLockCpu k => u.sie = false ∧ u.grip k = .marked
  | .clearLockCpu k => u.grip k = .held
  | .unlock k => u.grip k = .marked ∧ ∀ p, k = .proc p →
      (u.me = .proc p → u.state p = some .running) ∧
      (u.idle p = true → ∃ st, u.state p = some st ∧ st ≠ .running)
  | .state p => u.grip (.proc p) = .held
  | .setState p st => u.grip (.proc p) = .held ∧ u.Moves p st
  | .setContext p => u.grip (.proc p) = .held ∧ u.child = some (p, false)
  | .swtchTo p => (∃ c, u.me = .cpu c) ∧ u.noff = 1 ∧ u.sie = false ∧ u.Only p ∧
      u.cproc = some p ∧ u.idle p = true ∧ u.state p = some .running
  | .swtchBack => ∃ p, u.me = .proc p ∧ u.noff = 1 ∧ u.sie = false ∧ u.Only p ∧
      (u.state p = some .runnable ∨ u.state p = some .sleeping ∨
        u.state p = some .zombie ∧ u.child = none)
  | .user => u.Free ∧ u.sie = false ∧ ∃ b, u.prev = some (b, false)
  | .ioStep => u.sie = true
  | .panic m => m = .initExiting
  | _ => True

def Gives (u : Core) : (o : Op) → o.Res → Prop
  | .intrGet, r => r = u.sie
  | .sstatus, r => r.sie = u.sie ∧ ∀ b, u.prev = some b → (r.spie, r.spp) = b
  | .noff, r => r = u.noff
  | .intena, r => ∀ b, u.intena = some b → r = b
  | .cproc, r => r = u.myproc
  | .locked k, r => u.grip k ≠ .free → r = true
  | .lockCpu k, r => r = true ↔ u.grip k = .held
  | .state p, r => (∀ st, u.state p = some st → r = st) ∧ ∀ b, u.child = some (p, b) → r = .used
  | .user, r => ∀ k, r = .syscall k → Plain k
  | _, _ => True

def unlocked (u : Core) (k : Lock) : Core :=
  { u with
    grip := Function.update u.grip k .free
    state := fun p => if k = .proc p then none else u.state p
    idle := fun p => if k = .proc p then false else u.idle p }

def locked (u : Core) (k : Lock) : Core :=
  { u with
    grip := Function.update u.grip k .marked
    state := fun p => if k = .proc p ∧ u.me = .proc p then some .running else u.state p }

def away (u : Core) (p : Nat) : Core :=
  { u with
    intena := none
    prev := none
    state := Function.update u.state p none
    idle := Function.update u.idle p false }

/-- The thread of `p` after its switch: it finds itself running, or it never comes back. -/
def parked (u : Core) (p : Nat) : Core :=
  if u.state p = some .zombie then
    { u with live := false }
  else
    { u with
      intena := none
      prev := none
      state := Function.update u.state p (some .running) }

/-- The slot that is being filled after a change of the state of `p`. -/
def childAfter (u : Core) (p : Nat) : ProcState → Option (Nat × Bool)
  | .used => some (p, false)
  | _ => if u.child.map (·.1) = some p then none else u.child

def next (u : Core) : (o : Op) → o.Res → Core
  | .intrOn, _ => { u with sie := true, prev := none, intena := none }
  | .intrOff, _ => { u with sie := false }
  | .setSstatus v, _ => { u with prev := some (v.spie, v.spp) }
  | .sret, _ => { u with sie := true, prev := none, intena := none }
  | .setNoff n, _ => { u with noff := n }
  | .intena, r => { u with intena := if u.noff = 0 then none else some r }
  | .setIntena b, _ => { u with intena := some b }
  | .setCproc p, _ => { u with cproc := p }
  | .swap k, r => if r then u else u.locked k
  | .setLockCpu k, _ => { u with grip := Function.update u.grip k .held }
  | .clearLockCpu k, _ => { u with grip := Function.update u.grip k .marked }
  | .unlock k, _ => u.unlocked k
  | .state p, r =>
      { u with
        state := Function.update u.state p (some r)
        idle := if u.me = .proc p ∨ r = .running then u.idle
          else Function.update u.idle p true }
  | .setState p st, _ =>
      { u with
        state := Function.update u.state p (some st)
        child := if u.me = .proc p then u.child else u.childAfter p st }
  | .setContext p, _ => { u with child := some (p, true) }
  | .swtchTo p, _ => u.away p
  | .swtchBack, _ =>
      match u.me with
      | .proc p => u.parked p
      | .cpu _ => u
  | _, _ => u

/-- What an operation of another thread does to the thread `j`. -/
def other (o : Op) (j : Thread) (u : Core) : Core :=
  match o with
  | .setContext p => if j = .proc p then fresh p else u
  | .setState p .unused => if j = .proc p then { u with live := false } else u
  | _ => u

end Core

/-- All threads after the thread `t` did `o`. -/
def advance (l : Thread → Core) (t : Thread) (o : Op) (r : o.Res) : Thread → Core :=
  Function.update (fun j => Core.other o j (l j)) t ((l t).next o r)

/-! ## The invariant -/

/-- The registers of a CPU are those of the thread that it runs. -/
structure Tied (v : Cpu) (u : Core) : Prop where
  noff : v.noff = u.noff
  sie : v.sie = u.sie
  intena : ∀ b, u.intena = some b → v.intena = b
  prev : ∀ b, u.prev = some b → (v.spie, v.spp) = b
  on : u.sie = true → u.Open

abbrev State.cur (s : State) (c : Nat) : Thread := (s.cpu c).cur

def State.Running (s : State) (t : Thread) : Prop := ∃ c, s.cur c = t

def Resting (p : Nat) (u : Core) : ProcState → Prop
  | .unused => u.live = false
  | .zombie => u.live = false
  | .used => u.live = true → Core.Parked p u
  | _ => Core.Parked p u

structure Inv (s : State) (l : Thread → Core) : Prop where
  me : ∀ t, (l t).me = t
  cproc : ∀ p, (l (.proc p)).cproc = none
  sched : ∀ c, (l (.cpu c)).live = true ∧ (s.cpu c).proc = (l (.cpu c)).cproc
  cur : ∀ c, s.cur c = .cpu c ∨ ∃ p, s.cur c = .proc p ∧ Core.Away p (l (.cpu c))
  once : ∀ c c' p, s.cur c = .proc p → s.cur c' = .proc p → c = c'
  live : ∀ c, (l (s.cur c)).live = true
  tied : ∀ c, Tied (s.cpu c) (l (s.cur c))
  lockCpu : ∀ k c, (s.lock k).cpu = some c ↔ (l (s.cur c)).grip k = .held
  locked : ∀ k, (s.lock k).locked = true ↔ ∃ c, (l (s.cur c)).grip k ≠ .free
  holder : ∀ k c c', (l (s.cur c)).grip k ≠ .free → (l (s.cur c')).grip k ≠ .free → c = c'
  unknown : ∀ t p, (l t).live = true → (l t).grip (.proc p) = .free →
    (l t).state p = none ∧ (l t).idle p = false
  state : ∀ c p st, (l (s.cur c)).state p = some st → s.state p = st
  idle : ∀ c p, (l (s.cur c)).idle p = true → ¬ s.Running (.proc p)
  own : ∀ p, s.Running (.proc p) →
    if (l (.proc p)).grip (.proc p) = .free then s.state p = .running
    else (l (.proc p)).state p = some (s.state p) ∧ s.state p ≠ .unused ∧ s.state p ≠ .used
  resting : ∀ p, ¬ s.Running (.proc p) → Resting p (l (.proc p)) (s.state p)
  picked : ∀ p, s.state p = .running → ¬ s.Running (.proc p) →
    ∃ c, (l (s.cur c)).grip (.proc p) ≠ .free ∧ (l (s.cur c)).idle p = true
  child : ∀ t p b, (l t).live = true → (l t).child = some (p, b) →
    s.state p = .used ∧ (l (.proc p)).live = b
  parent : ∀ t t' p b b', (l t).live = true → (l t').live = true →
    (l t).child = some (p, b) → (l t').child = some (p, b') → t = t'
  bound : ∀ p, s.state p ≠ .unused → p < NPROC

end SyscallSched.Xv6.Smp
