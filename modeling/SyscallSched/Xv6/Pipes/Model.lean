import Mathlib.Logic.Function.Basic

/-!
# Pipes (`pipe.c`, and `sleep`, `wakeup` and `kill` of `proc.c`)

One pipe and any number of processes, named by their pids, that call `pipewrite`,
`piperead` and `pipeclose` on it.  A process is at a place in one of these
functions, and a step takes it to the next: past an `acquire`, or once through a
loop.  A process that finds `pi->lock` taken stays where it is.

What the copies from and to user memory do is left open: a step is given the byte
that `copyin` would fetch, if it fetches one, and whether `copyout` would succeed.
The addresses of the user's buffers are therefore left out.  So is the `kfree` in
`pipeclose`: nobody has the pipe open any more when it happens.

`history` is not kernel data: it records what the calls did, in order.
-/

namespace SyscallSched.Xv6.Pipes

def pipeSize : Nat := 512

structure Pipe where
  data : Nat → UInt8
  nread : UInt32
  nwrite : UInt32
  readopen : Bool
  writeopen : Bool

/-- `&pi->nread` and `&pi->nwrite` -/
inductive Chan where
  | nread
  | nwrite
  deriving DecidableEq, Repr

inductive Place where
  /-- not in a call on the pipe -/
  | idle
  /-- `pipewrite` at `acquire` -/
  | writeEnter (n : Int)
  /-- at the head of the loop of `pipewrite` -/
  | writing (n : Int) (i : Nat)
  /-- asleep on `&pi->nwrite` -/
  | writeAsleep (n : Int) (i : Nat)
  /-- runnable, at the last `acquire` of `sleep` -/
  | writeWoken (n : Int) (i : Nat)
  /-- `piperead` at `acquire` -/
  | readEnter (n : Int)
  /-- at the head of the first loop of `piperead` -/
  | waiting (n : Int)
  /-- asleep on `&pi->nread` -/
  | readAsleep (n : Int)
  /-- runnable, at the last `acquire` of `sleep` -/
  | readWoken (n : Int)
  /-- at the head of the second loop of `piperead` -/
  | copying (n : Int) (i : Nat)
  /-- `pipeclose` at `acquire` -/
  | closeEnter (writable : Bool)
  deriving DecidableEq, Repr

inductive Event where
  | called (p : Nat)
  | accepted (p : Nat) (ch : UInt8)
  | delivered (p : Nat) (ch : UInt8)
  | returned (p : Nat) (value : Int)
  deriving DecidableEq, Repr

structure State where
  pipe : Pipe
  /-- the holder of `pi->lock` -/
  lock : Option Nat
  killed : Nat → Bool
  place : Nat → Place
  history : List Event

/-- The pipe as `pipealloc` leaves it in a page that `kalloc` gave it. -/
def State.initial (page : Nat → UInt8) : State where
  pipe :=
    { data := page
      nread := 0
      nwrite := 0
      readopen := true
      writeopen := true }
  lock := none
  killed := fun _ => false
  place := fun _ => .idle
  history := []

/-! ## Sleeping and waking -/

def Place.asleepOn : Place → Option Chan
  | .writeAsleep _ _ => some .nwrite
  | .readAsleep _ => some .nread
  | _ => none

def Place.woken : Place → Place
  | .writeAsleep n i => .writeWoken n i
  | .readAsleep n => .readWoken n
  | place => place

namespace State

def goto (s : State) (p : Nat) (place : Place) : State :=
  { s with place := Function.update s.place p place }

theorem goto_place_self (s : State) (p : Nat) (place : Place) :
    (s.goto p place).place p = place := by
  simp [goto]

theorem goto_place_ne (s : State) {p q : Nat} (place : Place) (h : q ≠ p) :
    (s.goto p place).place q = s.place q := by
  simp [goto, h]

def record (s : State) (e : Event) : State := { s with history := s.history ++ [e] }

def acquire (s : State) (p : Nat) (place : Place) : State :=
  if s.lock = none then { s with lock := some p }.goto p place else s

def sleep (s : State) (p : Nat) (place : Place) : State :=
  { s with lock := none }.goto p place

def wakeup (s : State) (me : Nat) (chan : Chan) : State :=
  { s with place := fun p =>
      if p ≠ me ∧ (s.place p).asleepOn = some chan then (s.place p).woken else s.place p }

def kill (s : State) (p : Nat) : State :=
  { s with killed := Function.update s.killed p true }.goto p (s.place p).woken

/-- `release(&pi->lock); return value;` -/
def release (s : State) (p : Nat) (value : Int) : State :=
  ({ s with lock := none }.goto p .idle).record (.returned p value)

/-! ## `pipewrite` -/

def full (s : State) : Prop := s.pipe.nwrite = s.pipe.nread + UInt32.ofNat pipeSize

instance (s : State) : Decidable s.full := inferInstanceAs (Decidable (_ = _))

/-- `pi->data[pi->nwrite++ % PIPESIZE] = ch` -/
def store (s : State) (ch : UInt8) : State :=
  { s with pipe :=
      { s.pipe with
        data := Function.update s.pipe.data (s.pipe.nwrite.toNat % pipeSize) ch
        nwrite := s.pipe.nwrite + 1 } }

/-- What follows the loop of `pipewrite`. -/
def writeEnd (s : State) (p : Nat) (i : Nat) : State :=
  (s.wakeup p .nread).release p i

def write (s : State) (p : Nat) (n : Int) (i : Nat) (copyin : Option UInt8) : State :=
  if i < n then
    if s.pipe.readopen = false ∨ s.killed p = true then
      s.release p (-1)
    else if s.full then
      (s.wakeup p .nread).sleep p (.writeAsleep n i)
    else
      match copyin with
      | none => s.writeEnd p i
      | some ch => ((s.store ch).goto p (.writing n (i + 1))).record (.accepted p ch)
  else
    s.writeEnd p i

/-! ## `piperead` -/

def empty (s : State) : Prop := s.pipe.nread = s.pipe.nwrite

instance (s : State) : Decidable s.empty := inferInstanceAs (Decidable (_ = _))

def wait (s : State) (p : Nat) (n : Int) : State :=
  if s.empty ∧ s.pipe.writeopen = true then
    if s.killed p = true then
      s.release p (-1)
    else
      s.sleep p (.readAsleep n)
  else
    s.goto p (.copying n 0)

/-- `pi->data[pi->nread % PIPESIZE]` -/
def next (s : State) : UInt8 := s.pipe.data (s.pipe.nread.toNat % pipeSize)

def take (s : State) : State :=
  { s with pipe := { s.pipe with nread := s.pipe.nread + 1 } }

def readEnd (s : State) (p : Nat) (i : Nat) : State :=
  (s.wakeup p .nwrite).release p i

def copy (s : State) (p : Nat) (n : Int) (i : Nat) (copyout : Bool) : State :=
  if i < n then
    if s.empty then
      s.readEnd p i
    else if copyout then
      (s.take.goto p (.copying n (i + 1))).record (.delivered p s.next)
    else
      s.take.readEnd p i
  else
    s.readEnd p i

/-! ## `pipeclose` -/

def shut (s : State) (p : Nat) (writable : Bool) : State :=
  if writable then
    { s with pipe := { s.pipe with writeopen := false } }.wakeup p .nread
  else
    { s with pipe := { s.pipe with readopen := false } }.wakeup p .nwrite

/-- `pipeclose` holds the lock in one stretch. -/
def close (s : State) (p : Nat) (writable : Bool) : State :=
  if s.lock = none then (s.shut p writable).goto p .idle else s

end State

/-! ## Runs -/

/-- What the copies of one byte do if a step comes to one. -/
structure UserCopy where
  copyin : Option UInt8
  copyout : Bool

inductive Action where
  | pipewrite (p : Nat) (n : Int)
  | piperead (p : Nat) (n : Int)
  | pipeclose (p : Nat) (writable : Bool)
  | kill (p : Nat)
  /-- `p` runs on from its place -/
  | run (p : Nat) (user : UserCopy)

namespace State

def call (s : State) (p : Nat) (place : Place) : State :=
  if s.place p = .idle then (s.goto p place).record (.called p) else s

def resume (s : State) (p : Nat) (user : UserCopy) : State :=
  match s.place p with
  | .idle => s
  | .writeEnter n => s.acquire p (.writing n 0)
  | .writing n i => s.write p n i user.copyin
  | .writeAsleep _ _ => s
  | .writeWoken n i => s.acquire p (.writing n i)
  | .readEnter n => s.acquire p (.waiting n)
  | .waiting n => s.wait p n
  | .readAsleep _ => s
  | .readWoken n => s.acquire p (.waiting n)
  | .copying n i => s.copy p n i user.copyout
  | .closeEnter writable => s.close p writable

def step (s : State) : Action → State
  | .pipewrite p n => s.call p (.writeEnter n)
  | .piperead p n => s.call p (.readEnter n)
  | .pipeclose p writable => s.call p (.closeEnter writable)
  | .kill p => s.kill p
  | .run p user => s.resume p user

def run (s : State) (actions : List Action) : State := actions.foldl step s

theorem run_cons (s : State) (a : Action) (actions : List Action) :
    s.run (a :: actions) = (s.step a).run actions := rfl

end State

end SyscallSched.Xv6.Pipes
