import SyscallSched.Foundation.Ring

/-!
# Console input (`consoleread` and `consoleintr` of `console.c`)

Any number of processes, named by their pids, read from the console while characters
come in.  A process is at a place in `consoleread`, and a step takes it to the next:
past an `acquire`, or once through a loop.  `consoleintr` holds `cons.lock` from its
first line to its last, so a character is one step, and it waits while the lock is taken.

What the copy to user memory does is left open: a step is told whether `copyout` would
succeed.  The addresses of the user's buffers and the echo of the input are left out.

`history` is not kernel data: it records what the calls did, in order.
-/

namespace SyscallSched.Xv6.Console

open SyscallSched.Foundation

def inputBufSize : Nat := 128

def ctrlD : UInt8 := 4

def ctrlH : UInt8 := 8

def ctrlP : UInt8 := 16

def ctrlU : UInt8 := 21

def delete : UInt8 := 127

def newline : UInt8 := 10

def carriageReturn : UInt8 := 13

structure Cons where
  buf : Nat → UInt8
  r : UInt32
  w : UInt32
  e : UInt32

inductive Place where
  /-- not in a call -/
  | idle
  /-- `consoleread` at `acquire` -/
  | enter (n : Int)
  /-- at the head of the loop -/
  | reading (target n : Int)
  /-- asleep on `&cons.r` -/
  | asleep (target n : Int)
  /-- runnable, at the last `acquire` of `sleep` -/
  | woken (target n : Int)
  deriving DecidableEq, Repr

inductive Event where
  | called (p : Nat)
  /-- `cons.w = cons.e`, with the bytes between the two -/
  | committed (bytes : List UInt8)
  | delivered (p : Nat) (ch : UInt8)
  | returned (p : Nat) (value : Int)
  deriving DecidableEq, Repr

structure State where
  cons : Cons
  /-- the holder of `cons.lock` -/
  lock : Option Nat
  killed : Nat → Bool
  place : Nat → Place
  history : List Event

/-- The console before the first character; `cons` lies in the zeroed part of the kernel. -/
def State.initial : State where
  cons :=
    { buf := fun _ => 0
      r := 0
      w := 0
      e := 0 }
  lock := none
  killed := fun _ => false
  place := fun _ => .idle
  history := []

namespace Cons

def cell (c : Cons) (i : UInt32) : UInt8 := c.buf (i.toNat % inputBufSize)

def unread (c : Cons) : List UInt8 :=
  ringContents inputBufSize c.buf c.r.toNat (c.w - c.r).toNat

def edited (c : Cons) : List UInt8 :=
  ringContents inputBufSize c.buf c.w.toNat (c.e - c.w).toNat

/-- The loop of kill-line, which removes at most `fuel` bytes. -/
def killLine : Nat → Cons → Cons
  | 0, c => c
  | fuel + 1, c =>
      if c.e ≠ c.w ∧ c.cell (c.e - 1) ≠ newline then killLine fuel { c with e := c.e - 1 }
      else c

def backspace (c : Cons) : Cons :=
  if c.e ≠ c.w then { c with e := c.e - 1 } else c

def store (c : Cons) (ch : UInt8) : Cons :=
  { c with
    buf := Function.update c.buf (c.e.toNat % inputBufSize) ch
    e := c.e + 1 }

end Cons

namespace State

/-! ## Sleeping and waking -/

def goto (s : State) (p : Nat) (place : Place) : State :=
  { s with place := Function.update s.place p place }

def record (s : State) (e : Event) : State := { s with history := s.history ++ [e] }

/-- `acquire(&cons.lock)`, and then at `place`. -/
def acquire (s : State) (p : Nat) (place : Place) : State :=
  if s.lock = none then { s with lock := some p }.goto p place else s

/-- `sleep(&cons.r, &cons.lock)`, which ends at `place`. -/
def sleep (s : State) (p : Nat) (place : Place) : State :=
  { s with lock := none }.goto p place

/-- `release(&cons.lock); return value;` -/
def release (s : State) (p : Nat) (value : Int) : State :=
  ({ s with lock := none }.goto p .idle).record (.returned p value)

end State

def Place.wake : Place → Place
  | .asleep target n => .woken target n
  | place => place

namespace State

def wakeup (s : State) : State := { s with place := fun p => (s.place p).wake }

def kill (s : State) (p : Nat) : State :=
  { s with killed := Function.update s.killed p true }.goto p (s.place p).wake

/-! ## `consoleread` -/

def next (s : State) : UInt8 := s.cons.cell s.cons.r

def take (s : State) : State := { s with cons := { s.cons with r := s.cons.r + 1 } }

def untake (s : State) : State := { s with cons := { s.cons with r := s.cons.r - 1 } }

/-- The copy of the byte `c`, which `take` has already counted, and what follows it. -/
def deliver (s : State) (p : Nat) (target n : Int) (c : UInt8) : State :=
  let s := s.record (.delivered p c)
  if c = newline then s.release p (target - (n - 1)) else s.goto p (.reading target (n - 1))

def read (s : State) (p : Nat) (target n : Int) (copyout : Bool) : State :=
  if 0 < n then
    if s.cons.r = s.cons.w then
      if s.killed p = true then s.release p (-1) else s.sleep p (.asleep target n)
    else
      let c := s.next
      let s := s.take
      if c = ctrlD then
        if n < target then s.untake.release p (target - n) else s.release p (target - n)
      else if copyout then s.deliver p target n c
      else s.release p (target - n)
  else s.release p (target - n)

/-! ## `consoleintr` -/

/-- `cons.w = cons.e; wakeup(&cons.r);` -/
def commit (s : State) : State :=
  ({ s with cons := { s.cons with w := s.cons.e } }.wakeup).record (.committed s.cons.edited)

def input (s : State) (c : UInt8) : State :=
  if c ≠ 0 ∧ (s.cons.e - s.cons.r).toNat < inputBufSize then
    let c := if c = carriageReturn then newline else c
    let s := { s with cons := s.cons.store c }
    if c = newline ∨ c = ctrlD ∨ (s.cons.e - s.cons.r).toNat = inputBufSize then s.commit
    else s
  else s

def consoleintr (s : State) (c : UInt8) : State :=
  if c = ctrlP then s
  else if c = ctrlU then
    { s with cons := s.cons.killLine (s.cons.e - s.cons.w).toNat }
  else if c = ctrlH ∨ c = delete then { s with cons := s.cons.backspace }
  else s.input c

end State

/-! ## Runs -/

inductive Action where
  | consoleread (p : Nat) (n : Int)
  /-- a character comes in -/
  | intr (c : UInt8)
  | kill (p : Nat)
  /-- `p` runs on from its place -/
  | run (p : Nat) (copyout : Bool)

namespace State

def call (s : State) (p : Nat) (n : Int) : State :=
  if s.place p = .idle then (s.goto p (.enter n)).record (.called p) else s

def resume (s : State) (p : Nat) (copyout : Bool) : State :=
  match s.place p with
  | .idle => s
  | .enter n => s.acquire p (.reading n n)
  | .reading target n => s.read p target n copyout
  | .asleep _ _ => s
  | .woken target n => s.acquire p (.reading target n)

def step (s : State) : Action → State
  | .consoleread p n => s.call p n
  | .intr c => if s.lock = none then s.consoleintr c else s
  | .kill p => s.kill p
  | .run p copyout => s.resume p copyout

def run (s : State) (actions : List Action) : State := actions.foldl step s

end State

end SyscallSched.Xv6.Console
