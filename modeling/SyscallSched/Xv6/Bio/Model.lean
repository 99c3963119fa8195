import Mathlib.Data.List.FinRange
import SyscallSched.Foundation.LinkedRing

/-!
# The buffer cache (`bio.c`)

A step is what one process does under `bcache.lock`, or with the sleep-lock of a buffer.
`bread` is `bget`, which takes a reference, then `acquiresleep`, and then the read of a
buffer that is not valid; `brelse` is `releasesleep`, and then, under `bcache.lock`, the
end of the reference.  Which process does a step makes no difference, so a state counts
the processes that are at each place.

A reference belongs to a call in progress or to a block that the log keeps, so there are
fewer than 2^32 of them and `refcnt` is a natural number.  The contents of the buffers and
the field `disk` are left out.
-/

namespace SyscallSched.Xv6.Bio

open SyscallSched.Foundation

def nbuf : Nat := 30

/-- The structures in the ring: `&bcache.head` and the buffers. -/
inductive Node where
  | head
  | buf (b : Fin nbuf)
  deriving DecidableEq

structure Buf where
  dev : UInt32
  blockno : UInt32
  valid : Bool
  refcnt : Nat
  deriving DecidableEq

structure Bcache where
  buf : Fin nbuf → Buf
  links : Links Node

inductive Panic where
  /-- `bget: no buffers` -/
  | noBuffers
  | brelse
  /-- not a panic of the kernel: a loop over the ring that does not end -/
  | endless
  deriving DecidableEq

namespace Bcache

def setBuf (c : Bcache) (b : Fin nbuf) (v : Buf) : Bcache :=
  { c with buf := Function.update c.buf b v }

def binit (c : Bcache) : Bcache :=
  let links := (c.links.setPrev .head .head).setNext .head .head
  { c with links := (List.finRange nbuf).foldl (fun l b => l.insertAfter .head (.buf b)) links }

def Caches (c : Bcache) (dev blockno : UInt32) (b : Fin nbuf) : Prop :=
  (c.buf b).dev = dev ∧ (c.buf b).blockno = blockno

instance (c : Bcache) (dev blockno : UInt32) (b : Fin nbuf) : Decidable (c.Caches dev blockno b) :=
  inferInstanceAs (Decidable (_ ∧ _))

def test (p : Fin nbuf → Bool) : Node → Bool
  | .head => false
  | .buf b => p b

def searchNext (c : Bcache) (p : Fin nbuf → Bool) : Option Node :=
  search c.links.next .head (test p) (nbuf + 1) (c.links.next .head)

def searchPrev (c : Bcache) (p : Fin nbuf → Bool) : Option Node :=
  search c.links.prev .head (test p) (nbuf + 1) (c.links.prev .head)

/-- The second loop of `bget`. -/
def recycle (c : Bcache) (dev blockno : UInt32) : Except Panic (Fin nbuf × Bcache) :=
  match c.searchPrev fun b => (c.buf b).refcnt == 0 with
  | none => .error .endless
  | some .head => .error .noBuffers
  | some (.buf b) => .ok (b, c.setBuf b { dev, blockno, valid := false, refcnt := 1 })

def bget (c : Bcache) (dev blockno : UInt32) : Except Panic (Fin nbuf × Bcache) :=
  match c.searchNext fun b => c.Caches dev blockno b with
  | none => .error .endless
  | some .head => c.recycle dev blockno
  | some (.buf b) => .ok (b, c.setBuf b { c.buf b with refcnt := (c.buf b).refcnt + 1 })

def unref (c : Bcache) (b : Fin nbuf) : Bcache :=
  let c := c.setBuf b { c.buf b with refcnt := (c.buf b).refcnt - 1 }
  if (c.buf b).refcnt = 0 then
    { c with links := (c.links.unlink (.buf b)).insertAfter .head (.buf b) }
  else c

def bpin (c : Bcache) (b : Fin nbuf) : Bcache :=
  c.setBuf b { c.buf b with refcnt := (c.buf b).refcnt + 1 }

def bunpin (c : Bcache) (b : Fin nbuf) : Bcache :=
  c.setBuf b { c.buf b with refcnt := (c.buf b).refcnt - 1 }

end Bcache

structure State where
  cache : Bcache
  /-- the calls of `bget` that wait for the lock of the buffer -/
  waiting : Fin nbuf → Nat
  locked : Fin nbuf → Bool
  /-- the calls of `brelse` that have given up the lock and not yet the reference -/
  releasing : Fin nbuf → Nat
  /-- the calls of `bpin` that no `bunpin` has undone -/
  pins : Fin nbuf → Nat
  /-- not kernel data: when `brelse` last took `refcnt` to zero, or 0 -/
  released : Fin nbuf → Nat
  /-- not kernel data: how often `brelse` took a `refcnt` to zero -/
  now : Nat

def State.initial (links : Links Node) : State where
  cache := Bcache.binit
    { buf := fun _ => { dev := 0, blockno := 0, valid := false, refcnt := 0 }
      links }
  waiting := fun _ => 0
  locked := fun _ => false
  releasing := fun _ => 0
  pins := fun _ => 0
  released := fun _ => 0
  now := 0

inductive Action where
  | bget (dev blockno : UInt32)
  /-- the lock of `b` is given to a call that waits for it -/
  | acquiresleep (b : Fin nbuf)
  /-- `b->valid = 1` in `bread` -/
  | fill (b : Fin nbuf)
  /-- `brelse` up to `releasesleep` -/
  | brelse (b : Fin nbuf)
  /-- the rest of `brelse` -/
  | unref (b : Fin nbuf)
  | bpin (b : Fin nbuf)
  | bunpin (b : Fin nbuf)

namespace State

/-- The lock and reference protocol: locks are given to those that wait, and only the
holder of a lock reads into the buffer, releases or pins it. -/
def Allowed (s : State) : Action → Prop
  | .bget _ _ => True
  | .acquiresleep b => 0 < s.waiting b ∧ s.locked b = false
  | .fill b => s.locked b = true ∧ (s.cache.buf b).valid = false
  | .brelse b => s.locked b = true
  | .unref b => 0 < s.releasing b
  | .bpin b => s.locked b = true
  | .bunpin b => 0 < s.pins b

def unref (s : State) (b : Fin nbuf) : State :=
  let s := { s with
    cache := s.cache.unref b, releasing := Function.update s.releasing b (s.releasing b - 1) }
  if (s.cache.buf b).refcnt = 0 then
    { s with released := Function.update s.released b (s.now + 1), now := s.now + 1 }
  else s

def step (s : State) : Action → Except Panic State
  | .bget dev blockno => do
      let (b, cache) ← s.cache.bget dev blockno
      pure { s with cache, waiting := Function.update s.waiting b (s.waiting b + 1) }
  | .acquiresleep b => pure { s with
      waiting := Function.update s.waiting b (s.waiting b - 1)
      locked := Function.update s.locked b true }
  | .fill b => pure { s with cache := s.cache.setBuf b { s.cache.buf b with valid := true } }
  | .brelse b =>
      if s.locked b = true then pure { s with
        locked := Function.update s.locked b false
        releasing := Function.update s.releasing b (s.releasing b + 1) }
      else throw .brelse
  | .unref b => pure (s.unref b)
  | .bpin b => pure { s with
      cache := s.cache.bpin b, pins := Function.update s.pins b (s.pins b + 1) }
  | .bunpin b => pure { s with
      cache := s.cache.bunpin b, pins := Function.update s.pins b (s.pins b - 1) }

instance (s : State) : (a : Action) → Decidable (s.Allowed a)
  | .bget _ _ => inferInstanceAs (Decidable True)
  | .acquiresleep _ => inferInstanceAs (Decidable (_ ∧ _))
  | .fill _ => inferInstanceAs (Decidable (_ ∧ _))
  | .brelse _ => inferInstanceAs (Decidable (_ = _))
  | .unref _ => inferInstanceAs (Decidable (_ < _))
  | .bpin _ => inferInstanceAs (Decidable (_ = _))
  | .bunpin _ => inferInstanceAs (Decidable (_ < _))

/-- `none` if an action is not allowed, or panics. -/
def run (s : State) : List Action → Option State
  | [] => some s
  | a :: as =>
      if s.Allowed a then
        match s.step a with
        | .ok s' => s'.run as
        | .error _ => none
      else none

end State

inductive Reachable : State → Prop
  | initial (links : Links Node) : Reachable (State.initial links)
  | step {s s' : State} (a : Action) (h : Reachable s) (ha : s.Allowed a)
      (hstep : s.step a = .ok s') : Reachable s'

theorem Reachable.run {s s' : State} (h : Reachable s) {as : List Action}
    (hrun : s.run as = some s') : Reachable s' := by
  induction as generalizing s with
  | nil =>
      cases hrun
      exact h
  | cons a as ih =>
      rw [State.run] at hrun
      split_ifs at hrun with ha
      split at hrun
      case h_1 s₁ hstep => exact ih (.step a h ha hstep) hrun
      case h_2 => cases hrun

end SyscallSched.Xv6.Bio
