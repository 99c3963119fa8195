import Mathlib.Data.Fintype.Basic
import SyscallSched.Foundation.Ring

/-!
# The disk driver (`virtio_disk.c`)

Any number of processes call `virtio_disk_rw`, and the interrupt comes at any time.  Both
hold `disk.vdisk_lock` but for the two calls of `sleep`; a process that sleeps may wake up
whenever the lock is free.  The device acts at any time: it takes heads from the avail
ring, works on what it took in any order, and puts them on the used ring in any order.

A step is a piece of the code after which another party could notice a difference.  A
step that is not possible leaves the state as it is.  A caller holds the sleep-lock of its
buffer, so no two calls are for one buffer.  `virtio_disk_init` is not modelled but for the
values it leaves behind.
-/

namespace SyscallSched.Xv6.Virtio

open SyscallSched.Foundation

def num : Nat := 8

def descFNext : UInt16 := 1

def descFWrite : UInt16 := 2

variable {P B : Type}

/-- The addresses the driver gives to the device. -/
inductive Addr (B : Type) where
  | null
  /-- `&disk.ops[i]` -/
  | op (i : Nat)
  /-- `b->data` -/
  | data (b : B)
  /-- `&disk.info[i].status` -/
  | status (i : Nat)

structure Desc (B : Type) where
  addr : Addr B
  len : UInt32
  flags : UInt16
  next : UInt16

structure Avail where
  idx : UInt16
  ring : Nat → UInt16

/-- The used ring, with the field `id` of its entries. -/
structure Used where
  idx : UInt16
  ring : Nat → UInt32

structure Info (B : Type) where
  b : Option B
  status : UInt8

structure Op where
  type : UInt32
  reserved : UInt32
  sector : UInt64

structure Disk (B : Type) where
  desc : Nat → Desc B
  avail : Avail
  used : Used
  free : Nat → Bool
  usedIdx : UInt16
  info : Nat → Info B
  ops : Nat → Op

inductive Panic where
  /-- `free_desc 1` -/
  | freeDesc1
  /-- `free_desc 2` -/
  | freeDesc2
  /-- `virtio_disk_intr status` -/
  | status
  /-- not a panic of the kernel: `b->disk = 0` with a null `b` -/
  | nullBuffer
  /-- not a panic of the kernel: `free_chain` does not end -/
  | endless
  deriving DecidableEq

structure Idx where
  i0 : Nat
  i1 : Nat
  i2 : Nat
  deriving DecidableEq

def Idx.toList (idx : Idx) : List Nat := [idx.i0, idx.i1, idx.i2]

/-- The arguments of `virtio_disk_rw`. -/
structure Request (B : Type) where
  buf : B
  blockno : UInt32
  write : Bool
  deriving DecidableEq

namespace Disk

def setDesc (d : Disk B) (i : Nat) (v : Desc B) : Disk B :=
  { d with desc := Function.update d.desc i v }

def setInfo (d : Disk B) (i : Nat) (v : Info B) : Disk B :=
  { d with info := Function.update d.info i v }

def allocDesc (d : Disk B) : Option Nat × Disk B :=
  match (List.range num).find? d.free with
  | some i => (some i, { d with free := Function.update d.free i false })
  | none => (none, d)

def freeDesc (d : Disk B) (i : Nat) : Except Panic (Disk B) :=
  if num ≤ i then throw .freeDesc1
  else if d.free i = true then throw .freeDesc2
  else
    let d := d.setDesc i { addr := .null, len := 0, flags := 0, next := 0 }
    pure { d with free := Function.update d.free i true }

def freeLoop : Nat → Disk B → Nat → Except Panic (Disk B)
  | 0, _, _ => throw .endless
  | fuel + 1, d, i => do
      let flag := (d.desc i).flags
      let nxt := (d.desc i).next
      let d ← d.freeDesc i
      if flag &&& descFNext ≠ 0 then freeLoop fuel d nxt.toNat
      else pure d

def freeChain (d : Disk B) (i : Nat) : Except Panic (Disk B) := d.freeLoop (num + 1) i

/-- `alloc3_desc`, its loop written out, with `none` for -1. -/
def alloc3Desc (d : Disk B) : Except Panic (Option Idx × Disk B) :=
  match d.allocDesc with
  | (none, d) => pure (none, d)
  | (some i0, d) =>
      match d.allocDesc with
      | (none, d) => do
          let d ← d.freeDesc i0
          pure (none, d)
      | (some i1, d) =>
          match d.allocDesc with
          | (none, d) => do
              let d ← d.freeDesc i0
              let d ← d.freeDesc i1
              pure (none, d)
          | (some i2, d) => pure (some ⟨i0, i1, i2⟩, d)

/-- `virtio_disk_rw` from `buf0` to `disk.info[idx[0]].b = b`. -/
def format (d : Disk B) (r : Request B) (idx : Idx) : Disk B :=
  let op : Op :=
    { type := if r.write then 1 else 0, reserved := 0, sector := (r.blockno * 2).toUInt64 }
  let d := { d with ops := Function.update d.ops idx.i0 op }
  let d := d.setDesc idx.i0
    { addr := .op idx.i0, len := 16, flags := descFNext, next := .ofNat idx.i1 }
  let d := d.setDesc idx.i1
    { addr := .data r.buf, len := 1024, flags := (if r.write then 0 else descFWrite) ||| descFNext,
      next := .ofNat idx.i2 }
  let d := d.setInfo idx.i0 { d.info idx.i0 with status := 0xff }
  let d := d.setDesc idx.i2 { addr := .status idx.i0, len := 1, flags := descFWrite, next := 0 }
  d.setInfo idx.i0 { d.info idx.i0 with b := some r.buf }

def enter (d : Disk B) (i : Nat) : Disk B :=
  let ring := Function.update d.avail.ring (d.avail.idx.toNat % num) (.ofNat i)
  { d with avail := { d.avail with ring } }

def publish (d : Disk B) : Disk B := { d with avail := { d.avail with idx := d.avail.idx + 1 } }

def second (d : Disk B) (i : Nat) : Desc B := d.desc (d.desc i).next.toNat

def third (d : Disk B) (i : Nat) : Desc B := d.desc (d.second i).next.toNat

def writeStatus (d : Disk B) (i : Nat) : Disk B :=
  match (d.third i).addr with
  | .status j => d.setInfo j { d.info j with status := 0 }
  | _ => d

def putUsed (d : Disk B) (i : Nat) : Disk B :=
  let ring := Function.update d.used.ring (d.used.idx.toNat % num) (.ofNat i)
  { d with used := { idx := d.used.idx + 1, ring } }

end Disk

inductive Proc (B : Type) where
  /-- not in a call -/
  | idle
  /-- before `acquire`, or asleep on `&disk.free[0]` -/
  | allocating (r : Request B)
  /-- `alloc3_desc` has succeeded -/
  | allocated (r : Request B) (idx : Idx)
  /-- before the store to the avail ring -/
  | formatted (r : Request B) (idx : Idx)
  /-- before `disk.avail->idx += 1` -/
  | entered (r : Request B) (idx : Idx)
  /-- before the first test of `b->disk` -/
  | published (r : Request B) (idx : Idx)
  /-- asleep on `b` -/
  | waiting (r : Request B) (idx : Idx)
  deriving DecidableEq

def Proc.buf : Proc B → Option B
  | .idle => none
  | .allocating r => some r.buf
  | .allocated r _ => some r.buf
  | .formatted r _ => some r.buf
  | .entered r _ => some r.buf
  | .published r _ => some r.buf
  | .waiting r _ => some r.buf

inductive Holder (P : Type) where
  | process (p : P)
  | intr
  deriving DecidableEq

inductive Kind where
  /-- the driver has told the device of it -/
  | published
  /-- the device has put it on the used ring -/
  | completed
  /-- `b->disk = 0` in `virtio_disk_intr` -/
  | cleared
  /-- `virtio_disk_rw` returns -/
  | returned
  deriving DecidableEq

structure Event (B : Type) where
  kind : Kind
  buf : B
  deriving DecidableEq

structure State (P B : Type) where
  disk : Disk B
  /-- `b->disk` of the buffers -/
  bufDisk : B → Bool
  lock : Option (Holder P)
  proc : P → Proc B
  /-- the device: the index of the next entry to take from the avail ring -/
  lastAvail : UInt16
  /-- the device: the heads it has taken -/
  fetched : List Nat
  /-- the device: the heads of the requests that are done and not on the used ring yet -/
  finished : List Nat
  /-- not data of the kernel or the device: what happened to requests, in order -/
  history : List (Event B)

namespace State

/-- The state after `virtio_disk_init`. -/
def initial : State P B where
  disk :=
    { desc := fun _ => { addr := .null, len := 0, flags := 0, next := 0 }
      avail := { idx := 0, ring := fun _ => 0 }
      used := { idx := 0, ring := fun _ => 0 }
      free := fun _ => true
      usedIdx := 0
      info := fun _ => { b := none, status := 0 }
      ops := fun _ => { type := 0, reserved := 0, sector := 0 } }
  bufDisk := fun _ => false
  lock := none
  proc := fun _ => .idle
  lastAvail := 0
  fetched := []
  finished := []
  history := []

def record (s : State P B) (kind : Kind) (b : B) : State P B :=
  { s with history := s.history ++ [⟨kind, b⟩] }

section

variable [DecidableEq P]

def goto (s : State P B) (p : P) (proc : Proc B) : State P B :=
  { s with proc := Function.update s.proc p proc }

/-! ### `virtio_disk_rw` -/

/-- Once round the first loop, from `acquire` or from the end of `sleep` on. -/
def alloc (s : State P B) (p : P) : Except Panic (State P B) :=
  match s.lock, s.proc p with
  | none, .allocating r => do
      let (idx, disk) ← s.disk.alloc3Desc
      match idx with
      | some idx => pure ({ s with disk, lock := some (.process p) }.goto p (.allocated r idx))
      | none => pure { s with disk }
  | _, _ => pure s

def format [DecidableEq B] (s : State P B) (p : P) : State P B :=
  match s.proc p with
  | .allocated r idx =>
      { s with disk := s.disk.format r idx, bufDisk := Function.update s.bufDisk r.buf true }.goto p
        (.formatted r idx)
  | _ => s

def enter (s : State P B) (p : P) : State P B :=
  match s.proc p with
  | .formatted r idx => { s with disk := s.disk.enter idx.i0 }.goto p (.entered r idx)
  | _ => s

def publish (s : State P B) (p : P) : State P B :=
  match s.proc p with
  | .entered r idx =>
      ({ s with disk := s.disk.publish }.goto p (.published r idx)).record .published r.buf
  | _ => s

/-- The test of the second loop and what follows. -/
def test (s : State P B) (p : P) (r : Request B) (idx : Idx) : Except Panic (State P B) :=
  if s.bufDisk r.buf = true then pure ({ s with lock := none }.goto p (.waiting r idx))
  else do
    let disk := s.disk.setInfo idx.i0 { s.disk.info idx.i0 with b := none }
    let disk ← disk.freeChain idx.i0
    pure (({ s with disk, lock := none }.goto p .idle).record .returned r.buf)

def await (s : State P B) (p : P) : Except Panic (State P B) :=
  match s.proc p with
  | .published r idx => s.test p r idx
  | .waiting r idx => if s.lock = none then s.test p r idx else pure s
  | _ => pure s

/-! ### `virtio_disk_intr` -/

def intr (s : State P B) : State P B :=
  if s.lock = none then { s with lock := some .intr } else s

def intrNext [DecidableEq B] (s : State P B) : Except Panic (State P B) :=
  if s.lock = some .intr then
    if s.disk.usedIdx ≠ s.disk.used.idx then
      let id := (s.disk.used.ring (s.disk.usedIdx.toNat % num)).toNat
      if (s.disk.info id).status ≠ 0 then throw .status
      else
        match (s.disk.info id).b with
        | none => throw .nullBuffer
        | some b => pure ({ s with
            bufDisk := Function.update s.bufDisk b false
            disk := { s.disk with usedIdx := s.disk.usedIdx + 1 } }.record .cleared b)
    else pure { s with lock := none }
  else pure s

/-- `virtio_disk_intr` from the lock on, when nothing happens in between. -/
def intrLoop [DecidableEq B] : Nat → State P B → Except Panic (State P B)
  | 0, s => pure s
  | n + 1, s => do
      let s ← s.intrNext
      if s.lock = some .intr then intrLoop n s else pure s

end

/-! ### The device -/

/-- The device takes the next head from the avail ring. -/
def fetch (s : State P B) : State P B :=
  if s.lastAvail ≠ s.disk.avail.idx then
    { s with
      lastAvail := s.lastAvail + 1
      fetched := s.fetched ++ [(s.disk.avail.ring (s.lastAvail.toNat % num)).toNat] }
  else s

/-- The device finishes one of the requests it has taken. -/
def finish (s : State P B) (k : Nat) : State P B :=
  match s.fetched[k]? with
  | some i =>
      { s with
        disk := s.disk.writeStatus i
        fetched := s.fetched.eraseIdx k
        finished := s.finished ++ [i] }
  | none => s

/-- The device puts one of the finished requests on the used ring.  The buffer of the
request is the one that its second descriptor points to. -/
def complete (s : State P B) (k : Nat) : State P B :=
  match s.finished[k]? with
  | some i =>
      let s' := { s with disk := s.disk.putUsed i, finished := s.finished.eraseIdx k }
      match (s.disk.second i).addr with
      | .data b => s'.record .completed b
      | _ => s'
  | none => s

end State

inductive Action (P B : Type) where
  /-- `virtio_disk_rw` is called -/
  | call (p : P) (r : Request B)
  | alloc (p : P)
  | format (p : P)
  | enter (p : P)
  | publish (p : P)
  | await (p : P)
  | intr
  | intrNext
  | fetch
  | finish (k : Nat)
  | complete (k : Nat)

namespace State

/-- A process that is not in a call may call with a buffer that it has locked. -/
def Allowed (s : State P B) : Action P B → Prop
  | .call p r => s.proc p = .idle ∧ ∀ q, (s.proc q).buf ≠ some r.buf
  | _ => True

def step [DecidableEq P] [DecidableEq B] (s : State P B) : Action P B → Except Panic (State P B)
  | .call p r => pure (s.goto p (.allocating r))
  | .alloc p => s.alloc p
  | .format p => pure (s.format p)
  | .enter p => pure (s.enter p)
  | .publish p => pure (s.publish p)
  | .await p => s.await p
  | .intr => pure s.intr
  | .intrNext => s.intrNext
  | .fetch => pure s.fetch
  | .finish k => pure (s.finish k)
  | .complete k => pure (s.complete k)

instance [Fintype P] [DecidableEq B] (s : State P B) : (a : Action P B) → Decidable (s.Allowed a)
  | .call p r =>
      inferInstanceAs (Decidable (s.proc p = .idle ∧ ∀ q, (s.proc q).buf ≠ some r.buf))
  | .alloc _ | .format _ | .enter _ | .publish _ | .await _ | .intr | .intrNext | .fetch
  | .finish _ | .complete _ => inferInstanceAs (Decidable True)

/-- `none` if an action is not allowed, or panics. -/
def run [DecidableEq P] [Fintype P] [DecidableEq B] (s : State P B) :
    List (Action P B) → Option (State P B)
  | [] => some s
  | a :: as =>
      if s.Allowed a then
        match s.step a with
        | .ok s' => s'.run as
        | .error _ => none
      else none

end State

inductive Reachable [DecidableEq P] [DecidableEq B] : State P B → Prop
  | initial : Reachable State.initial
  | step {s s' : State P B} (a : Action P B) (h : Reachable s) (ha : s.Allowed a)
      (hstep : s.step a = .ok s') : Reachable s'

theorem Reachable.run [DecidableEq P] [Fintype P] [DecidableEq B] {s s' : State P B}
    (h : Reachable s) {as : List (Action P B)} (hrun : s.run as = some s') : Reachable s' := by
  induction as generalizing s with
  | nil =>
      cases hrun
      exact h
  | cons a as ih =>
      rw [State.run] at hrun
      split_ifs at hrun with ha
      split at hrun
      case h_1 s₁ hstep => exact ih (.step a h ha hstep) hrun
      case h_2 => cases hrun

end SyscallSched.Xv6.Virtio
