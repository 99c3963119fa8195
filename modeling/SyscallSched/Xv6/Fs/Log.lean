import Mathlib.Logic.Function.Basic
import SyscallSched.Foundation.Digits
import SyscallSched.Foundation.Total

/-!
# The buffer cache and the log (`bio.c`, `log.c`)

There is one disk.  A block is 1024 bytes.  A buffer is named by the block it
holds; which unused buffer `bget` recycles is left open, and a buffer that is in
use is never recycled.  Functions here run while no other process holds one of
the buffers they lock.

`writes` is not kernel data: it records the blocks written to the disk, in order.
-/

namespace SyscallSched.Xv6.Fs

open SyscallSched.Foundation

def bsize : Nat := 1024
def maxOpBlocks : Nat := 10
def logSize : Nat := maxOpBlocks * 3

abbrev Block := Nat → Nat

namespace Block

def word (b : Block) (i : Nat) : Nat := getLE b (4 * i) 4

def setWord (b : Block) (i v : Nat) : Block := setLE b (4 * i) 4 v

theorem word_setWord_self (b : Block) {i v : Nat} (hv : v < 2 ^ 32) :
    (b.setWord i v).word i = v :=
  getLE_setLE_of_lt hv

theorem word_setWord_ne (b : Block) {i j : Nat} (v : Nat) (h : j ≠ i) :
    (b.setWord i v).word j = b.word j :=
  getLE_setLE_of_disjoint (by omega)

end Block

structure Buf where
  data : Block
  refcnt : Nat

structure Log where
  start : Nat
  size : Nat
  outstanding : Nat := 0
  committing : Bool := false
  /-- `lh.block[0 .. lh.n - 1]` -/
  lh : List Nat := []

structure Store where
  disk : Nat → Block
  cache : Nat → Option Buf
  log : Log
  writes : List (Nat × Block) := []

inductive FsPanic where
  | tooBigTransaction
  | logWriteOutsideTrans
  | logCommitting
  deriving DecidableEq, Repr

abbrev StoreM := StateT Store (Except FsPanic)

/-! ## Buffers -/

/-- What a reader of the block sees: its buffer, or the disk. -/
def Store.view (s : Store) (b : Nat) : Block :=
  match s.cache b with
  | some buf => buf.data
  | none => s.disk b

def Store.refcnt (s : Store) (b : Nat) : Nat :=
  match s.cache b with
  | some buf => buf.refcnt
  | none => 0

def Store.setBuf (s : Store) (b : Nat) (data : Block) (refcnt : Nat) : Store :=
  { s with cache := Function.update s.cache b (some { data, refcnt }) }

def bread (b : Nat) : StoreM Block := do
  let s ← get
  set (s.setBuf b (s.view b) (s.refcnt b + 1))
  pure (s.view b)

def setData (b : Nat) (data : Block) : StoreM Unit :=
  modify fun s => s.setBuf b data (s.refcnt b)

def bwrite (b : Nat) : StoreM Unit :=
  modify fun s =>
    { s with
      disk := Function.update s.disk b (s.view b)
      writes := s.writes ++ [(b, s.view b)] }

def brelse (b : Nat) : StoreM Unit :=
  modify fun s => s.setBuf b (s.view b) (s.refcnt b - 1)

def bpin (b : Nat) : StoreM Unit :=
  modify fun s => s.setBuf b (s.view b) (s.refcnt b + 1)

def bunpin (b : Nat) : StoreM Unit :=
  modify fun s => s.setBuf b (s.view b) (s.refcnt b - 1)

def recycle (b : Nat) : StoreM Unit :=
  modify fun s =>
    if s.refcnt b = 0 then { s with cache := Function.update s.cache b none } else s

/-! ## The log header -/

def setLog (f : Log → Log) : StoreM Unit := modify fun s => { s with log := f s.log }

/-- `for(...) hb->block[i] = log.lh.block[i];` -/
def putEntries : Nat → List Nat → Block → Block
  | _, [], blk => blk
  | i, b :: bs, blk => putEntries (i + 1) bs (blk.setWord (i + 1) b)

def putHead (lh : List Nat) (blk : Block) : Block :=
  putEntries 0 lh (blk.setWord 0 lh.length)

/-- The header in a block.  A negative `n` counts as none. -/
def headOf (blk : Block) : List Nat :=
  if blk.word 0 < 2 ^ 31 then
    (List.range (blk.word 0)).map fun i => blk.word (i + 1)
  else
    []

def readHead : StoreM Unit := do
  let s ← get
  let buf ← bread s.log.start
  setLog fun l => { l with lh := headOf buf }
  brelse s.log.start

def writeHead : StoreM Unit := do
  let s ← get
  let buf ← bread s.log.start
  setData s.log.start (putHead s.log.lh buf)
  bwrite s.log.start
  brelse s.log.start

/-! ## Committing and recovering -/

/-- `if(recovering == 0) bunpin(b);` -/
def bunpinUnless (recovering : Bool) (b : Nat) : StoreM Unit :=
  if recovering then pure () else bunpin b

/-- The loop of `install_trans` from `tail` on. -/
def installFrom (recovering : Bool) (start : Nat) : Nat → List Nat → StoreM Unit
  | _, [] => pure ()
  | tail, b :: bs => do
      let lbuf ← bread (start + tail + 1)
      let _ ← bread b
      setData b lbuf
      bwrite b
      bunpinUnless recovering b
      brelse (start + tail + 1)
      brelse b
      installFrom recovering start (tail + 1) bs

def installTrans (recovering : Bool) : StoreM Unit := do
  let s ← get
  installFrom recovering s.log.start 0 s.log.lh

def recoverFromLog : StoreM Unit := do
  readHead
  installTrans true
  setLog fun l => { l with lh := [] }
  writeHead

/-- The loop of `write_log` from `tail` on. -/
def writeLogFrom (start : Nat) : Nat → List Nat → StoreM Unit
  | _, [] => pure ()
  | tail, b :: bs => do
      let _ ← bread (start + tail + 1)
      let frm ← bread b
      setData (start + tail + 1) frm
      bwrite (start + tail + 1)
      brelse b
      brelse (start + tail + 1)
      writeLogFrom start (tail + 1) bs

def writeLog : StoreM Unit := do
  let s ← get
  writeLogFrom s.log.start 0 s.log.lh

def commit : StoreM Unit := do
  let s ← get
  if 0 < s.log.lh.length then do
    writeLog
    writeHead
    installTrans false
    setLog fun l => { l with lh := [] }
    writeHead
  else
    pure ()

/-! ## Operations -/

/-- One turn of the loop of `begin_op`: `false` when the caller goes to sleep. -/
def beginOp : StoreM Bool := do
  let s ← get
  if s.log.committing then
    pure false
  else if logSize < s.log.lh.length + (s.log.outstanding + 1) * maxOpBlocks then
    pure false
  else do
    setLog fun l => { l with outstanding := l.outstanding + 1 }
    pure true

/-- `end_op` up to the commit: whether the caller commits. -/
def endOp : StoreM Bool := do
  setLog fun l => { l with outstanding := l.outstanding - 1 }
  let s ← get
  if s.log.committing then
    throw .logCommitting
  else if s.log.outstanding = 0 then do
    setLog fun l => { l with committing := true }
    pure true
  else
    pure false

def endCommit : StoreM Unit := do
  commit
  setLog fun l => { l with committing := false }

def logWrite (b : Nat) : StoreM Unit := do
  let s ← get
  if logSize ≤ s.log.lh.length ∨ s.log.size - 1 ≤ s.log.lh.length then
    throw .tooBigTransaction
  else if s.log.outstanding < 1 then
    throw .logWriteOutsideTrans
  else if b ∈ s.log.lh then
    pure ()
  else do
    bpin b
    setLog fun l => { l with lh := l.lh ++ [b] }

/-! ## How the operations run -/

section

variable {s : Store} {b : Nat}

theorem get_run : (get : StoreM Store) s = .ok (s, s) := rfl

/-- `begin_op` admits another operation. -/
def Log.Admits (l : Log) : Prop :=
  l.committing = false ∧ l.lh.length + (l.outstanding + 1) * maxOpBlocks ≤ logSize

instance (l : Log) : Decidable l.Admits := inferInstanceAs (Decidable (_ ∧ _))

theorem beginOp_run : beginOp s = .ok (
    if s.log.Admits then
      (true, { s with log := { s.log with outstanding := s.log.outstanding + 1 } })
    else
      (false, s)) := by
  rw [beginOp, Total.run_bind get_run]
  by_cases hc : s.log.committing
  · rw [if_pos hc, if_neg fun h => by simp [h.1] at hc]
    rfl
  · rw [if_neg hc]
    by_cases hroom : logSize < s.log.lh.length + (s.log.outstanding + 1) * maxOpBlocks
    · rw [if_pos hroom, if_neg fun h => Nat.not_lt.mpr h.2 hroom]
      rfl
    · rw [if_neg hroom, if_pos ⟨by simpa using hc, Nat.not_lt.mp hroom⟩]
      rfl

theorem endOp_run (h : s.log.committing = false) : endOp s = .ok (
    if s.log.outstanding - 1 = 0 then
      (true, { s with log := { s.log with outstanding := 0, committing := true } })
    else
      (false, { s with log := { s.log with outstanding := s.log.outstanding - 1 } })) := by
  have hlast : endOp s =
      (if s.log.committing then throw .logCommitting
      else if s.log.outstanding - 1 = 0 then do
        setLog fun l => { l with committing := true }
        pure true
      else pure false : StoreM Bool)
        { s with log := { s.log with outstanding := s.log.outstanding - 1 } } := rfl
  rw [hlast, if_neg (by simp [h])]
  by_cases hzero : s.log.outstanding - 1 = 0
  · rw [if_pos hzero, if_pos hzero, hzero]
    rfl
  · rw [if_neg hzero, if_neg hzero]
    rfl

/-- `log_write` takes the log to be full. -/
def Log.Full (l : Log) : Prop := logSize ≤ l.lh.length ∨ l.size - 1 ≤ l.lh.length

theorem logWrite_full (h : s.log.Full) : logWrite b s = .error .tooBigTransaction := by
  rw [Log.Full] at h
  rw [logWrite, Total.run_bind get_run, if_pos h]
  rfl

theorem logWrite_outside (h : ¬ s.log.Full) (ho : s.log.outstanding = 0) :
    logWrite b s = .error .logWriteOutsideTrans := by
  rw [Log.Full] at h
  rw [logWrite, Total.run_bind get_run, if_neg h, if_pos (by omega)]
  rfl

theorem logWrite_run (h : ¬ s.log.Full) (ho : 0 < s.log.outstanding) : logWrite b s = .ok ((),
    if b ∈ s.log.lh then s
    else { s.setBuf b (s.view b) (s.refcnt b + 1) with
      log := { s.log with lh := s.log.lh ++ [b] } }) := by
  rw [Log.Full] at h
  rw [logWrite, Total.run_bind get_run, if_neg h, if_neg (by omega)]
  by_cases hb : b ∈ s.log.lh
  · rw [if_pos hb, if_pos hb]
    rfl
  · rw [if_neg hb, if_neg hb]
    rfl

theorem logWrite_ok {s' : Store} (h : logWrite b s = .ok ((), s')) :
    ¬ s.log.Full ∧ 0 < s.log.outstanding := by
  by_cases hfull : s.log.Full
  · rw [logWrite_full hfull] at h
    cases h
  by_cases ho : s.log.outstanding = 0
  · rw [logWrite_outside hfull ho] at h
    cases h
  exact ⟨hfull, Nat.pos_of_ne_zero ho⟩

end

end SyscallSched.Xv6.Fs
