import SyscallSched.Xv6.Fs.Crash
import SyscallSched.Xv6.Fs.View

/-!
# Processes that share the buffer cache

Processes run the functions of `fs.c` and `log.c` at the same time and take turns after
every operation on a buffer or the log.  The sleep lock of a buffer is held from `bread`
to `brelse`.  A process that waits for the lock of a buffer has not called `bget` yet,
and one that sleeps in `begin_op` has not called it yet.
-/

namespace SyscallSched.Xv6.Fs.Code.Sharing

open SyscallSched.Foundation SyscallSched.Xv6.Fs

def bwrite (b : Nat) : FsProg Unit := .op (BufOp.bwrite b)
def bunpin (b : Nat) : FsProg Unit := .op (BufOp.bunpin b)
def getLog : FsProg Log := .op BufOp.getLog
def clearLog : FsProg Unit := .op BufOp.clearLog
def beginOp : FsProg Bool := .op BufOp.beginOp
def endCommit : FsProg Unit := .op BufOp.endCommit

/-! ## Committing -/

def writeHead : FsProg Unit := do
  let log ← getLog
  let buf ← bread log.start
  store log.start (putHead log.lh buf)
  bwrite log.start
  brelse log.start

def writeLogFrom (start : Nat) : Nat → List Nat → FsProg Unit
  | _, [] => pure ()
  | tail, b :: bs => do
      let _ ← bread (start + tail + 1)
      let frm ← bread b
      store (start + tail + 1) frm
      bwrite (start + tail + 1)
      brelse b
      brelse (start + tail + 1)
      writeLogFrom start (tail + 1) bs

def writeLog : FsProg Unit := do
  let log ← getLog
  writeLogFrom log.start 0 log.lh

def installFrom (start : Nat) : Nat → List Nat → FsProg Unit
  | _, [] => pure ()
  | tail, b :: bs => do
      let lbuf ← bread (start + tail + 1)
      let _ ← bread b
      store b lbuf
      bwrite b
      bunpin b
      brelse (start + tail + 1)
      brelse b
      installFrom start (tail + 1) bs

def installTrans : FsProg Unit := do
  let log ← getLog
  installFrom log.start 0 log.lh

def commit : FsProg Unit := do
  let log ← getLog
  if 0 < log.lh.length then do
    writeLog
    writeHead
    installTrans
    clearLog
    writeHead
  else
    pure ()

def endOp : FsProg Unit := do
  let last ← (.op BufOp.endOp : FsProg Bool)
  if last then do
    commit
    endCommit
  else
    pure ()

/-! ## System calls -/

/-- Calls that also a process outside a transaction makes: `ilock` and `readi`. -/
inductive ReadCall where
  | ilock (inum : Nat)
  | readi (copyout : Nat → Nat → Bool) (ip : Inode) (dst off n : Nat)

abbrev ReadCall.Res : ReadCall → Type
  | ilock _ => Inode
  | readi _ _ _ _ _ => Inode × List Nat × Bool

/-- Calls that a process makes between `begin_op` and `end_op`. -/
inductive FsCall where
  | read (c : ReadCall)
  | balloc
  | bfree (b : Nat)
  | ialloc (type : Nat)
  | iupdate (ip : Inode)
  | bmap (ip : Inode) (bn : Nat)
  | itrunc (ip : Inode)
  | writei (ip : Inode) (src : Source) (off n : Nat)

abbrev FsCall.Res : FsCall → Type
  | read c => c.Res
  | balloc => Nat
  | bfree _ => Unit
  | ialloc _ => Nat
  | iupdate _ => Unit
  | bmap _ _ => Inode × Nat
  | itrunc _ => Inode
  | writei _ _ _ _ => Inode × Option Nat

variable (sb : Superblock)

def ReadCall.code : ∀ c : ReadCall, FsProg c.Res
  | ilock inum => Code.readInode sb inum
  | readi copyout ip dst off n => Code.readi sb copyout ip dst off n

def FsCall.code : ∀ c : FsCall, FsProg c.Res
  | read c => c.code sb
  | balloc => Code.balloc sb
  | bfree b => Code.bfree sb b
  | ialloc type => Code.ialloc sb type
  | iupdate ip => Code.iupdate sb ip
  | bmap ip bn => Code.bmap sb ip bn
  | itrunc ip => Code.itrunc sb ip
  | writei ip src off n => Code.writei sb ip src off n

/-- What a process does before it returns to user mode or begins the next transaction.
The calls depend on the results of earlier ones in any way, and so do the inodes
that are passed to them. -/
inductive Begins : FsProg Unit → Prop where
  | transaction (body : Program FsCall FsCall.Res Unit) :
      Begins (do
        let _ ← beginOp
        body.expand (FsCall.code sb)
        endOp)
  | reading (body : Program ReadCall ReadCall.Res Unit) :
      Begins (body.expand (ReadCall.code sb))

/-! ## Steps -/

structure System where
  store : Store
  /-- the process that holds the lock of the block's buffer -/
  holder : Nat → Option Nat

def System.Ready (s : System) (i : Nat) : BufOp → Prop
  | .bread b => s.holder b = none
  | .bwrite b => s.holder b = some i
  | .brelse b => s.holder b = some i
  | .beginOp => s.store.log.Admits
  | _ => True

def locksAfter (i : Nat) (holder : Nat → Option Nat) : BufOp → Nat → Option Nat
  | .bread b => Function.update holder b (some i)
  | .brelse b => Function.update holder b none
  | _ => holder

/-- In a run of the machine every operation meets `guard`.  The environment recycles
unused buffers. -/
def machine (guard : BufOp → Store → Prop) : Pool.Machine System Nat BufOp BufOp.Res where
  act i o s r s' := s.Ready i o ∧ guard o s.store ∧ exec o s.store = .ok (r, s'.store) ∧
    s'.holder = locksAfter i s.holder o
  env s s' := ∃ b, recycle b s.store = .ok ((), s'.store) ∧ s'.holder = s.holder
  start _ _ p := Begins sb p

/-- `fsinit` up to the first use of the file system: `readsb`, then `initlog`. -/
def fsinit : StoreM Unit := do
  let _ ← Fs.bread 1
  Fs.brelse 1
  recoverFromLog

def started (s : Store) : Pool System Nat BufOp BufOp.Res where
  shared := { store := s, holder := fun _ => none }
  threads := fun _ => .ret ()

/-- Every state that processes reach after the system came up on `disk`. -/
def Reaches (guard : BufOp → Store → Prop) (l : Log) (disk : Nat → Block) (s : System) : Prop :=
  ∃ s₀ c, fsinit (boot l disk) = .ok ((), s₀) ∧
    Pool.Reachable (machine sb guard) (started s₀) c ∧ c.shared = s

/-- A valid buffer that is neither locked nor in the current transaction has the contents
of the disk, and no recycling changes what a reader sees. -/
structure Coherent (s : System) : Prop where
  data : ∀ b buf, s.store.cache b = some buf → s.holder b = none → b ∉ s.store.log.lh →
    buf.data = s.store.disk b
  evict : ∀ b s', recycle b s.store = .ok ((), s') → s'.view = s.store.view

/-- A copy into a buffer that fails leaves the buffer as it was, or the block is in the
current transaction already. -/
def FailedCopiesKeep : BufOp → Store → Prop
  | .copyin b data false, s => data = s.view b ∨ b ∈ s.log.lh
  | _, _ => True

/-! ## Committing alone -/

section

variable {α β : Type}

theorem lift_bind (x : StoreM α) (f : α → StoreM β) :
    lift (x >>= f) = lift x >>= fun a => lift (f a) := by
  funext s
  change (x s >>= fun r => f r.1 r.2).mapError _ =
    ((x s).mapError _ >>= fun r => (f r.1 r.2).mapError _)
  cases x s with
  | error e => rfl
  | ok r => rfl

theorem run_getLog_bind (f : Log → FsProg α) (g : Store → StoreM α)
    (h : ∀ s, run (f s.log) s = lift (g s) s) : run (getLog >>= f) = lift (get >>= g) := by
  rw [Code.run_bind, lift_bind]
  funext s
  exact h s

theorem run_writeHead : run writeHead = lift Fs.writeHead := by
  apply run_getLog_bind
  intro s
  rfl

theorem run_writeLogFrom (start tail : Nat) (bs : List Nat) :
    run (writeLogFrom start tail bs) = lift (Fs.writeLogFrom start tail bs) := by
  induction bs generalizing tail with
  | nil => rfl
  | cons b bs ih =>
      simp only [writeLogFrom, Fs.writeLogFrom, Code.run_bind, lift_bind, ih]
      rfl

theorem run_installFrom (start tail : Nat) (bs : List Nat) :
    run (installFrom start tail bs) = lift (Fs.installFrom false start tail bs) := by
  induction bs generalizing tail with
  | nil => rfl
  | cons b bs ih =>
      simp only [installFrom, Fs.installFrom, Code.run_bind, lift_bind, ih]
      rfl

/-- Alone, the committer does what `commit` of the log does. -/
theorem run_commit : run commit = lift Fs.commit := by
  apply run_getLog_bind
  intro s
  by_cases hlh : 0 < s.log.lh.length
  · have hlog : run writeLog = lift Fs.writeLog :=
      run_getLog_bind _ _ fun t => by rw [run_writeLogFrom]
    have hinstall : run installTrans = lift (Fs.installTrans false) :=
      run_getLog_bind _ _ fun t => by rw [run_installFrom]
    rw [if_pos hlh, if_pos hlh]
    simp only [Code.run_bind, lift_bind, hlog, run_writeHead, hinstall]
    rfl
  · rw [if_neg hlh, if_neg hlh]
    rfl

end

end SyscallSched.Xv6.Fs.Code.Sharing
