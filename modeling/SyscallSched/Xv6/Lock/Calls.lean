import SyscallSched.Xv6.Family.Model
import SyscallSched.Xv6.Lock.Spinlock

/-!
# The process calls with their locks (`proc.c`)

The functions of `Proc.lean` again, with the spinlocks that they take and give
back.  A function of `vm.c` takes `kmem.lock` in each of its calls of `kalloc`
and `kfree` and has it free between them; `mem` takes the lock once, around the
whole function.
-/

namespace SyscallSched.Xv6.Lock

open SyscallSched.Foundation

def withLock {α : Type} (l : Name) (x : LockM α) : LockM α := do
  acquire l
  let a ← x
  release l
  pure a

def myproc : LockM Unit := do
  pushOff
  popOff

/-- What `x` allocates and frees, under one `kmem.lock`. -/
def mem {α : Type} (x : MemM α) : LockM α := withLock .kmem (inKernel (inMem x))

def allocpid : LockM Nat := withLock .pid (inKernel Xv6.allocpid)

def findUnused : List Nat → LockM (Option Nat)
  | [] => pure none
  | p :: ps => do
      acquire (.proc p)
      let q ← inKernel (getProc p)
      if q.state = .unused then
        pure (some p)
      else do
        release (.proc p)
        findUnused ps

/-! ## Scheduling -/

def sched (p : Nat) : LockM Unit := do
  let m ← get
  if m.cpu.held (.proc p) = false then
    throw .schedPLock
  else if m.cpu.noff ≠ 1 then
    throw .schedLocks
  else if (m.kernel.proc p).state = .running then
    throw .schedRunning
  else if m.cpu.intr then
    throw .schedInterruptible
  else
    pure ()

def yield (p : Nat) : LockM Unit := do
  myproc
  acquire (.proc p)
  inKernel (setProc p fun q => { q with state := .runnable })
  sched p
  release (.proc p)

/-- `sleep(p, &wait_lock)`, and the scheduler's `release` after the switch. -/
def sleep (p : Nat) : LockM Unit := do
  myproc
  acquire (.proc p)
  release .wait
  inKernel (setProc p fun q => { q with chan := some (.proc p), state := .sleeping })
  sched p
  release (.proc p)

/-! ## `kill`, `setkilled`, `killed` -/

def killFrom (pid : Int) : List Nat → LockM Int
  | [] => pure (-1)
  | p :: ps => do
      acquire (.proc p)
      let q ← inKernel (getProc p)
      if (q.pid : Int) = pid then do
        inKernel (setProc p fun q =>
          { q with
            killed := true
            state := if q.state = .sleeping then .runnable else q.state })
        release (.proc p)
        pure 0
      else do
        release (.proc p)
        killFrom pid ps

def kill (pid : Int) : LockM Int := killFrom pid (List.range nproc)

def setkilled (p : Nat) : LockM Unit := withLock (.proc p) (inKernel (Xv6.setkilled p))

def killed (p : Nat) : LockM Bool := withLock (.proc p) (inKernel (Xv6.killed p))

variable [Image]

/-! ## Creating and freeing -/

def freeproc (p : Nat) : LockM Unit := do
  let q ← inKernel (getProc p)
  mem (when (q.trapframe ≠ 0) (kfree q.trapframe))
  mem (when (q.pagetable ≠ 0) (procFreepagetable q.pagetable q.sz))
  inKernel (setProc p Proc.reset)

def allocproc : LockM (Option Nat) := do
  match ← findUnused (List.range nproc) with
  | none => pure none
  | some p => do
      let pid ← allocpid
      inKernel (setProc p fun q => { q with pid := pid, state := .used })
      match ← mem kalloc with
      | none => do
          inKernel (setProc p fun q => { q with trapframe := 0 })
          freeproc p
          release (.proc p)
          pure none
      | some trapframe => do
          inKernel (setProc p fun q => { q with trapframe := trapframe })
          match ← mem (procPagetable trapframe) with
          | none => do
              inKernel (setProc p fun q => { q with pagetable := 0 })
              freeproc p
              release (.proc p)
              pure none
          | some pagetable => do
              inKernel (setProc p fun q =>
                { q with
                  pagetable := pagetable
                  context := { ra := Image.forkret, sp := kstack p + pgSize } })
              pure (some p)

def growproc (p : Nat) (n : Int) : LockM Int := do
  myproc
  let q ← inKernel (getProc p)
  let newsz := ((q.sz + n) % 2 ^ 64).toNat
  if 0 < n then do
    let sz ← mem (uvmalloc q.pagetable q.sz newsz pteW)
    if sz = 0 then
      pure (-1)
    else do
      inKernel (setProc p fun q => { q with sz := sz })
      pure 0
  else if n < 0 then do
    let sz ← mem (uvmdealloc q.pagetable q.sz newsz)
    inKernel (setProc p fun q => { q with sz := sz })
    pure 0
  else
    pure 0

/-! ## `fork` and `sfork` -/

def dupFiles (p np : Nat) (fds : List Nat) : LockM Unit :=
  forM fds fun i => do
    let q ← inKernel (getProc p)
    match q.ofile i with
    | none => pure ()
    | some f => do
        let g ← withLock .ftable (inKernel (filedup f))
        inKernel (setProc np fun q =>
          { q with ofile := fun j => if j = i then some g else q.ofile j })

def publish (p np : Nat) : LockM Unit := do
  release (.proc np)
  acquire .wait
  inKernel (forkAdopt p np)
  release .wait
  acquire (.proc np)
  inKernel (forkStart np)
  release (.proc np)

def fork (p : Nat) : LockM Int := do
  myproc
  match ← allocproc with
  | none => pure (-1)
  | some np => do
      let q ← inKernel (getProc p)
      let nq ← inKernel (getProc np)
      let copied ← mem (uvmcopy q.pagetable nq.pagetable q.sz)
      if copied then do
        inKernel (setProc np fun nq => { nq with sz := q.sz })
        inKernel (inMem (copyTrapframe nq.trapframe q.trapframe))
        inKernel (inMem (store nq.trapframe tfA0 0))
        dupFiles p np (List.range nofile)
        let cwd ← withLock .itable (inKernel (dupCwd q.cwd))
        inKernel (setProc np fun nq => { nq with cwd := cwd, name := safestrcpy q.name })
        publish p np
        pure nq.pid
      else do
        freeproc np
        release (.proc np)
        pure (-1)

def sfork (me : Nat) : LockM Int := do
  match ← allocproc with
  | none => pure (-1)
  | some p => do
      myproc
      let q ← inKernel (getProc me)
      inKernel (setProc p fun np =>
        { np with
          sz := q.sz, pagetable := q.pagetable, parent := some me, state := .runnable
          context := q.context })
      let np ← inKernel (getProc p)
      pure np.pid

/-! ## `wait` -/

def findZombie (p : Nat) (havekids : Bool) : List Nat → LockM (Option Nat × Bool)
  | [] => pure (none, havekids)
  | pp :: pps => do
      let q ← inKernel (getProc pp)
      if q.parent = some p then do
        acquire (.proc pp)
        let q ← inKernel (getProc pp)
        if q.state = .zombie then
          pure (some pp, true)
        else do
          release (.proc pp)
          findZombie p true pps
      else
        findZombie p havekids pps

/-- The end of `sleep`, for a caller that has been woken.  At the start of
`wait`, `chan` is null. -/
def wake (woken : Bool) (p : Nat) : LockM Unit :=
  if woken then withLock (.proc p) (inKernel (setProc p fun q => { q with chan := none }))
  else inKernel (setProc p fun q => { q with chan := none })

def reportStatus (pagetable addr : Nat) (xstate : Int) : LockM Bool :=
  if addr = 0 then pure true else mem (copyout pagetable addr (intBytes xstate))

/-- `!havekids || killed(p)` -/
def noPoint (p : Nat) (havekids : Bool) : LockM Bool :=
  if havekids then killed p else pure true

/-- One turn of the loop of `wait`, up to the next `sleep`. -/
def wait (woken : Bool) (p addr : Nat) : LockM (Option Int) := do
  myproc
  wake woken p
  acquire .wait
  match ← findZombie p false (List.range nproc) with
  | (some pp, _) => do
      let q ← inKernel (getProc p)
      let z ← inKernel (getProc pp)
      let copied ← reportStatus q.pagetable addr z.xstate
      if copied then do
        freeproc pp
        release (.proc pp)
        release .wait
        pure (some (z.pid : Int))
      else do
        release (.proc pp)
        release .wait
        pure (some (-1))
  | (none, havekids) => do
      let dead ← noPoint p havekids
      if dead then do
        release .wait
        pure (some (-1))
      else do
        sleep p
        pure none

end SyscallSched.Xv6.Lock
