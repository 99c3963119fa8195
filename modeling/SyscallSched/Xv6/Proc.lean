import SyscallSched.Xv6.Exec
import SyscallSched.Xv6.Memory

/-!
# Processes and their system calls (`proc.c`, `file.c`, `pipe.c`)

A system call runs to its end, or to the point where it sleeps, before the next
one starts.  A `struct proc *` is a slot of the process table, a `struct file *`
a slot of the file table and a `struct inode *` a slot of the inode table.
-/

namespace SyscallSched.Xv6

def nproc : Nat := 64
def nofile : Nat := 16

inductive ProcState where
  | unused
  | used
  | sleeping
  | runnable
  | running
  | zombie
  deriving DecidableEq, Repr

/-- Saved registers for kernel context switches. -/
structure Context where
  ra : Nat := 0
  sp : Nat := 0
  s0 : Nat := 0
  s1 : Nat := 0
  s2 : Nat := 0
  s3 : Nat := 0
  s4 : Nat := 0
  s5 : Nat := 0
  s6 : Nat := 0
  s7 : Nat := 0
  s8 : Nat := 0
  s9 : Nat := 0
  s10 : Nat := 0
  s11 : Nat := 0
  deriving DecidableEq, Repr

/-- What a process can sleep on: a process, or the reading or writing end of a pipe. -/
inductive Chan where
  | proc (p : Nat)
  | nread (pi : Nat)
  | nwrite (pi : Nat)
  deriving DecidableEq, Repr

structure Proc where
  state : ProcState := .unused
  chan : Option Chan := none
  killed : Bool := false
  xstate : Int := 0
  pid : Nat := 0
  parent : Option Nat := none
  sz : Nat := 0
  pagetable : Nat := 0
  trapframe : Nat := 0
  context : Context := {}
  ofile : Nat → Option Nat := fun _ => none
  cwd : Option Nat := none
  name : List Nat := []

inductive FileType where
  | none
  | pipe
  | inode
  | device
  deriving DecidableEq, Repr

structure File where
  type : FileType := .none
  ref : Nat := 0
  readable : Bool := false
  writable : Bool := false
  pipe : Nat := 0
  ip : Nat := 0
  off : Nat := 0
  major : Int := 0

structure Pipe where
  readopen : Bool := false
  writeopen : Bool := false

structure Kernel where
  mem : Mem
  proc : Nat → Proc
  nextpid : Nat
  initproc : Option Nat
  file : Nat → File
  pipe : Nat → Pipe
  inodeRef : Nat → Nat
  /-- file system operations between `begin_op` and `end_op` -/
  outstanding : Nat

abbrev KernelM := StateT Kernel (Except Panic)

/-- `KSTACK(p)`, which `procinit` stores in every slot. -/
def kstack (p : Nat) : Nat := trampolineVa - (p + 1) * 2 * pgSize

def Kernel.mapProc (k : Kernel) (f : Nat → Proc → Proc) : Kernel :=
  { k with proc := fun p => f p (k.proc p) }

def Kernel.setProc (k : Kernel) (p : Nat) (f : Proc → Proc) : Kernel :=
  k.mapProc fun i q => if i = p then f q else q

def inMem {α : Type} (x : MemM α) : KernelM α := fun k =>
  match x k.mem with
  | .error e => .error e
  | .ok (a, mem) => .ok (a, { k with mem })

def getProc (p : Nat) : KernelM Proc := do
  pure ((← get).proc p)

def setProc (p : Nat) (f : Proc → Proc) : KernelM Unit :=
  modify fun k => k.setProc p f

/-! ## Words of a trapframe -/

def tfEpc : Nat := 3
def tfSp : Nat := 6
def tfA0 : Nat := 14
def tfA1 : Nat := 15
def trapframeWords : Nat := 36

/-- `*dst = *src` for two trapframes. -/
def copyTrapframe (dst src : Nat) : MemM Unit :=
  modify fun m => m.setPage dst fun i =>
    if i < trapframeWords then m.page src i else m.page dst i

/-! ## Files and inodes -/

def filedup (f : Nat) : KernelM Nat := do
  let k ← get
  if (k.file f).ref < 1 then
    throw .filedup
  else do
    set { k with file := fun g =>
      if g = f then { k.file g with ref := (k.file g).ref + 1 } else k.file g }
    pure f

def idup (ip : Nat) : KernelM Nat := do
  modify fun k => { k with inodeRef := fun i =>
    if i = ip then k.inodeRef i + 1 else k.inodeRef i }
  pure ip

def iput (ip : Nat) : KernelM Unit :=
  modify fun k => { k with inodeRef := fun i =>
    if i = ip then k.inodeRef i - 1 else k.inodeRef i }

def beginOp : KernelM Unit := modify fun k => { k with outstanding := k.outstanding + 1 }

def endOp : KernelM Unit := modify fun k => { k with outstanding := k.outstanding - 1 }

def wakeup (me : Nat) (chan : Option Chan) : KernelM Unit :=
  modify fun k => k.mapProc fun p q =>
    if p ≠ me ∧ q.state = .sleeping ∧ q.chan = chan then
      { q with state := .runnable }
    else
      q

section

variable [Image]

def pipeclose (me pi : Nat) (writable : Bool) : KernelM Unit := do
  if writable then do
    modify fun k => { k with pipe := fun q =>
      if q = pi then { k.pipe q with writeopen := false } else k.pipe q }
    wakeup me (some (.nread pi))
  else do
    modify fun k => { k with pipe := fun q =>
      if q = pi then { k.pipe q with readopen := false } else k.pipe q }
    wakeup me (some (.nwrite pi))
  let k ← get
  if (k.pipe pi).readopen = false ∧ (k.pipe pi).writeopen = false then
    inMem (kfree pi)
  else
    pure ()

def fileclose (me f : Nat) : KernelM Unit := do
  let k ← get
  let ff := k.file f
  if ff.ref < 1 then
    throw .fileclose
  else if 1 < ff.ref then
    set { k with file := fun g =>
      if g = f then { ff with ref := ff.ref - 1 } else k.file g }
  else do
    set { k with file := fun g =>
      if g = f then { ff with ref := 0, type := .none } else k.file g }
    match ff.type with
    | .none => pure ()
    | .pipe => pipeclose me ff.pipe ff.writable
    | .inode | .device => do
        beginOp
        iput ff.ip
        endOp

/-! ## Creating and freeing processes -/

def allocpid : KernelM Nat := do
  let k ← get
  set { k with nextpid := k.nextpid + 1 }
  pure k.nextpid

/-- What `freeproc` leaves in the slot. -/
def Proc.reset (q : Proc) : Proc :=
  { q with
    trapframe := 0, pagetable := 0, sz := 0, pid := 0, parent := none, name := []
    chan := none, killed := false, xstate := 0, state := .unused }

def freeproc (p : Nat) : KernelM Unit := do
  let q ← getProc p
  inMem (when (q.trapframe ≠ 0) (kfree q.trapframe))
  inMem (when (q.pagetable ≠ 0) (procFreepagetable q.pagetable q.sz))
  setProc p Proc.reset

def Kernel.unusedSlot (k : Kernel) : Option Nat :=
  (List.range nproc).find? fun p => (k.proc p).state = .unused

def allocproc : KernelM (Option Nat) := do
  let k ← get
  match k.unusedSlot with
  | none => pure none
  | some p => do
      let pid ← allocpid
      setProc p fun q => { q with pid := pid, state := .used }
      match ← inMem kalloc with
      | none => do
          setProc p fun q => { q with trapframe := 0 }
          freeproc p
          pure none
      | some trapframe => do
          setProc p fun q => { q with trapframe := trapframe }
          match ← inMem (procPagetable trapframe) with
          | none => do
              setProc p fun q => { q with pagetable := 0 }
              freeproc p
              pure none
          | some pagetable => do
              setProc p fun q =>
                { q with
                  pagetable := pagetable
                  context := { ra := Image.forkret, sp := kstack p + pgSize } }
              pure (some p)

def initcode : List Nat :=
  [0x17, 0x05, 0x00, 0x00, 0x13, 0x05, 0x45, 0x02,
   0x97, 0x05, 0x00, 0x00, 0x93, 0x85, 0x35, 0x02,
   0x93, 0x08, 0x70, 0x00, 0x73, 0x00, 0x00, 0x00,
   0x93, 0x08, 0x20, 0x00, 0x73, 0x00, 0x00, 0x00,
   0xef, 0xf0, 0x9f, 0xff, 0x2f, 0x69, 0x6e, 0x69,
   0x74, 0x00, 0x00, 0x24, 0x00, 0x00, 0x00, 0x00,
   0x00, 0x00, 0x00, 0x00]

/-- `safestrcpy` into a `name` of 16 bytes. -/
def safestrcpy (t : List Nat) : List Nat := t.take 15

def initcodeName : List Nat := [105, 110, 105, 116, 99, 111, 100, 101]

/-- `root` is the inode that `namei("/")` finds. -/
def userinit (root : Nat) : KernelM Unit := do
  match ← allocproc with
  | none => throw .kerneltrap
  | some p => do
      modify fun k => { k with initproc := some p }
      let q ← getProc p
      inMem (uvmfirst q.pagetable initcode)
      setProc p fun q => { q with sz := pgSize }
      inMem (store q.trapframe tfEpc 0)
      inMem (store q.trapframe tfSp pgSize)
      let cwd ← idup root
      setProc p fun q =>
        { q with name := safestrcpy initcodeName, cwd := some cwd, state := .runnable }

/-! ## System calls -/

def growproc (p : Nat) (n : Int) : KernelM Int := do
  let q ← getProc p
  let newsz := ((q.sz + n) % 2 ^ 64).toNat
  if 0 < n then do
    let sz ← inMem (uvmalloc q.pagetable q.sz newsz pteW)
    if sz = 0 then
      pure (-1)
    else do
      setProc p fun q => { q with sz := sz }
      pure 0
  else if n < 0 then do
    let sz ← inMem (uvmdealloc q.pagetable q.sz newsz)
    setProc p fun q => { q with sz := sz }
    pure 0
  else
    pure 0

def dupFiles (p np : Nat) : KernelM Unit :=
  forM (List.range nofile) fun i => do
    let q ← getProc p
    match q.ofile i with
    | none => pure ()
    | some f => do
        let g ← filedup f
        setProc np fun q => { q with ofile := fun j => if j = i then some g else q.ofile j }

/-- `idup` of a directory that may be null, which faults. -/
def dupCwd (cwd : Option Nat) : KernelM (Option Nat) :=
  match cwd with
  | none => throw .kerneltrap
  | some ip => do
      let ip ← idup ip
      pure (some ip)

def fork (p : Nat) : KernelM Int := do
  match ← allocproc with
  | none => pure (-1)
  | some np => do
      let q ← getProc p
      let nq ← getProc np
      let copied ← inMem (uvmcopy q.pagetable nq.pagetable q.sz)
      if copied then do
        setProc np fun nq => { nq with sz := q.sz }
        inMem (copyTrapframe nq.trapframe q.trapframe)
        inMem (store nq.trapframe tfA0 0)
        dupFiles p np
        let cwd ← dupCwd q.cwd
        setProc np fun nq =>
          { nq with
            cwd := cwd, name := safestrcpy q.name, parent := some p, state := .runnable }
        pure nq.pid
      else do
        freeproc np
        pure (-1)

def sfork (me : Nat) : KernelM Int := do
  match ← allocproc with
  | none => pure (-1)
  | some p => do
      let q ← getProc me
      setProc p fun np =>
        { np with
          sz := q.sz, pagetable := q.pagetable, parent := some me, state := .runnable
          context := q.context }
      let np ← getProc p
      pure np.pid

/-- `exec(path, argv)`, where `found` is what `namei(path)` finds: the inode
and the bytes of its file. -/
def exec (p : Nat) (path : List Nat) (found : Option (Nat × List Nat))
    (argv : List (List Nat)) : KernelM Int := do
  beginOp
  match found with
  | none => do
      endOp
      pure (-1)
  | some (ip, bytes) => do
      let _ ← idup ip
      let q ← getProc p
      let image ← inMem (execImage q.trapframe bytes argv)
      iput ip
      endOp
      match image with
      | none => pure (-1)
      | some image => do
          inMem (store q.trapframe tfA1 image.sp)
          setProc p fun q =>
            { q with
              name := safestrcpy (path.reverse.takeWhile (· ≠ 47)).reverse
              pagetable := image.pagetable
              sz := image.sz }
          inMem (store q.trapframe tfEpc image.entry)
          inMem (store q.trapframe tfSp image.sp)
          inMem (procFreepagetable q.pagetable q.sz)
          pure image.argc

def reparent (p : Nat) : KernelM Unit := do
  let k ← get
  forM (List.range nproc) fun pp => do
    let q ← getProc pp
    if q.parent = some p then do
      setProc pp fun q => { q with parent := k.initproc }
      wakeup p (k.initproc.map .proc)
    else
      pure ()

def closeFiles (p : Nat) : KernelM Unit :=
  forM (List.range nofile) fun fd => do
    let q ← getProc p
    match q.ofile fd with
    | none => pure ()
    | some f => do
        fileclose p f
        setProc p fun q => { q with ofile := fun j => if j = fd then none else q.ofile j }

def exit (p : Nat) (status : Int) : KernelM Unit := do
  let k ← get
  if k.initproc = some p then
    throw .initExiting
  else do
    closeFiles p
    let q ← getProc p
    match q.cwd with
    | none => throw .kerneltrap
    | some ip => do
        beginOp
        iput ip
        endOp
        setProc p fun q => { q with cwd := none }
        reparent p
        let q ← getProc p
        wakeup p (q.parent.map .proc)
        setProc p fun q => { q with xstate := status, state := .zombie }

def intBytes (x : Int) : List Nat :=
  (List.range 4).map fun i => (x % 2 ^ 32).toNat / 256 ^ i % 256

/-- Copies the exit status out, if the caller asked for it. -/
def reportStatus (pagetable addr : Nat) (xstate : Int) : KernelM Bool :=
  if addr = 0 then pure true
  else inMem (copyout pagetable addr (intBytes xstate))

def wait (p addr : Nat) : KernelM (Option Int) := do
  setProc p fun q => { q with chan := none }
  let k ← get
  match (List.range nproc).find? fun pp =>
      (k.proc pp).parent = some p ∧ (k.proc pp).state = .zombie with
  | some pp => do
      let pid := (k.proc pp).pid
      let copied ← reportStatus (k.proc p).pagetable addr (k.proc pp).xstate
      if copied then do
        freeproc pp
        pure (some pid)
      else
        pure (some (-1))
  | none =>
      if (List.range nproc).all (fun pp => (k.proc pp).parent ≠ some p) ∨
          (k.proc p).killed then
        pure (some (-1))
      else do
        setProc p fun q => { q with chan := some (.proc p), state := .sleeping }
        pure none

end

end SyscallSched.Xv6

/-!
## Runs of the kernel

A run starts with `userinit` and goes on with system calls, each by some
process.  A slot that is not runnable makes no call.
-/

namespace SyscallSched.Xv6

inductive Call where
  | fork
  | sfork
  | growproc (n : Int)
  | exec (path : List Nat) (found : Option (Nat × List Nat)) (argv : List (List Nat))
  | exit (status : Int)
  | wait (addr : Nat)

/-- A process that can make a call. -/
def Kernel.live (k : Kernel) (p : Nat) : Prop :=
  p < nproc ∧ ((k.proc p).state = .runnable ∨ (k.proc p).state = .running)

instance (k : Kernel) (p : Nat) : Decidable (k.live p) :=
  inferInstanceAs (Decidable (_ ∧ (_ ∨ _)))

variable [Image]

structure Boot where
  kernel : Kernel
  nodup : kernel.mem.freelist.Nodup
  frames : ∀ q ∈ kernel.mem.freelist, Frame q
  enough : 7 ≤ kernel.mem.freelist.length
  refreed : kernel.mem.refreed = []
  procs : ∀ p, kernel.proc p = {}
  /-- the inode of `/` -/
  root : Nat

def Call.run (p : Nat) : Call → KernelM Unit
  | .fork => do
      let _ ← Xv6.fork p
      pure ()
  | .sfork => do
      let _ ← Xv6.sfork p
      pure ()
  | .growproc n => do
      let _ ← Xv6.growproc p n
      pure ()
  | .exec path found argv => do
      let _ ← Xv6.exec p path found argv
      pure ()
  | .exit status => Xv6.exit p status
  | .wait addr => do
      let _ ← Xv6.wait p addr
      pure ()

def after (k : Kernel) (x : KernelM Unit) : Except Panic Kernel :=
  match x k with
  | .error e => .error e
  | .ok (_, k') => .ok k'

def step (k : Kernel) (s : Nat × Call) : Except Panic Kernel :=
  if k.live s.1 then after k (s.2.run s.1) else .ok k

def runFrom (k : Kernel) (calls : List (Nat × Call)) : Except Panic Kernel :=
  calls.foldlM step k

def Boot.run (b : Boot) (calls : List (Nat × Call)) : Except Panic Kernel := do
  let k ← after b.kernel (userinit b.root)
  runFrom k calls

end SyscallSched.Xv6
