import SyscallSched.Xv6.Proc

/-!
# System calls on open files (`sysfile.c`, `file.c`, `pipe.c`)

The calls that take and give back file descriptors, next to `fork`, `exit` and
`wait`.  What `namei` or `create` finds for the path of `open` is an argument of
the call, and so is not finding anything; the `itrunc` of `O_TRUNC` changes the
inode alone and is left out.  The ends of a pipe are kept apart from the page they
lie in, and the bytes in the pipe are left out.
-/

namespace SyscallSched.Xv6

def nfile : Nat := 100
def ndev : Nat := 10

def oRdonly : Nat := 0x000
def oWronly : Nat := 0x001
def oRdwr : Nat := 0x002
def oCreate : Nat := 0x200
def oTrunc : Nat := 0x400

inductive InodeType where
  | dir
  | file
  | device
  deriving DecidableEq, Repr

structure Inode where
  ip : Nat
  type : InodeType
  major : Int

inductive Lookup where
  /-- `argstr` fails -/
  | unreadable
  /-- `namei` or `create` returns 0 -/
  | missing
  | found (inode : Inode)

/-! ## Descriptors -/

def setFile (f : Nat) (g : File → File) : KernelM Unit :=
  modify fun k => { k with file := fun i => if i = f then g (k.file i) else k.file i }

def setFd (p fd : Nat) (file : Option Nat) : KernelM Unit :=
  setProc p fun q => { q with ofile := fun j => if j = fd then file else q.ofile j }

/-- The first entry of the file table that is not referred to. -/
def Kernel.freeFile (k : Kernel) : Option Nat :=
  (List.range nfile).find? fun f => (k.file f).ref = 0

def filealloc : KernelM (Option Nat) := do
  let k ← get
  match k.freeFile with
  | none => pure none
  | some f => do
      setFile f fun file => { file with ref := 1 }
      pure (some f)

def Proc.freeFd (q : Proc) : Option Nat :=
  (List.range nofile).find? fun fd => q.ofile fd = none

def fdalloc (p f : Nat) : KernelM (Option Nat) := do
  let q ← getProc p
  match q.freeFd with
  | none => pure none
  | some fd => do
      setFd p fd (some f)
      pure (some fd)

def argfd (p : Nat) (fd : Int) : KernelM (Option (Nat × Nat)) := do
  let q ← getProc p
  if fd < 0 ∨ nofile ≤ fd then
    pure none
  else
    pure ((q.ofile fd.toNat).map fun f => (fd.toNat, f))

section

variable [Image]

def sysDup (p : Nat) (fd : Int) : KernelM Int := do
  match ← argfd p fd with
  | none => pure (-1)
  | some (_, f) => do
      match ← fdalloc p f with
      | none => pure (-1)
      | some fd => do
          let _ ← filedup f
          pure fd

def sysClose (p : Nat) (fd : Int) : KernelM Int := do
  match ← argfd p fd with
  | none => pure (-1)
  | some (fd, f) => do
      setFd p fd none
      fileclose p f
      pure 0

/-! ## `open` -/

/-- `iunlockput(ip); end_op(); return -1;` -/
def openFailed (inode : Inode) : KernelM Int := do
  iput inode.ip
  endOp
  pure (-1)

def Inode.refuses (inode : Inode) (omode : Nat) : Prop :=
  (omode &&& oCreate = 0 ∧ inode.type = .dir ∧ omode ≠ oRdonly) ∨
    (inode.type = .device ∧ (inode.major < 0 ∨ ndev ≤ inode.major))

instance (inode : Inode) (omode : Nat) : Decidable (inode.refuses omode) :=
  inferInstanceAs (Decidable (_ ∨ _))

def File.opened (file : File) (inode : Inode) (omode : Nat) : File :=
  { file with
    type := if inode.type = .device then .device else .inode
    major := if inode.type = .device then inode.major else file.major
    off := if inode.type = .device then file.off else 0
    ip := inode.ip
    readable := omode &&& oWronly = 0
    writable := omode &&& oWronly ≠ 0 ∨ omode &&& oRdwr ≠ 0 }

def openInode (p omode : Nat) (inode : Inode) : KernelM Int := do
  match ← filealloc with
  | none => openFailed inode
  | some f => do
      match ← fdalloc p f with
      | none => do
          fileclose p f
          openFailed inode
      | some fd => do
          setFile f fun file => file.opened inode omode
          endOp
          pure fd

def sysOpen (p omode : Nat) (path : Lookup) : KernelM Int := do
  match path with
  | .unreadable => pure (-1)
  | .missing => do
      beginOp
      endOp
      pure (-1)
  | .found inode => do
      beginOp
      let _ ← idup inode.ip
      if inode.refuses omode then openFailed inode else openInode p omode inode

/-! ## `pipe` -/

def closeSome (p : Nat) : Option Nat → KernelM Unit
  | none => pure ()
  | some f => fileclose p f

/-- `bad:` in `pipealloc`, where `pi` is always null. -/
def pipeallocBad (p : Nat) (f0 f1 : Option Nat) : KernelM (Option (Nat × Nat)) := do
  closeSome p f0
  closeSome p f1
  pure none

def File.pipeEnd (file : File) (pi : Nat) (writable : Bool) : File :=
  { file with type := .pipe, readable := !writable, writable := writable, pipe := pi }

def setPipe (pi : Nat) (pipe : Pipe) : KernelM Unit :=
  modify fun k => { k with pipe := fun i => if i = pi then pipe else k.pipe i }

def pipealloc (p : Nat) : KernelM (Option (Nat × Nat)) := do
  match ← filealloc with
  | none => pipeallocBad p none none
  | some f0 => do
      match ← filealloc with
      | none => pipeallocBad p (some f0) none
      | some f1 => do
          match ← inMem kalloc with
          | none => pipeallocBad p (some f0) (some f1)
          | some pi => do
              setPipe pi { readopen := true, writeopen := true }
              setFile f0 fun file => file.pipeEnd pi false
              setFile f1 fun file => file.pipeEnd pi true
              pure (some (f0, f1))

/-- `fileclose(rf); fileclose(wf); return -1;` -/
def pipeFailed (p rf wf : Nat) : KernelM Int := do
  fileclose p rf
  fileclose p wf
  pure (-1)

/-- The two calls of `copyout` in `sys_pipe`. -/
def copyoutFds (pagetable fdarray : Nat) (fd0 fd1 : Nat) : KernelM Bool := do
  let copied ← inMem (copyout pagetable fdarray (intBytes fd0))
  if copied then
    inMem (copyout pagetable ((fdarray + 4) % 2 ^ 64) (intBytes fd1))
  else
    pure false

def sysPipe (p fdarray : Nat) : KernelM Int := do
  match ← pipealloc p with
  | none => pure (-1)
  | some (rf, wf) => do
      match ← fdalloc p rf with
      | none => pipeFailed p rf wf
      | some fd0 => do
          match ← fdalloc p wf with
          | none => do
              setFd p fd0 none
              pipeFailed p rf wf
          | some fd1 => do
              let q ← getProc p
              let copied ← copyoutFds q.pagetable fdarray fd0 fd1
              if copied then
                pure 0
              else do
                setFd p fd0 none
                setFd p fd1 none
                pipeFailed p rf wf

end

/-! ## Runs -/

inductive FileCall where
  | open (path : Lookup) (omode : Nat)
  | dup (fd : Int)
  | close (fd : Int)
  | pipe (fdarray : Nat)
  | fork
  | exit (status : Int)
  | wait (addr : Nat)

variable [Image]

def FileCall.run (p : Nat) : FileCall → KernelM (Option Int)
  | .open path omode => some <$> sysOpen p omode path
  | .dup fd => some <$> sysDup p fd
  | .close fd => some <$> sysClose p fd
  | .pipe fdarray => some <$> sysPipe p fdarray
  | .fork => some <$> Xv6.fork p
  | .exit status => do
      Xv6.exit p status
      pure none
  | .wait addr => Xv6.wait p addr

def fileStep (k : Kernel) (s : Nat × FileCall) : Except Panic Kernel :=
  if k.live s.1 then
    match s.2.run s.1 k with
    | .error e => .error e
    | .ok (_, k') => .ok k'
  else
    .ok k

structure FileBoot extends Boot where
  files : ∀ f, kernel.file f = {}
  pipes : ∀ pi, kernel.pipe pi = {}

def FileBoot.run (b : FileBoot) (calls : List (Nat × FileCall)) : Except Panic Kernel := do
  let k ← after b.kernel (userinit b.root)
  calls.foldlM fileStep k

end SyscallSched.Xv6
