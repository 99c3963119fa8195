import Mathlib.Logic.Function.Basic

/-!
# Names and link counts (`sysfile.c`, `fs.c`, `file.c`)

System calls run one after the other.  Of an inode the model keeps the type, the number
of links, the major number and, if it is a directory, its entries; the inode in the table
and the one on the disk are the same, as every change is followed by `iupdate`.  Blocks
are left out: a call is told whether `balloc` would succeed for a new block of a
directory.  The inode table is never full, and arguments that `argstr` does not accept,
which have no effect, are left out, as are pipes and `dup`.
-/

namespace SyscallSched.Xv6.Links

def ninodes : Nat := 200

def rootIno : Nat := 1

def dirSiz : Nat := 14

def blockEntries : Nat := 64

/-- `MAXFILE*BSIZE / sizeof(struct dirent)` -/
def maxEntries : Nat := 268 * blockEntries

def nofile : Nat := 16

def nfile : Nat := 100

def ndev : Int := 10

def oRdonly : Nat := 0x000

def oCreate : Nat := 0x200

def slash : Nat := 47

abbrev Name := List Nat

def dot : Name := [46]

def dotdot : Name := [46, 46]

inductive Panic where
  /-- `ilock` -/
  | ilock
  /-- `ilock: no type` -/
  | noType
  /-- `dirlookup not DIR` -/
  | notDir
  /-- `unlink: nlink < 1` -/
  | nlink
  /-- `fileclose` -/
  | fileclose
  /-- not a panic of the kernel: `namex` does not end -/
  | endless
  deriving DecidableEq

/-- `type` of an inode; `free` is 0. -/
inductive FileType where
  | free
  | dir
  | file
  | device
  deriving DecidableEq

structure Dirent where
  inum : Nat
  name : Name
  deriving DecidableEq

structure Inode where
  type : FileType
  major : Int16
  nlink : Int16
  entries : List Dirent
  deriving DecidableEq

/-- A file of the file table; `ip` is 0 when its type is `FD_NONE`. -/
structure File where
  ref : Nat
  ip : Option Nat
  deriving DecidableEq

structure Proc where
  cwd : Nat
  ofile : Nat → Option Nat

structure State where
  inode : Nat → Inode
  /-- `ref` of the inode in the table, 0 if it is not there -/
  ref : Nat → Nat
  valid : Nat → Bool
  file : Nat → File
  proc : Nat → Option Proc

abbrev KernelM := StateT State (Except Panic)

/-! ## Inodes -/

def Inode.free : Inode := { type := .free, major := 0, nlink := 0, entries := [] }

def getInode (i : Nat) : KernelM Inode := do return (← get).inode i

def State.setInode (s : State) (i : Nat) (ip : Inode) : State :=
  { s with inode := Function.update s.inode i ip }

def setInode (i : Nat) (ip : Inode) : KernelM Unit := modify fun s => s.setInode i ip

def State.iget (s : State) (i : Nat) : State :=
  if 0 < s.ref i then { s with ref := Function.update s.ref i (s.ref i + 1) }
  else
    { s with
      ref := Function.update s.ref i 1
      valid := Function.update s.valid i false }

def iget (i : Nat) : KernelM Unit := modify fun s => s.iget i

def idup (i : Nat) : KernelM Unit :=
  modify fun s => { s with ref := Function.update s.ref i (s.ref i + 1) }

def ilock (i : Nat) : KernelM Unit := fun s =>
  if s.ref i < 1 then .error .ilock
  else if s.valid i = true then .ok ((), s)
  else if (s.inode i).type = .free then .error .noType
  else .ok ((), { s with valid := Function.update s.valid i true })

def Inode.truncated (ip : Inode) : Inode := { ip with type := .free, entries := [] }

def State.iput (s : State) (i : Nat) : State :=
  let s :=
    if s.ref i = 1 ∧ s.valid i = true ∧ (s.inode i).nlink = 0 then
      { s.setInode i (s.inode i).truncated with valid := Function.update s.valid i false }
    else s
  { s with ref := Function.update s.ref i (s.ref i - 1) }

def iput (i : Nat) : KernelM Unit := modify fun s => s.iput i

def State.freeInode (s : State) : Option Nat :=
  (List.range ninodes).find? fun i => 0 < i && (s.inode i).type = .free

def ialloc (type : FileType) : KernelM (Option Nat) := do
  match (← get).freeInode with
  | none => pure none
  | some i => do
      setInode i { Inode.free with type }
      iget i
      pure (some i)

/-! ## Directories -/

def findEntry : List Dirent → Name → Option (Nat × Nat)
  | [], _ => none
  | e :: es, name =>
      if e.inum ≠ 0 ∧ e.name = name then some (0, e.inum)
      else (findEntry es name).map fun found => (found.1 + 1, found.2)

def dirlookup (dp : Nat) (name : Name) : KernelM (Option (Nat × Nat)) := do
  let ip ← getInode dp
  if ip.type ≠ .dir then throw .notDir
  else
    match findEntry ip.entries name with
    | none => pure none
    | some (off, inum) => do
        iget inum
        pure (some (off, inum))

/-- The entries after `writei` of `e` at the first free place, or at the end; `space` says
whether a new block can be allocated. -/
def putEntry : List Dirent → Dirent → Nat → Bool → Option (List Dirent)
  | [], e, off, space =>
      if maxEntries ≤ off then none
      else if off % blockEntries = 0 ∧ space = false then none
      else some [e]
  | d :: es, e, off, space =>
      if d.inum = 0 then some (e :: es)
      else (putEntry es e (off + 1) space).map fun es => d :: es

/-- `dirlink`, `false` for -1. -/
def dirlink (dp : Nat) (name : Name) (inum : Nat) (space : Bool) : KernelM Bool := do
  match ← dirlookup dp name with
  | some (_, i) => do
      iput i
      pure false
  | none => do
      let ip ← getInode dp
      match putEntry ip.entries ⟨inum, name⟩ 0 space with
      | none => pure false
      | some entries => do
          setInode dp { ip with entries }
          pure true

def Inode.isEmpty (ip : Inode) : Bool := (ip.entries.drop 2).all fun e => e.inum = 0

/-! ## Paths -/

/-- The next element of a path, and the path behind it. -/
def skipelem (path : List Nat) : Option (Name × List Nat) :=
  match path.dropWhile (· = slash) with
  | [] => none
  | c :: rest =>
      let s := c :: rest
      some ((s.takeWhile (· ≠ slash)).take dirSiz,
        (s.dropWhile (· ≠ slash)).dropWhile (· = slash))

def namexLoop (nameiparent : Bool) : Nat → Nat → List Nat → KernelM (Option (Nat × Name))
  | 0, _, _ => throw .endless
  | fuel + 1, ip, path =>
      match skipelem path with
      | none =>
          if nameiparent then do
            iput ip
            pure none
          else pure (some (ip, []))
      | some (name, path) => do
          ilock ip
          let inode ← getInode ip
          if inode.type ≠ .dir then do
            iput ip
            pure none
          else if nameiparent = true ∧ path = [] then pure (some (ip, name))
          else do
            match ← dirlookup ip name with
            | none => do
                iput ip
                pure none
            | some (_, next) => do
                iput ip
                namexLoop nameiparent fuel next path

def namex (cwd : Nat) (path : List Nat) (nameiparent : Bool) : KernelM (Option (Nat × Name)) := do
  if path.head? = some slash then do
    iget rootIno
    namexLoop nameiparent (path.length + 1) rootIno path
  else do
    idup cwd
    namexLoop nameiparent (path.length + 1) cwd path

def namei (cwd : Nat) (path : List Nat) : KernelM (Option Nat) := do
  return (← namex cwd path false).map Prod.fst

def nameiparent (cwd : Nat) (path : List Nat) : KernelM (Option (Nat × Name)) :=
  namex cwd path true

/-! ## `link` and `unlink` -/

def linkBad (ip : Nat) : KernelM Int := do
  ilock ip
  let inode ← getInode ip
  setInode ip { inode with nlink := inode.nlink - 1 }
  iput ip
  pure (-1)

/-- `sys_link` from `nameiparent` on. -/
def linkName (cwd ip : Nat) (new : List Nat) (space : Bool) : KernelM Int := do
  match ← nameiparent cwd new with
  | none => linkBad ip
  | some (dp, name) => do
      ilock dp
      if ← dirlink dp name ip space then do
        iput dp
        iput ip
        pure 0
      else do
        iput dp
        linkBad ip

def sysLink (cwd : Nat) (old new : List Nat) (space : Bool) : KernelM Int := do
  match ← namei cwd old with
  | none => pure (-1)
  | some ip => do
      ilock ip
      let inode ← getInode ip
      if inode.type = .dir then do
        iput ip
        pure (-1)
      else do
        setInode ip { inode with nlink := inode.nlink + 1 }
        linkName cwd ip new space

/-- `if(ip->type == T_DIR){ dp->nlink--; iupdate(dp); }` -/
def unlinkParent (dp : Nat) (type : FileType) : KernelM Unit := do
  if type = .dir then
    let parent ← getInode dp
    setInode dp { parent with nlink := parent.nlink - 1 }

def unlinkInode (dp ip : Nat) : KernelM Unit := do
  iput dp
  let inode ← getInode ip
  setInode ip { inode with nlink := inode.nlink - 1 }
  iput ip

/-- `sys_unlink` from `writei` on: the entry is zeroed and the counts go down. -/
def unlinkEntry (dp off ip : Nat) : KernelM Unit := do
  let parent ← getInode dp
  setInode dp { parent with entries := parent.entries.set off ⟨0, []⟩ }
  let inode ← getInode ip
  unlinkParent dp inode.type
  unlinkInode dp ip

def sysUnlink (cwd : Nat) (path : List Nat) : KernelM Int := do
  match ← nameiparent cwd path with
  | none => pure (-1)
  | some (dp, name) => do
      ilock dp
      if name = dot ∨ name = dotdot then do
        iput dp
        pure (-1)
      else do
        match ← dirlookup dp name with
        | none => do
            iput dp
            pure (-1)
        | some (off, ip) => do
            ilock ip
            let inode ← getInode ip
            if inode.nlink < 1 then throw .nlink
            else if inode.type = .dir ∧ inode.isEmpty = false then do
              iput ip
              iput dp
              pure (-1)
            else do
              unlinkEntry dp off ip
              pure 0

/-! ## `create` -/

/-- `fail:` in `create` -/
def createFail (ip dp : Nat) : KernelM (Option Nat) := do
  let inode ← getInode ip
  setInode ip { inode with nlink := 0 }
  iput ip
  iput dp
  pure none

def createDots (ip dp : Nat) (type : FileType) (space : Nat → Bool) : KernelM Bool := do
  if type = .dir then
    if ← dirlink ip dot ip (space 0) then dirlink ip dotdot dp (space 1) else pure false
  else pure true

/-- `if(type == T_DIR){ dp->nlink++; iupdate(dp); }` -/
def linkParent (dp : Nat) (type : FileType) : KernelM Unit := do
  if type = .dir then
    let parent ← getInode dp
    setInode dp { parent with nlink := parent.nlink + 1 }

/-- The end of `create`, when the inode has its name. -/
def createLinked (dp ip : Nat) (type : FileType) : KernelM (Option Nat) := do
  linkParent dp type
  iput dp
  pure (some ip)

/-- `create` from `ialloc` on; `space k` is for the `k`-th `dirlink`. -/
def createNew (dp : Nat) (name : Name) (type : FileType) (major : Int16) (space : Nat → Bool) :
    KernelM (Option Nat) := do
  match ← ialloc type with
  | none => do
      iput dp
      pure none
  | some ip => do
      ilock ip
      let inode ← getInode ip
      setInode ip { inode with major, nlink := 1 }
      if ← createDots ip dp type space then
        if ← dirlink dp name ip (space 2) then createLinked dp ip type else createFail ip dp
      else createFail ip dp

def create (cwd : Nat) (path : List Nat) (type : FileType) (major : Int16) (space : Nat → Bool) :
    KernelM (Option Nat) := do
  match ← nameiparent cwd path with
  | none => pure none
  | some (dp, name) => do
      ilock dp
      match ← dirlookup dp name with
      | some (_, ip) => do
          iput dp
          ilock ip
          let inode ← getInode ip
          if type = .file ∧ (inode.type = .file ∨ inode.type = .device) then pure (some ip)
          else do
            iput ip
            pure none
      | none => createNew dp name type major space

def sysMkdir (cwd : Nat) (path : List Nat) (space : Nat → Bool) : KernelM Int := do
  match ← create cwd path .dir 0 space with
  | none => pure (-1)
  | some ip => do
      iput ip
      pure 0

def sysMknod (cwd : Nat) (path : List Nat) (major : Int16) (space : Nat → Bool) : KernelM Int := do
  match ← create cwd path .device major space with
  | none => pure (-1)
  | some ip => do
      iput ip
      pure 0

/-! ## Files -/

def setFile (f : Nat) (file : File) : KernelM Unit :=
  modify fun s => { s with file := Function.update s.file f file }

def setProc (p : Nat) (proc : Option Proc) : KernelM Unit :=
  modify fun s => { s with proc := Function.update s.proc p proc }

def filealloc : KernelM (Option Nat) := do
  let s ← get
  match (List.range nfile).find? fun f => (s.file f).ref = 0 with
  | none => pure none
  | some f => do
      setFile f { s.file f with ref := 1 }
      pure (some f)

def fileclose (f : Nat) : KernelM Unit := do
  let file := (← get).file f
  if file.ref < 1 then throw .fileclose
  else if 0 < file.ref - 1 then setFile f { file with ref := file.ref - 1 }
  else do
    setFile f { ref := 0, ip := none }
    match file.ip with
    | none => pure ()
    | some ip => iput ip

def Proc.freeFd (proc : Proc) : Option Nat :=
  (List.range nofile).find? fun fd => (proc.ofile fd).isNone

/-- `iunlockput(ip); return -1;` -/
def openFailed (ip : Nat) : KernelM Int := do
  iput ip
  pure (-1)

/-- `sys_open` once it has found the inode. -/
def openInode (p : Nat) (proc : Proc) (ip : Nat) : KernelM Int := do
  let inode ← getInode ip
  if inode.type = .device ∧ (inode.major.toInt < 0 ∨ ndev ≤ inode.major.toInt) then openFailed ip
  else
    match ← filealloc with
    | none => openFailed ip
    | some f =>
        match proc.freeFd with
        | none => do
            fileclose f
            openFailed ip
        | some fd => do
            setFile f { ref := 1, ip := some ip }
            setProc p (some { proc with ofile := Function.update proc.ofile fd (some f) })
            pure fd

def sysOpen (p : Nat) (proc : Proc) (path : List Nat) (omode : Nat) (space : Nat → Bool) :
    KernelM Int := do
  if omode &&& oCreate ≠ 0 then
    match ← create proc.cwd path .file 0 space with
    | none => pure (-1)
    | some ip => openInode p proc ip
  else
    match ← namei proc.cwd path with
    | none => pure (-1)
    | some ip => do
        ilock ip
        let inode ← getInode ip
        if inode.type = .dir ∧ omode ≠ oRdonly then openFailed ip
        else openInode p proc ip

/-! ## Processes -/

def sysChdir (p : Nat) (proc : Proc) (path : List Nat) : KernelM Int := do
  match ← namei proc.cwd path with
  | none => pure (-1)
  | some ip => do
      ilock ip
      let inode ← getInode ip
      if inode.type ≠ .dir then openFailed ip
      else do
        iput proc.cwd
        setProc p (some { proc with cwd := ip })
        pure 0

def sysClose (p : Nat) (proc : Proc) (fd : Nat) : KernelM Int := do
  match proc.ofile fd with
  | none => pure (-1)
  | some f => do
      setProc p (some { proc with ofile := Function.update proc.ofile fd none })
      fileclose f
      pure 0

def closeAll (proc : Proc) : List Nat → KernelM Unit
  | [] => pure ()
  | fd :: fds => do
      match proc.ofile fd with
      | none => pure ()
      | some f => fileclose f
      closeAll proc fds

def exit (p : Nat) (proc : Proc) : KernelM Int := do
  closeAll proc (List.range nofile)
  iput proc.cwd
  setProc p none
  pure 0

def dupAll (proc : Proc) : List Nat → KernelM Unit
  | [] => pure ()
  | fd :: fds => do
      match proc.ofile fd with
      | none => pure ()
      | some f => do
          let file := (← get).file f
          setFile f { file with ref := file.ref + 1 }
      dupAll proc fds

def fork (q : Nat) (proc : Proc) : KernelM Int := do
  match (← get).proc q with
  | some _ => pure (-1)
  | none => do
      dupAll proc (List.range nofile)
      idup proc.cwd
      setProc q (some proc)
      pure q

inductive Call where
  | open (path : List Nat) (omode : Nat) (space : Nat → Bool)
  | mkdir (path : List Nat) (space : Nat → Bool)
  | mknod (path : List Nat) (major : Int16) (space : Nat → Bool)
  | link (old new : List Nat) (space : Bool)
  | unlink (path : List Nat)
  | chdir (path : List Nat)
  | close (fd : Nat)
  | fork (q : Nat)
  | exit

def Call.run (p : Nat) (proc : Proc) : Call → KernelM Int
  | .open path omode space => sysOpen p proc path omode space
  | .mkdir path space => sysMkdir proc.cwd path space
  | .mknod path major space => sysMknod proc.cwd path major space
  | .link old new space => sysLink proc.cwd old new space
  | .unlink path => sysUnlink proc.cwd path
  | .chdir path => sysChdir p proc path
  | .close fd => sysClose p proc fd
  | .fork q => Links.fork q proc
  | .exit => Links.exit p proc

/-- Process `p` makes a call; a process that does not exist makes none. -/
def State.step (s : State) (p : Nat) (call : Call) : Except Panic State :=
  match s.proc p with
  | none => .ok s
  | some proc => (call.run p proc s).map Prod.snd

/-! ## The image of `mkfs` -/

/-- The entries of the root directory: the files have the inode numbers from 2 on. -/
def imageEntries (names : List Name) : List Dirent :=
  ⟨rootIno, dot⟩ :: ⟨rootIno, dotdot⟩ :: names.mapIdx fun k name => ⟨k + 2, name⟩

/-- The inodes of an image with the given files.  The size of the root directory is
rounded up by at least one entry to full blocks. -/
def image (names : List Name) (i : Nat) : Inode :=
  if i = rootIno then
    { Inode.free with
      type := .dir, nlink := 1
      entries := imageEntries names ++
        List.replicate (blockEntries - (names.length + 2) % blockEntries) ⟨0, []⟩ }
  else if 2 ≤ i ∧ i < names.length + 2 then { Inode.free with type := .file, nlink := 1 }
  else Inode.free

/-- The first process, with number 1, after `userinit`. -/
def State.initial (names : List Name) : State where
  inode := image names
  ref := Function.update (fun _ => 0) rootIno 1
  valid := fun _ => false
  file := fun _ => { ref := 0, ip := none }
  proc := Function.update (fun _ => none) 1 (some { cwd := rootIno, ofile := fun _ => none })

end SyscallSched.Xv6.Links
