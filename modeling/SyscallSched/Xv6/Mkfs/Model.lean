import SyscallSched.Xv6.Fs.Layout

/-!
# The image builder (`mkfs.c`)

The image file is a number of sectors and their contents.  Host calls succeed
except that reading a sector beyond the end of the image fails and that an input
file may be missing.  A program ends early with `die` or with a failed assertion.
Byte order is that of the target, so `xshort` and `xint` change nothing.
-/

namespace SyscallSched.Xv6.Mkfs

open SyscallSched.Foundation SyscallSched.Xv6.Fs

def ninodes : Nat := 200
def nbitmap : Nat := fsSize / bpb + 1
def ninodeblocks : Nat := ninodes / ipb + 1
def nlog : Nat := logSize
def nmeta : Nat := 2 + nlog + ninodeblocks + nbitmap
def nblocks : Nat := fsSize - nmeta
def logstart : Nat := 2
def inodestart : Nat := 2 + nlog
def bmapstart : Nat := 2 + nlog + ninodeblocks
def fsMagic : Nat := 0x10203040
def tDir : Nat := 1
def tFile : Nat := 2

inductive Exit where
  | die
  | abort
  deriving DecidableEq, Repr

structure Image where
  sectors : Nat → Block
  /-- length of the image file in sectors -/
  nsect : Nat
  freeinode : Nat
  freeblock : Nat

abbrev MkfsM := StateT Image (Except Exit)

def assertThat (p : Prop) [Decidable p] : MkfsM Unit :=
  if p then pure () else throw .abort

/-! ## Sectors and inodes -/

def rsect (sec : Nat) : MkfsM Block := do
  let s ← get
  if sec < s.nsect then pure (s.sectors sec) else throw .die

def wsect (sec : Nat) (buf : Block) : MkfsM Unit :=
  modify fun s =>
    { s with sectors := Function.update s.sectors sec buf, nsect := max s.nsect (sec + 1) }

def iblock (inum : Nat) : Nat := inum / ipb + inodestart

def inodeOffset (inum : Nat) : Nat := inum % ipb * dinodeSize

def winode (inum : Nat) (ip : Dinode) : MkfsM Unit := do
  let buf ← rsect (iblock inum)
  wsect (iblock inum) (putDinode ip (inodeOffset inum) buf)

def rinode (inum : Nat) : MkfsM Dinode := do
  let buf ← rsect (iblock inum)
  pure (getDinode buf (inodeOffset inum))

def nextInode : MkfsM Nat := do
  let s ← get
  set { s with freeinode := s.freeinode + 1 }
  pure s.freeinode

def nextBlock : MkfsM Nat := do
  let s ← get
  set { s with freeblock := s.freeblock + 1 }
  pure s.freeblock

def ialloc (type : Nat) : MkfsM Nat := do
  let inum ← nextInode
  winode inum { type := type, nlink := 1, size := 0 }
  pure inum

def markUsed : Nat → Block
  | 0 => zeroBlock
  | i + 1 => Function.update (markUsed i) (i / 8) (markUsed i (i / 8) ||| 1 <<< (i % 8))

def balloc (used : Nat) : MkfsM Unit := do
  assertThat (used < bpb)
  wsect bmapstart (markUsed used)

/-! ## Appending to a file -/

def setAddr (din : Dinode) (j b : Nat) : Dinode :=
  { din with addrs := Function.update din.addrs j b }

/-- `if(din.addrs[j] == 0) din.addrs[j] = freeblock++;` -/
def fillAddr (din : Dinode) (j : Nat) : MkfsM Dinode :=
  if din.addrs j = 0 then do
    let b ← nextBlock
    pure (setAddr din j b)
  else
    pure din

def fillEntry (sec : Nat) (indirect : Block) (k : Nat) : MkfsM Block :=
  if indirect.word k = 0 then do
    let b ← nextBlock
    wsect sec (indirect.setWord k b)
    pure (indirect.setWord k b)
  else
    pure indirect

/-- The block of `iappend` for file block `fbn`, and the inode with it. -/
def fileBlock (din : Dinode) (fbn : Nat) : MkfsM (Dinode × Nat) :=
  if fbn < ndirect then do
    let din ← fillAddr din fbn
    pure (din, din.addrs fbn)
  else do
    let din ← fillAddr din ndirect
    let indirect ← rsect (din.addrs ndirect)
    let indirect ← fillEntry (din.addrs ndirect) indirect (fbn - ndirect)
    pure (din, indirect.word (fbn - ndirect))

/-- `min(n, (fbn + 1) * BSIZE - off)` -/
def chunk (n off : Nat) : Nat := min n ((off / bsize + 1) * bsize - off)

theorem chunk_pos {n : Nat} (hn : 0 < n) (off : Nat) : 0 < chunk n off := by
  have hb : bsize = 1024 := rfl
  rw [chunk, hb]
  omega

def appendLoop (din : Dinode) (off : Nat) (p : List Nat) : MkfsM (Dinode × Nat) :=
  if _h : p = [] then
    pure (din, off)
  else do
    assertThat (off / bsize < maxFile)
    let r ← fileBlock din (off / bsize)
    let buf ← rsect r.2
    wsect r.2 (putBytes buf (off - off / bsize * bsize) (p.take (chunk p.length off)))
    appendLoop r.1 (off + chunk p.length off) (p.drop (chunk p.length off))
termination_by p.length
decreasing_by
  have hpos := chunk_pos (List.length_pos_iff.mpr _h) off
  have hlen := List.length_pos_iff.mpr _h
  rw [List.length_drop]
  omega

def iappend (inum : Nat) (p : List Nat) : MkfsM Unit := do
  let din ← rinode inum
  let r ← appendLoop din din.size p
  winode inum { r.1 with size := r.2 }

/-! ## The input files -/

/-- An input file: its path, and what `open` and the successive `read` calls return. -/
structure Input where
  path : List Nat
  reads : Option (List (List Nat))

def userDir : List Nat := [117, 115, 101, 114, 47]
def slash : Nat := 47
def underscore : Nat := 95

def shortname (path : List Nat) : List Nat :=
  if path.take userDir.length = userDir then path.drop userDir.length else path

/-- The name in the image: no leading `_`. -/
def storedName (path : List Nat) : List Nat :=
  if (shortname path).head? = some underscore then (shortname path).tail else shortname path

def openFile (f : Input) : MkfsM (List (List Nat)) :=
  match f.reads with
  | none => throw .die
  | some reads => pure reads

/-- `while((cc = read(fd, buf, sizeof(buf))) > 0)` -/
def appendReads (inum : Nat) : List (List Nat) → MkfsM Unit
  | [] => pure ()
  | buf :: reads =>
      if buf = [] then
        pure ()
      else do
        iappend inum buf
        appendReads inum reads

def addFile (f : Input) : MkfsM Unit := do
  assertThat (slash ∉ shortname f.path)
  let reads ← openFile f
  assertThat ((storedName f.path).length ≤ dirSiz)
  let inum ← ialloc tFile
  iappend rootIno (dirent inum (storedName f.path))
  appendReads inum reads

def addFiles : List Input → MkfsM Unit
  | [] => pure ()
  | f :: files => do
      addFile f
      addFiles files

/-! ## `main` -/

def superblock : Block :=
  setWords zeroBlock 0
    [fsMagic, fsSize, nblocks, ninodes, nlog, logstart, inodestart, bmapstart]

def dot : List Nat := [46]
def dotdot : List Nat := [46, 46]

/-- An empty image with its superblock. -/
def format : MkfsM Unit := do
  modify fun s => { s with freeblock := nmeta }
  forM (List.range fsSize) fun i => wsect i zeroBlock
  wsect 1 superblock

def makeRoot : MkfsM Unit := do
  let rootino ← ialloc tDir
  assertThat (rootino = rootIno)
  iappend rootino (dirent rootino dot)
  iappend rootino (dirent rootino dotdot)

/-- "fix size of root inode dir" -/
def fixRootSize : MkfsM Unit := do
  let din ← rinode rootIno
  winode rootIno { din with size := (din.size / bsize + 1) * bsize }

def main (files : List Input) : MkfsM Unit := do
  format
  makeRoot
  addFiles files
  fixRootSize
  let s ← get
  balloc s.freeblock

/-- The image file right after `open` truncated it. -/
def truncated : Image :=
  { sectors := fun _ => zeroBlock, nsect := 0, freeinode := 1, freeblock := 0 }

/-- The image and the counters when the program exits with status 0. -/
def mkfs (files : List Input) : Except Exit Image :=
  (main files truncated).map Prod.snd

end SyscallSched.Xv6.Mkfs
