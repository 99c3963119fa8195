import SyscallSched.Foundation.Program
import SyscallSched.Xv6.Fs.Layout

/-!
# Blocks and inodes (`fs.c`)

The functions of `fs.c` as programs over the operations of the buffer cache and the
log.  An inode that a function works on is locked by its caller; it is passed to the
function and the changed inode is returned.  Memory outside the file system is a
`Source` that `either_copyin` reads and an `either_copyout` that may refuse a copy.
`printf` is left out.
-/

namespace SyscallSched.Xv6.Fs.Code

open SyscallSched.Foundation SyscallSched.Xv6.Fs

inductive FsError where
  | log (p : FsPanic)
  | freeingFreeBlock
  | bmapOutOfRange
  | ilockNoType
  /-- the caller holds no reference to the inode -/
  | noReference
  /-- the caller is in no transaction -/
  | noTransaction
  deriving DecidableEq, Repr

inductive BufOp where
  | bread (b : Nat)
  /-- the kernel changes `bp->data` -/
  | store (b : Nat) (data : Block)
  /-- `either_copyin` into `bp->data` leaves `data` and returns 0 or -1 -/
  | copyin (b : Nat) (data : Block) (ok : Bool)
  | logWrite (b : Nat)
  | brelse (b : Nat)
  | bwrite (b : Nat)
  | bunpin (b : Nat)
  | getLog
  /-- `log.lh.n = 0` -/
  | clearLog
  | beginOp
  | endOp
  /-- `log.committing = 0` -/
  | endCommit
  | fail (e : FsError)

abbrev BufOp.Res : BufOp → Type
  | bread _ => Block
  | getLog => Log
  | beginOp => Bool
  | endOp => Bool
  | fail _ => Empty
  | store _ _ => Unit
  | copyin _ _ _ => Unit
  | logWrite _ => Unit
  | brelse _ => Unit
  | bwrite _ => Unit
  | bunpin _ => Unit
  | clearLog => Unit
  | endCommit => Unit

abbrev FsProg := Program BufOp BufOp.Res

def bread (b : Nat) : FsProg Block := .op (BufOp.bread b)
def store (b : Nat) (data : Block) : FsProg Unit := .op (BufOp.store b data)
def copyin (b : Nat) (data : Block) (ok : Bool) : FsProg Unit := .op (BufOp.copyin b data ok)
def logWrite (b : Nat) : FsProg Unit := .op (BufOp.logWrite b)
def brelse (b : Nat) : FsProg Unit := .op (BufOp.brelse b)
def fail {α : Type} (e : FsError) : FsProg α := .act (BufOp.fail e) Empty.elim

/-! ## Blocks -/

/-- The fields of `struct superblock` that `fs.c` uses. -/
structure Superblock where
  size : Nat
  ninodes : Nat
  inodestart : Nat
  bmapstart : Nat

def Superblock.bblock (sb : Superblock) (b : Nat) : Nat := b / bpb + sb.bmapstart

def Superblock.iblock (sb : Superblock) (inum : Nat) : Nat := inum / ipb + sb.inodestart

def inodeOffset (inum : Nat) : Nat := inum % ipb * dinodeSize

variable (sb : Superblock)

def bzero (bno : Nat) : FsProg Unit := do
  let _ ← bread bno
  store bno zeroBlock
  logWrite bno
  brelse bno

@[irreducible] def findFree (data : Block) (b : Nat) : Option Nat :=
  (List.range bpb).find? fun bi => decide (b + bi < sb.size) && !bitAt data bi

def takeBlock (data : Block) (b bi : Nat) : FsProg Nat := do
  store (sb.bblock b) (markBit data bi)
  logWrite (sb.bblock b)
  brelse (sb.bblock b)
  bzero (b + bi)
  pure (b + bi)

/-- The body of the outer loop of `balloc`, where `next` is the rest of the loop. -/
def ballocBlock (b : Nat) (next : FsProg Nat) (data : Block) : FsProg Nat :=
  match findFree sb data b with
  | some bi => takeBlock sb data b bi
  | none => do
      brelse (sb.bblock b)
      next

/-- The outer loop of `balloc` for the values of `b` that are left. -/
def ballocFrom : List Nat → FsProg Nat
  | [] => pure 0
  | b :: bs => bread (sb.bblock b) >>= ballocBlock sb b (ballocFrom bs)

/-- `0, BPB, 2 * BPB, …` below `sb.size` -/
def bitmapStarts : List Nat := (List.range ((sb.size + (bpb - 1)) / bpb)).map (· * bpb)

def balloc : FsProg Nat := ballocFrom sb (bitmapStarts sb)

def bfree (b : Nat) : FsProg Unit := do
  let data ← bread (sb.bblock b)
  if bitAt data (b % bpb) then do
    store (sb.bblock b) (clearBit data (b % bpb))
    logWrite (sb.bblock b)
    brelse (sb.bblock b)
  else
    fail .freeingFreeBlock

/-! ## Inodes -/

/-- `struct inode` without its reference count and its lock. -/
structure Inode extends Dinode where
  inum : Nat

def Inode.setAddr (ip : Inode) (j b : Nat) : Inode :=
  { ip with addrs := Function.update ip.addrs j b }

@[simp] theorem addrs_setAddr (ip : Inode) (j b : Nat) :
    (ip.setAddr j b).addrs = Function.update ip.addrs j b := rfl

def iupdate (ip : Inode) : FsProg Unit := do
  let data ← bread (sb.iblock ip.inum)
  store (sb.iblock ip.inum) (putDinode ip.toDinode (inodeOffset ip.inum) data)
  logWrite (sb.iblock ip.inum)
  brelse (sb.iblock ip.inum)

def readInode (inum : Nat) : FsProg Inode := do
  let data ← bread (sb.iblock inum)
  brelse (sb.iblock inum)
  if (getDinode data (inodeOffset inum)).type = 0 then
    fail .ilockNoType
  else
    pure { getDinode data (inodeOffset inum) with inum := inum }

/-- The loop of `ialloc` for the inode numbers that are left; 0 is none. -/
def iallocFrom (type : Nat) : List Nat → FsProg Nat
  | [] => pure 0
  | inum :: inums => do
      let data ← bread (sb.iblock inum)
      if (getDinode data (inodeOffset inum)).type = 0 then do
        store (sb.iblock inum) (putDinode { type := type } (inodeOffset inum) data)
        logWrite (sb.iblock inum)
        brelse (sb.iblock inum)
        pure inum
      else do
        brelse (sb.iblock inum)
        iallocFrom type inums

def ialloc (type : Nat) : FsProg Nat :=
  iallocFrom sb type (List.range' 1 (sb.ninodes - 1))

/-! ## Inode content -/

/-- `if((addr = ip->addrs[j]) == 0)` with its body; 0 means out of disk space. -/
def allocAddr (ip : Inode) (j : Nat) : FsProg (Inode × Nat) :=
  if ip.addrs j = 0 then do
    let addr ← balloc sb
    if addr = 0 then pure (ip, 0) else pure (ip.setAddr j addr, addr)
  else
    pure (ip, ip.addrs j)

/-- The entry `bn` of the indirect block `x`. -/
def bmapEntry (x bn : Nat) : FsProg Nat := do
  let a ← bread x
  if a.word bn = 0 then do
    let addr ← balloc sb
    if addr = 0 then do
      brelse x
      pure 0
    else do
      store x (a.setWord bn addr)
      logWrite x
      brelse x
      pure addr
  else do
    brelse x
    pure (a.word bn)

def bmapIndirect (ip : Inode) (bn : Nat) : FsProg (Inode × Nat) := do
  let r ← allocAddr sb ip ndirect
  if r.2 = 0 then
    pure (r.1, 0)
  else do
    let addr ← bmapEntry sb r.2 bn
    pure (r.1, addr)

def bmap (ip : Inode) (bn : Nat) : FsProg (Inode × Nat) :=
  if bn < ndirect then allocAddr sb ip bn
  else if bn - ndirect < nindirect then bmapIndirect sb ip (bn - ndirect)
  else fail .bmapOutOfRange

def freeDirect : List Nat → Inode → FsProg Inode
  | [], ip => pure ip
  | i :: is, ip =>
      if ip.addrs i = 0 then
        freeDirect is ip
      else do
        bfree sb (ip.addrs i)
        freeDirect is (ip.setAddr i 0)

/-- The second loop of `itrunc`, over the entries of the indirect block `a`. -/
def freeEntries (a : Block) : List Nat → FsProg Unit
  | [] => pure ()
  | j :: js =>
      if a.word j = 0 then
        freeEntries a js
      else do
        bfree sb (a.word j)
        freeEntries a js

def freeIndirect (ip : Inode) : FsProg Inode :=
  if ip.addrs ndirect = 0 then
    pure ip
  else do
    let a ← bread (ip.addrs ndirect)
    freeEntries sb a (List.range nindirect)
    brelse (ip.addrs ndirect)
    bfree sb (ip.addrs ndirect)
    pure (ip.setAddr ndirect 0)

def Inode.withSize (ip : Inode) (size : Nat) : Inode := { ip with size := size }

def itrunc (ip : Inode) : FsProg Inode := do
  let ip ← freeDirect sb (List.range ndirect) ip
  let ip ← freeIndirect sb ip
  iupdate sb (ip.withSize 0)
  pure (ip.withSize 0)

def Inode.withType (ip : Inode) (type : Nat) : Inode := { ip with type := type }

/-- The part of `iput` for an inode with no links and no other references. -/
def freeInode (ip : Inode) : FsProg Inode := do
  let ip ← itrunc sb ip
  iupdate sb (ip.withType 0)
  pure (ip.withType 0)

/-! ## Reading and writing -/

def pgSize : Nat := 4096

/-- Where `either_copyin` reads: kernel memory, or user memory by pages as
`walkaddr` finds them. -/
inductive Source where
  | kernel (mem : Nat → Nat) (addr : Nat)
  | user (pages : Nat → Option (Nat → Nat)) (addr : Nat)

/-- `n = PGSIZE - (srcva - va0); if(n > len) n = len;` -/
def pageChunk (srcva len : Nat) : Nat := min (pgSize - srcva % pgSize) len

theorem pageChunk_pos {len : Nat} (h : len ≠ 0) (srcva : Nat) : 0 < pageChunk srcva len := by
  have hpage : pgSize = 4096 := rfl
  rw [pageChunk, hpage]
  omega

/-- The bytes that `copyin` copies from `srcva` on, and whether it returns 0. -/
def copyinUser (pages : Nat → Option (Nat → Nat)) (srcva len : Nat) : List Nat × Bool :=
  if _h : len = 0 then
    ([], true)
  else
    match pages (srcva / pgSize) with
    | none => ([], false)
    | some pa =>
        let rest := copyinUser pages (srcva - srcva % pgSize + pgSize)
          (len - pageChunk srcva len)
        ((List.range (pageChunk srcva len)).map (fun i => pa (srcva % pgSize + i)) ++ rest.1,
          rest.2)
termination_by len
decreasing_by
  have hpos := pageChunk_pos _h srcva
  omega

def Source.copyin : Source → Nat → List Nat × Bool
  | kernel mem addr, len => ((List.range len).map fun i => mem (addr + i), true)
  | user pages addr, len => copyinUser pages addr len

def Source.advance : Source → Nat → Source
  | kernel mem addr, m => kernel mem (addr + m)
  | user pages addr, m => user pages (addr + m)

/-- `min(left, BSIZE - off % BSIZE)` -/
def chunk (left off : Nat) : Nat := min left (bsize - off % bsize)

theorem chunk_pos {left : Nat} (h : left ≠ 0) (off : Nat) : 0 < chunk left off := by
  have hb : bsize = 1024 := rfl
  rw [chunk, hb]
  omega

/-- The loop of `writei` with `left` bytes to go; the offset at which it ends. -/
def writeLoop (ip : Inode) (src : Source) (off left : Nat) : FsProg (Inode × Nat) :=
  if _h : left = 0 then
    pure (ip, off)
  else do
    let r ← bmap sb ip (off / bsize)
    if r.2 = 0 then
      pure (r.1, off)
    else do
      let data ← bread r.2
      copyin r.2 (putBytes data (off % bsize) (src.copyin (chunk left off)).1)
        (src.copyin (chunk left off)).2
      if (src.copyin (chunk left off)).2 then do
        logWrite r.2
        brelse r.2
        writeLoop r.1 (src.advance (chunk left off)) (off + chunk left off)
          (left - chunk left off)
      else do
        brelse r.2
        pure (r.1, off)
termination_by left
decreasing_by
  have hpos := chunk_pos _h off
  omega

/-- Return value -1 is `none`; otherwise the number of bytes written. -/
def writei (ip : Inode) (src : Source) (off n : Nat) : FsProg (Inode × Option Nat) :=
  if ip.size < off ∨ (off + n) % 2 ^ 32 < off then
    pure (ip, none)
  else if maxFile * bsize < (off + n) % 2 ^ 32 then
    pure (ip, none)
  else do
    let r ← writeLoop sb ip src off n
    iupdate sb (r.1.withSize (max r.1.size r.2))
    pure (r.1.withSize (max r.1.size r.2), some (r.2 - off))

/-- The loop of `readi`: the bytes delivered, and whether every `either_copyout`
succeeded.  `copyout dst m` tells whether `m` bytes can be copied to `dst`. -/
def readLoop (copyout : Nat → Nat → Bool) (ip : Inode) (dst off left : Nat) :
    FsProg (Inode × List Nat × Bool) :=
  if _h : left = 0 then
    pure (ip, [], true)
  else do
    let r ← bmap sb ip (off / bsize)
    if r.2 = 0 then
      pure (r.1, [], true)
    else do
      let data ← bread r.2
      brelse r.2
      if copyout dst (chunk left off) then do
        let rest ← readLoop copyout r.1 (dst + chunk left off) (off + chunk left off)
          (left - chunk left off)
        pure (rest.1, (List.range (chunk left off)).map (fun i => data (off % bsize + i)) ++
          rest.2.1, rest.2.2)
      else
        pure (r.1, [], false)
termination_by left
decreasing_by
  have hpos := chunk_pos _h off
  omega

/-- The number of bytes that `readi` reads from `off` on. -/
def readLength (size off n : Nat) : Nat :=
  if size < (off + n) % 2 ^ 32 then size - off else n

/-- The bytes delivered; the return value is -1 when the flag is `false`. -/
def readi (copyout : Nat → Nat → Bool) (ip : Inode) (dst off n : Nat) :
    FsProg (Inode × List Nat × Bool) :=
  if ip.size < off ∨ (off + n) % 2 ^ 32 < off then
    pure (ip, [], true)
  else
    readLoop sb copyout ip dst off (readLength ip.size off n)

end SyscallSched.Xv6.Fs.Code
