import Mathlib.Data.Fintype.Basic
import SyscallSched.Foundation.Components
import SyscallSched.Xv6.Fs.DirMap

/-!
# Paths (`fs.c`)

`namex` with the table of inodes as it is: `NINODE` entries, of which those without
references are free.  A pointer to an inode is its place in the table.  System calls run
one after the other, so that the locks are left out; there is one device.
-/

namespace SyscallSched.Xv6.Fs.Code

open SyscallSched.Foundation SyscallSched.Xv6.Fs SlotMap

/-- `NINODE` -/
def ninode : Nat := 50

def slash : Nat := 47

inductive NamexError where
  | fs (e : FsError)
  | lookup (p : DirPanic)
  /-- `iget: no inodes` -/
  | igetNoInodes
  /-- `ilock` -/
  | ilock
  deriving DecidableEq, Repr

abbrev InodePtr := Fin ninode

structure NamexState where
  store : Store
  itable : InodePtr → Entry

abbrev NamexM := StateT NamexState (Except NamexError)

/-- `char name[DIRSIZ]` -/
abbrev NameBuf := { name : List Nat // name.length = dirSiz }

def Entry.withRef (e : Entry) (ref : Nat) : Entry := { e with ref := ref }

namespace Itable

def onStore {α : Type} (p : FsProg α) : NamexM α := fun s =>
  ((run p s.store).map fun r => (r.1, { s with store := r.2 })).mapError .fs

def entry (ip : InodePtr) : NamexM Entry := do return (← get).itable ip

def setEntry (ip : InodePtr) (e : Entry) : NamexM Unit :=
  modify fun s => { s with itable := Function.update s.itable ip e }

def findInode (s : NamexState) (inum : Nat) : Option InodePtr :=
  (List.finRange ninode).find? fun ip => 0 < (s.itable ip).ref ∧ (s.itable ip).ip.inum = inum

def findEmpty (s : NamexState) : Option InodePtr :=
  (List.finRange ninode).find? fun ip => (s.itable ip).ref = 0

def iget (inum : Nat) : NamexM InodePtr := do
  let s ← get
  match findInode s inum with
  | some ip => do
      setEntry ip ((s.itable ip).withRef ((s.itable ip).ref + 1))
      pure ip
  | none =>
      match findEmpty s with
      | none => throw .igetNoInodes
      | some ip => do
          setEntry ip { ref := 1, valid := false, ip := { (s.itable ip).ip with inum := inum } }
          pure ip

def idup (ip : InodePtr) : NamexM InodePtr := do
  let e ← entry ip
  setEntry ip (e.withRef (e.ref + 1))
  pure ip

variable (sb : Superblock)

def ilock (ip : InodePtr) : NamexM Unit := do
  let e ← entry ip
  if e.ref < 1 then throw .ilock
  else if e.valid then pure ()
  else do
    let inode ← onStore (readInode sb e.ip.inum)
    setEntry ip { e with valid := true, ip := inode }

def iput (ip : InodePtr) : NamexM Unit := do
  let e ← entry ip
  if e.ref = 1 ∧ e.valid = true ∧ e.ip.nlink = 0 then do
    let inode ← onStore (freeInode sb e.ip)
    setEntry ip { ref := e.ref - 1, valid := false, ip := inode }
  else
    setEntry ip (e.withRef (e.ref - 1))

def dirlookup (dp : InodePtr) (name : NameBuf) : NamexM (Option InodePtr) := do
  let e ← entry dp
  let r ← onStore (Code.dirlookup sb e.ip name.val)
  setEntry dp { e with ip := r.1 }
  match r.2 with
  | .error p => throw (.lookup p)
  | .ok none => pure none
  | .ok (some found) => do
      let ip ← iget found.1
      pure (some ip)

end Itable

/-! ## `namex` -/

def copyElem (s : List Nat) (name : NameBuf) : NameBuf :=
  if h : dirSiz ≤ s.length then
    ⟨s.take dirSiz, by rw [List.length_take, Nat.min_eq_left h]⟩
  else
    ⟨s ++ 0 :: name.val.drop (s.length + 1), by
      rw [List.length_append, List.length_cons, List.length_drop, name.property]
      omega⟩

def skipelem (path : List Nat) (name : NameBuf) : Option (List Nat × NameBuf) :=
  match path.dropWhile (· = slash) with
  | [] => none
  | c :: rest =>
      let s := c :: rest
      some ((s.dropWhile (· ≠ slash)).dropWhile (· = slash),
        copyElem (s.takeWhile (· ≠ slash)) name)

theorem skipelem_length {path rest : List Nat} {name elem : NameBuf}
    (h : skipelem path name = some (rest, elem)) : rest.length < path.length := by
  rw [skipelem] at h
  cases hpath : path.dropWhile (fun c => decide (c = slash)) with
  | nil =>
      rw [hpath] at h
      cases h
  | cons c cs =>
      rw [hpath] at h
      simp only [Option.some.injEq, Prod.mk.injEq] at h
      rw [← h.1]
      exact length_behind_lt hpath

section

variable (sb : Superblock)

def namexLoop (nameiparent : Bool) (ip : InodePtr) (path : List Nat) (name : NameBuf) :
    NamexM (Option InodePtr × NameBuf) :=
  match _h : skipelem path name with
  | none =>
      if nameiparent then do
        Itable.iput sb ip
        pure (none, name)
      else pure (some ip, name)
  | some (path, name) => do
      Itable.ilock sb ip
      let e ← Itable.entry ip
      if e.ip.type ≠ tDir then do
        Itable.iput sb ip
        pure (none, name)
      else if nameiparent = true ∧ path = [] then pure (some ip, name)
      else do
        match ← Itable.dirlookup sb ip name with
        | none => do
            Itable.iput sb ip
            pure (none, name)
        | some next => do
            Itable.iput sb ip
            namexLoop nameiparent next path name
termination_by path.length
decreasing_by exact skipelem_length _h

/-- A path is a string without its 0. -/
def namex (cwd : InodePtr) (path : CString) (nameiparent : Bool) (name : NameBuf) :
    NamexM (Option InodePtr × NameBuf) := do
  let ip ← if path.val.head? = some slash then Itable.iget rootIno else Itable.idup cwd
  namexLoop sb nameiparent ip path.val name

/-- `name` is not initialized. -/
def namei (cwd : InodePtr) (path : CString) (name : NameBuf) : NamexM (Option InodePtr) := do
  let r ← namex sb cwd path false name
  pure r.1

def nameiparent (cwd : InodePtr) (path : CString) (name : NameBuf) :
    NamexM (Option InodePtr × NameBuf) :=
  namex sb cwd path true name

end

end SyscallSched.Xv6.Fs.Code
