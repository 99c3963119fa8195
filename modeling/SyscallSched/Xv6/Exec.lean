import SyscallSched.Xv6.Vm

/-!
# Building a program's memory (`exec.c`, and `proc_pagetable` of `proc.c`)

`exec` up to the point where it commits to the new image.  A file is the list
of its bytes, a C string the list of its bytes before the NUL.
-/

namespace SyscallSched.Xv6

variable [Image]

/-! ## A process's page table -/

def procPagetable (trapframe : Nat) : MemM (Option Nat) := do
  match ← uvmcreate with
  | none => pure none
  | some pagetable => do
      let mapped ← mappages pagetable trampolineVa pgSize Image.trampoline (pteR ||| pteX)
      if mapped then do
        let mapped ← mappages pagetable trapframeVa pgSize trapframe (pteR ||| pteW)
        if mapped then
          pure (some pagetable)
        else do
          uvmunmap pagetable trampolineVa 1 false
          uvmfree pagetable 0
          pure none
      else do
        uvmfree pagetable 0
        pure none

def procFreepagetable (pagetable sz : Nat) : MemM Unit := do
  uvmunmap pagetable trampolineVa 1 false
  uvmunmap pagetable trapframeVa 1 false
  uvmfree pagetable sz

/-! ## Reading the file -/

/-- `readi` into kernel memory: the bytes it copies. -/
def readi (ip : List Nat) (off n : Nat) : List Nat :=
  if ip.length < off ∨ (off + n) % 2 ^ 32 < off then []
  else (ip.drop off).take n

/-- The little-endian number in `len` bytes from `off` on. -/
def field (bytes : List Nat) (off len : Nat) : Nat :=
  ((bytes.drop off).take len).foldr (fun b acc => b % 256 + 256 * acc) 0

def elfMagic : Nat := 0x464C457F
def sizeofElfhdr : Nat := 64
def sizeofProghdr : Nat := 56
def elfProgLoad : Nat := 1

structure Proghdr where
  type : Nat
  flags : Nat
  off : Nat
  vaddr : Nat
  filesz : Nat
  memsz : Nat

def Proghdr.ofBytes (bytes : List Nat) : Proghdr where
  type := field bytes 0 4
  flags := field bytes 4 4
  off := field bytes 8 8
  vaddr := field bytes 16 8
  filesz := field bytes 32 8
  memsz := field bytes 40 8

def flags2perm (flags : Nat) : Nat :=
  (if flags &&& 1 ≠ 0 then pteX else 0) ||| (if flags &&& 2 ≠ 0 then pteW else 0)

def loadsegLoop (pagetable va : Nat) (ip : List Nat) (offset sz : Nat) :
    Nat → Nat → MemM Bool
  | 0, _ => pure true
  | k + 1, i => do
      let pa ← walkaddr pagetable ((va + i) % 2 ^ 64)
      if pa = 0 then
        throw .loadsegAddressShouldExist
      else do
        let n := min (sz - i) pgSize
        let bytes := readi ip ((offset + i) % 2 ^ 32) n
        memmove pa 0 bytes
        if bytes.length ≠ n then
          pure false
        else
          loadsegLoop pagetable va ip offset sz k (i + pgSize)

def loadseg (pagetable va : Nat) (ip : List Nat) (offset sz : Nat) : MemM Bool :=
  loadsegLoop pagetable va ip offset sz (pageSteps 0 sz) 0

/-- The loop over the program headers; the result is whether it ran through,
and the size of what has been mapped. -/
def loadLoop (pagetable : Nat) (ip : List Nat) : Nat → Nat → Nat → MemM (Bool × Nat)
  | 0, _, sz => pure (true, sz)
  | n + 1, off, sz =>
      let bytes := readi ip off sizeofProghdr
      let ph := Proghdr.ofBytes bytes
      if bytes.length ≠ sizeofProghdr then
        pure (false, sz)
      else if ph.type ≠ elfProgLoad then
        loadLoop pagetable ip n ((off + sizeofProghdr) % 2 ^ 32) sz
      else if ph.memsz < ph.filesz then
        pure (false, sz)
      else if (ph.vaddr + ph.memsz) % 2 ^ 64 < ph.vaddr then
        pure (false, sz)
      else if ph.vaddr % pgSize ≠ 0 then
        pure (false, sz)
      else do
        let sz1 ← uvmalloc pagetable sz ((ph.vaddr + ph.memsz) % 2 ^ 64)
          (flags2perm ph.flags)
        if sz1 = 0 then
          pure (false, sz)
        else do
          let loaded ← loadseg pagetable ph.vaddr ip (ph.off % 2 ^ 32) (ph.filesz % 2 ^ 32)
          if loaded then
            loadLoop pagetable ip n ((off + sizeofProghdr) % 2 ^ 32) sz1
          else
            pure (false, sz1)

/-! ## The stack -/

def maxArg : Nat := 32
def userStack : Nat := 1

def sub64 (a b : Nat) : Nat := (a + (2 ^ 64 - b % 2 ^ 64)) % 2 ^ 64

/-- `sp -= n; sp -= sp % 16;` -/
def pushDown (sp n : Nat) : Nat := sub64 sp n - sub64 sp n % 16

/-- The loop over `argv`; `ustack` holds the addresses pushed so far. -/
def pushArgs (pagetable stackbase : Nat) :
    List (List Nat) → Nat → List Nat → MemM (Option (Nat × List Nat))
  | [], sp, ustack => pure (some (sp, ustack))
  | arg :: argv, sp, ustack =>
      if maxArg ≤ ustack.length then
        pure none
      else
        let sp' := pushDown sp (arg.length + 1)
        if sp' < stackbase then
          pure none
        else do
          let copied ← copyout pagetable sp' (arg ++ [0])
          if copied then
            pushArgs pagetable stackbase argv sp' (ustack ++ [sp'])
          else
            pure none

def wordBytes (w : Nat) : List Nat := (List.range 8).map fun i => w / 256 ^ i % 256

structure NewImage where
  pagetable : Nat
  sz : Nat
  sp : Nat
  argc : Nat
  entry : Nat

/-- From the stack pages to the argument array; on failure the result is the
size that `bad` has to free. -/
def execStack (pagetable sz entry : Nat) (argv : List (List Nat)) :
    MemM (Except Nat NewImage) := do
  let sz := pgRoundUp sz
  let sz1 ← uvmalloc pagetable sz ((sz + (userStack + 1) * pgSize) % 2 ^ 64) pteW
  if sz1 = 0 then
    pure (.error sz)
  else do
    uvmclear pagetable (sub64 sz1 ((userStack + 1) * pgSize))
    let stackbase := sub64 sz1 (userStack * pgSize)
    match ← pushArgs pagetable stackbase argv sz1 [] with
    | none => pure (.error sz1)
    | some (sp, ustack) =>
        let sp' := pushDown sp ((ustack.length + 1) * 8)
        if sp' < stackbase then
          pure (.error sz1)
        else do
          let copied ← copyout pagetable sp' ((ustack ++ [0]).flatMap wordBytes)
          if copied then
            pure (.ok ⟨pagetable, sz1, sp', ustack.length, entry⟩)
          else
            pure (.error sz1)

/-- `exec` from the ELF header to the finished image, with the unwinding at `bad`. -/
def execImage (trapframe : Nat) (ip : List Nat) (argv : List (List Nat)) :
    MemM (Option NewImage) :=
  let elf := readi ip 0 sizeofElfhdr
  if elf.length ≠ sizeofElfhdr then
    pure none
  else if field elf 0 4 ≠ elfMagic then
    pure none
  else do
    match ← procPagetable trapframe with
    | none => pure none
    | some pagetable => do
        match ← loadLoop pagetable ip (field elf 56 2) (field elf 32 8 % 2 ^ 32) 0 with
        | (false, sz) => do
            procFreepagetable pagetable sz
            pure none
        | (true, sz) => do
            match ← execStack pagetable sz (field elf 24 8) argv with
            | .error sz => do
                procFreepagetable pagetable sz
                pure none
            | .ok image => pure (some image)

end SyscallSched.Xv6
