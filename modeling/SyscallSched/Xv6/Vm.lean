import SyscallSched.Xv6.Memory

/-!
# User page tables (`vm.c`)

A `pte_t *` is the page it lies in and its index there.  A `for` loop over
pages is a recursion on the number of its remaining iterations.
-/

namespace SyscallSched.Xv6

structure PteAddr where
  table : Nat
  index : Nat
  deriving DecidableEq, Repr

def loadPte (pte : PteAddr) : MemM Nat := load pte.table pte.index

def storePte (pte : PteAddr) (w : Nat) : MemM Unit := store pte.table pte.index w

/-! ## Walking -/

def walkLevel (va : Nat) (alloc : Bool) : Nat → Nat → MemM (Option PteAddr)
  | 0, pagetable => pure (some ⟨pagetable, px 0 va⟩)
  | level + 1, pagetable => do
      let pte ← load pagetable (px (level + 1) va)
      if pte &&& pteV ≠ 0 then
        walkLevel va alloc level (pte2pa pte)
      else if alloc then do
        match ← kalloc with
        | none => pure none
        | some page => do
            memset page 0
            store pagetable (px (level + 1) va) (pa2pte page ||| pteV)
            walkLevel va alloc level page
      else
        pure none

def walk (pagetable va : Nat) (alloc : Bool) : MemM (Option PteAddr) :=
  if maxVa ≤ va then
    throw .walk
  else
    walkLevel va alloc 2 pagetable

def walkaddr (pagetable va : Nat) : MemM Nat :=
  if maxVa ≤ va then
    pure 0
  else do
    match ← walk pagetable va false with
    | none => pure 0
    | some pte => do
        let e ← loadPte pte
        if e &&& pteV = 0 ∨ e &&& pteU = 0 then
          pure 0
        else
          pure (pte2pa e)

/-! ## Mapping and unmapping -/

def mapLoop (pagetable perm : Nat) : Nat → Nat → Nat → MemM Bool
  | 0, _, _ => pure true
  | n + 1, a, pa => do
      match ← walk pagetable a true with
      | none => pure false
      | some pte => do
          let e ← loadPte pte
          if e &&& pteV ≠ 0 then
            throw .mappagesRemap
          else do
            storePte pte (pa2pte pa ||| perm ||| pteV)
            mapLoop pagetable perm n (a + pgSize) ((pa + pgSize) % 2 ^ 64)

/-- `true` stands for the result 0, `false` for -1. -/
def mappages (pagetable va size pa perm : Nat) : MemM Bool :=
  if va % pgSize ≠ 0 then
    throw .mappagesVaNotAligned
  else if size % pgSize ≠ 0 then
    throw .mappagesSizeNotAligned
  else if size = 0 then
    throw .mappagesSize
  else
    mapLoop pagetable perm (size / pgSize) va pa

variable [Image]

def unmapLoop (pagetable : Nat) (doFree : Bool) : Nat → Nat → MemM Unit
  | 0, _ => pure ()
  | n + 1, a => do
      match ← walk pagetable a false with
      | none => throw .uvmunmapWalk
      | some pte => do
          let e ← loadPte pte
          if e &&& pteV = 0 then
            throw .uvmunmapNotMapped
          else if pteFlags e = pteV then
            throw .uvmunmapNotALeaf
          else do
            when doFree (kfree (pte2pa e))
            storePte pte 0
            unmapLoop pagetable doFree n (a + pgSize)

def uvmunmap (pagetable va npages : Nat) (doFree : Bool) : MemM Unit :=
  if va % pgSize ≠ 0 then
    throw .uvmunmapNotAligned
  else
    unmapLoop pagetable doFree
      (pageSteps va ((va + npages * pgSize) % 2 ^ 64)) va

def uvmcreate : MemM (Option Nat) := do
  match ← kalloc with
  | none => pure none
  | some pagetable => do
      memset pagetable 0
      pure (some pagetable)

def uvmfirst (pagetable : Nat) (src : List Nat) : MemM Unit :=
  if pgSize ≤ src.length then
    throw .uvmfirstMoreThanAPage
  else do
    match ← kalloc with
    | none => throw .kerneltrap
    | some mem => do
        memset mem 0
        let _ ← mappages pagetable 0 pgSize mem (pteW ||| pteR ||| pteX ||| pteU)
        memmove mem 0 src

/-! ## Growing and shrinking -/

def uvmdealloc (pagetable oldsz newsz : Nat) : MemM Nat :=
  if oldsz ≤ newsz then
    pure oldsz
  else do
    when (pgRoundUp newsz < pgRoundUp oldsz)
      (uvmunmap pagetable (pgRoundUp newsz)
        ((pgRoundUp oldsz - pgRoundUp newsz) / pgSize) true)
    pure newsz

def allocLoop (pagetable oldsz newsz xperm : Nat) : Nat → Nat → MemM Nat
  | 0, _ => pure newsz
  | n + 1, a => do
      match ← kalloc with
      | none => do
          let _ ← uvmdealloc pagetable a oldsz
          pure 0
      | some mem => do
          memset mem 0
          let mapped ← mappages pagetable a pgSize mem (pteR ||| pteU ||| xperm)
          if mapped then
            allocLoop pagetable oldsz newsz xperm n (a + pgSize)
          else do
            kfree mem
            let _ ← uvmdealloc pagetable a oldsz
            pure 0

def uvmalloc (pagetable oldsz newsz xperm : Nat) : MemM Nat :=
  if newsz < oldsz then
    pure oldsz
  else
    allocLoop pagetable (pgRoundUp oldsz) newsz xperm
      (pageSteps (pgRoundUp oldsz) newsz) (pgRoundUp oldsz)

/-! ## Freeing a table -/

/-- The body of the loop of `freewalk`, given the recursive call. -/
def freeEntry (descend : Nat → MemM Unit) (pagetable i : Nat) : MemM Unit := do
  let pte ← load pagetable i
  if pte &&& pteV ≠ 0 ∧ pte &&& (pteR ||| pteW ||| pteX) = 0 then do
    descend (pte2pa pte)
    store pagetable i 0
  else if pte &&& pteV ≠ 0 then
    throw .freewalkLeaf
  else
    pure ()

/-- The first argument bounds the depth of the recursion by the kernel stack. -/
def freewalk : Nat → Nat → MemM Unit
  | 0, _ => throw .kerneltrap
  | depth + 1, pagetable => do
      forM (List.range 512) (freeEntry (freewalk depth) pagetable)
      kfree pagetable

def stackDepth : Nat := 64

def uvmfree (pagetable sz : Nat) : MemM Unit := do
  when (0 < sz) (uvmunmap pagetable 0 (pgRoundUp sz / pgSize) true)
  freewalk stackDepth pagetable

/-! ## Copying -/

def copyLoop (old new : Nat) : Nat → Nat → MemM Bool
  | 0, _ => pure true
  | n + 1, i => do
      match ← walk old i false with
      | none => throw .uvmcopyPteShouldExist
      | some pte => do
          let e ← loadPte pte
          if e &&& pteV = 0 then
            throw .uvmcopyPageNotPresent
          else do
            match ← kalloc with
            | none => do
                uvmunmap new 0 (i / pgSize) true
                pure false
            | some mem => do
                copyPage mem (pte2pa e)
                let mapped ← mappages new i pgSize mem (pteFlags e)
                if mapped then
                  copyLoop old new n (i + pgSize)
                else do
                  kfree mem
                  uvmunmap new 0 (i / pgSize) true
                  pure false

def uvmcopy (old new sz : Nat) : MemM Bool :=
  copyLoop old new (pageSteps 0 sz) 0

omit [Image]

def uvmclear (pagetable va : Nat) : MemM Unit := do
  match ← walk pagetable va false with
  | none => throw .uvmclear
  | some pte => do
      let e ← loadPte pte
      storePte pte (e ^^^ (e &&& pteU))

/-- The loop of `copyout`; every iteration copies at least one byte, so its
first argument never runs out before `src` does. -/
def copyoutLoop (pagetable : Nat) : Nat → Nat → List Nat → MemM Bool
  | 0, _, _ => pure true
  | fuel + 1, dstva, src =>
      if src = [] then
        pure true
      else if maxVa ≤ pgRoundDown dstva then
        pure false
      else do
        match ← walk pagetable (pgRoundDown dstva) false with
        | none => pure false
        | some pte => do
            let e ← loadPte pte
            if e &&& pteV = 0 ∨ e &&& pteU = 0 ∨ e &&& pteW = 0 then
              pure false
            else do
              let n := min (pgSize - (dstva - pgRoundDown dstva)) src.length
              memmove (pte2pa e) (dstva - pgRoundDown dstva) (src.take n)
              copyoutLoop pagetable fuel (pgRoundDown dstva + pgSize) (src.drop n)

def copyout (pagetable dstva : Nat) (src : List Nat) : MemM Bool :=
  copyoutLoop pagetable src.length dstva src

end SyscallSched.Xv6
