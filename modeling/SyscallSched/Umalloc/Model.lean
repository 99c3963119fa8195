import Mathlib.Algebra.Group.Nat.Defs
import SyscallSched.Foundation.Total

/-!
# The allocator of user programs (`umalloc.c`)

Addresses count bytes and a `Header` takes 16 of them.  Headers that are in use do
not overlap, so they are kept by their address.  What `sbrk` returns may depend on how
often it was called, on the regions that it gave out and on the size.  `freep` is 0
before the first `malloc`.  The functions that loop take fuel.
-/

namespace SyscallSched.Umalloc

structure Header where
  ptr : Nat
  size : Nat
  deriving Repr

def sizeofHeader : Nat := 16

structure Region where
  start : Nat
  bytes : Nat
  deriving DecidableEq, Repr

structure Heap where
  header : Nat → Header
  freep : Nat
  regions : List Region
  /-- how often `sbrk` was called -/
  calls : Nat

/-- `none` stands for -1. -/
abbrev Sbrk := Nat → List Region → Nat → Option Nat

inductive Stuck where
  | outOfFuel
  deriving DecidableEq, Repr

abbrev HeapM := StateT Heap (Except Stuck)

def setPtr (p ptr : Nat) : HeapM Unit :=
  modify fun h =>
    { h with header := fun a => if a = p then { h.header a with ptr } else h.header a }

def setSize (p size : Nat) : HeapM Unit :=
  modify fun h =>
    { h with header := fun a => if a = p then { h.header a with size } else h.header a }

def setFreep (p : Nat) : HeapM Unit := modify fun h => { h with freep := p }

def Heap.blockEnd (h : Heap) (p : Nat) : Nat := p + sizeofHeader * (h.header p).size

def freeSearch (bp : Nat) : Nat → Nat → HeapM Nat
  | 0, _ => throw .outOfFuel
  | fuel + 1, p => do
      let h ← get
      let next := (h.header p).ptr
      if bp > p ∧ bp < next then
        pure p
      else if p ≥ next ∧ (bp > p ∨ bp < next) then
        pure p
      else
        freeSearch bp fuel next

/-- A sum of sizes is a `uint`. -/
def addSize (m n : Nat) : Nat := (m + n) % 2 ^ 32

def joinNext (bp p : Nat) : HeapM Unit := do
  let h ← get
  let next := (h.header p).ptr
  if h.blockEnd bp = next then do
    setSize bp (addSize (h.header bp).size (h.header next).size)
    setPtr bp (h.header next).ptr
  else
    setPtr bp next

def joinPrev (bp p : Nat) : HeapM Unit := do
  let h ← get
  if h.blockEnd p = bp then do
    setSize p (addSize (h.header p).size (h.header bp).size)
    setPtr p (h.header bp).ptr
  else
    setPtr p bp

def free (fuel ap : Nat) : HeapM Unit := do
  let bp := ap - sizeofHeader
  let h ← get
  let p ← freeSearch bp fuel h.freep
  joinNext bp p
  joinPrev bp p
  setFreep p

section

variable (sbrk : Sbrk) (base : Nat)

def callSbrk (n : Nat) : HeapM (Option Nat) := do
  let h ← get
  match sbrk h.calls h.regions n with
  | none => do
      set { h with calls := h.calls + 1 }
      pure none
  | some p => do
      set { h with calls := h.calls + 1, regions := h.regions ++ [Region.mk p n] }
      pure (some p)

/-- `nu` less than 4096 is taken for 4096. -/
def coreUnits (nu : Nat) : Nat := if nu < 4096 then 4096 else nu

def morecore (fuel nu : Nat) : HeapM Nat := do
  match ← callSbrk sbrk (coreUnits nu * sizeofHeader) with
  | none => pure 0
  | some hp => do
      setSize hp (coreUnits nu)
      free fuel (hp + sizeofHeader)
      let h ← get
      pure h.freep

/-- What `malloc` does with a block that is large enough. -/
def carve (nunits prevp p : Nat) : HeapM Nat := do
  let h ← get
  let size := (h.header p).size
  if size = nunits then do
    setPtr prevp (h.header p).ptr
    setFreep prevp
    pure (p + sizeofHeader)
  else do
    setSize p (size - nunits)
    let q := p + sizeofHeader * (size - nunits)
    setSize q nunits
    setFreep prevp
    pure (q + sizeofHeader)

def mallocLoop (nunits : Nat) : Nat → Nat → Nat → HeapM Nat
  | 0, _, _ => throw .outOfFuel
  | fuel + 1, prevp, p => do
      let h ← get
      if (h.header p).size ≥ nunits then
        carve nunits prevp p
      else if p = h.freep then do
        let p ← morecore sbrk fuel nunits
        if p = 0 then
          pure 0
        else do
          let h ← get
          mallocLoop nunits fuel p (h.header p).ptr
      else
        mallocLoop nunits fuel p (h.header p).ptr

def unitsFor (nbytes : Nat) : Nat :=
  ((nbytes + sizeofHeader - 1) / sizeofHeader + 1) % 2 ^ 32

/-- Zero stands for the null pointer. -/
def malloc (fuel nbytes : Nat) : HeapM Nat := do
  let h ← get
  if h.freep = 0 then do
    setFreep base
    setPtr base base
    setSize base 0
  else
    pure ()
  let h ← get
  mallocLoop sbrk (unitsFor nbytes) fuel h.freep (h.header h.freep).ptr

/-! ## Runs -/

structure Live where
  ap : Nat
  nbytes : Nat
  deriving DecidableEq, Repr

structure World where
  heap : Heap
  live : List Live

inductive Op where
  | malloc (nbytes : Nat)
  | free (ap : Nat)
  /-- the program writes into its block at `ap` -/
  | store (ap : Nat) (content : Nat → Header)

/-- The program frees and writes only what it has, and asks for less than 2³¹ bytes. -/
def Op.Allowed (live : List Live) : Op → Prop
  | .malloc nbytes => nbytes < 2 ^ 32 ∧ unitsFor nbytes * sizeofHeader < 2 ^ 31
  | .free ap => ∃ block ∈ live, block.ap = ap
  | .store ap _ => ∃ block ∈ live, block.ap = ap

instance (live : List Live) (op : Op) : Decidable (op.Allowed live) :=
  match op with
  | .malloc _ => inferInstanceAs (Decidable (_ ∧ _))
  | .free ap => inferInstanceAs (Decidable (∃ block ∈ live, block.ap = ap))
  | .store ap _ => inferInstanceAs (Decidable (∃ block ∈ live, block.ap = ap))

/-- The headers that lie in the block behind its own. -/
def Heap.write (h : Heap) (bp : Nat) (content : Nat → Header) : Heap :=
  { h with header := fun a => if bp < a ∧ a < h.blockEnd bp then content a else h.header a }

def Op.run (fuel : Nat) (w : World) : Op → Except Stuck World
  | .malloc nbytes =>
      match Umalloc.malloc sbrk base fuel nbytes w.heap with
      | .error e => .error e
      | .ok (ap, heap) =>
          .ok { heap, live := if ap = 0 then w.live else ⟨ap, nbytes⟩ :: w.live }
  | .free ap =>
      match Umalloc.free fuel ap w.heap with
      | .error e => .error e
      | .ok (_, heap) => .ok { heap, live := w.live.filter fun block => block.ap ≠ ap }
  | .store ap content => .ok { w with heap := w.heap.write (ap - sizeofHeader) content }

def step (fuel : Nat) (w : World) (op : Op) : Except Stuck World :=
  if op.Allowed w.live then op.run sbrk base fuel w else .ok w

/-- Nothing was allocated yet; `header` is what lies in memory. -/
def World.start (header : Nat → Header) : World where
  heap := { header, freep := 0, regions := [], calls := 0 }
  live := []

def run (fuel : Nat) (header : Nat → Header) (ops : List Op) : Except Stuck World :=
  ops.foldlM (step sbrk base fuel) (World.start header)

end

end SyscallSched.Umalloc
