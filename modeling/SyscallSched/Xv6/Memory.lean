import Mathlib.Algebra.Order.Ring.Int
import Mathlib.Data.Nat.Bitwise
import SyscallSched.Foundation.Total

/-!
# Physical memory and its allocator (`kalloc.c`, `riscv.h`, `memlayout.h`)

A physical page is named by its address and holds 512 words of 64 bits.  The
free list is kept as a list of page addresses rather than threaded through the
first words of the free pages.

`refreed` is not kernel data: it records the pages that were handed to `kfree`
while they were already on the free list.
-/

namespace SyscallSched.Xv6

/-! ## Layout -/

def pgSize : Nat := 4096
def kernBase : Nat := 0x80000000
def physTop : Nat := kernBase + 128 * 1024 * 1024
def maxVa : Nat := 2 ^ 38
def trampolineVa : Nat := maxVa - pgSize
def trapframeVa : Nat := trampolineVa - pgSize

def pteV : Nat := 1
def pteR : Nat := 2
def pteW : Nat := 4
def pteX : Nat := 8
def pteU : Nat := 16

def pa2pte (pa : Nat) : Nat := (pa >>> 12) <<< 10
def pte2pa (pte : Nat) : Nat := ((pte >>> 10) <<< 12) % 2 ^ 64
def pteFlags (pte : Nat) : Nat := pte &&& 0x3FF

def px (level va : Nat) : Nat := (va >>> (12 + 9 * level)) &&& 0x1FF

def pgRoundUp (sz : Nat) : Nat := (sz + pgSize - 1) % 2 ^ 64 / pgSize * pgSize
def pgRoundDown (a : Nat) : Nat := a / pgSize * pgSize

/-- How often the body of `for(; a < b; a += PGSIZE)` runs. -/
def pageSteps (a b : Nat) : Nat := (b - a + (pgSize - 1)) / pgSize

/-- The addresses that the linker script gives to the kernel's symbols. -/
class Image where
  /-- `end`, the first address after the kernel -/
  kernelEnd : Nat
  trampoline : Nat
  forkret : Nat
  kernBase_le : kernBase ≤ kernelEnd
  kernelEnd_le : kernelEnd ≤ physTop
  trampoline_lt : trampoline < kernelEnd
  trampoline_aligned : trampoline % pgSize = 0

inductive Panic where
  | kfree
  | walk
  | mappagesVaNotAligned
  | mappagesSizeNotAligned
  | mappagesSize
  | mappagesRemap
  | uvmunmapNotAligned
  | uvmunmapWalk
  | uvmunmapNotMapped
  | uvmunmapNotALeaf
  | uvmfirstMoreThanAPage
  | freewalkLeaf
  | uvmcopyPteShouldExist
  | uvmcopyPageNotPresent
  | uvmclear
  | loadsegAddressShouldExist
  | filedup
  | fileclose
  | initExiting
  /-- a fault in the kernel itself: a null pointer, or a kernel stack that ran over -/
  | kerneltrap
  deriving DecidableEq, Repr

/-! ## Memory -/

structure Mem where
  freelist : List Nat
  page : Nat → Nat → Nat
  refreed : List Nat

namespace Mem

def setPage (m : Mem) (pa : Nat) (words : Nat → Nat) : Mem :=
  { m with page := fun q => if q = pa then words else m.page q }

def setWord (m : Mem) (pa i w : Nat) : Mem :=
  m.setPage pa fun j => if j = i then w else m.page pa j

def setByte (w i b : Nat) : Nat :=
  w - w / 256 ^ i % 256 * 256 ^ i + b % 256 * 256 ^ i

def writeBytes (m : Mem) (pa : Nat) : Nat → List Nat → Mem
  | _, [] => m
  | off, b :: bs =>
      (m.setWord pa (off / 8) (setByte (m.page pa (off / 8)) (off % 8) b)).writeBytes
        pa (off + 1) bs

theorem setPage_page_self (m : Mem) (pa : Nat) (words : Nat → Nat) :
    (m.setPage pa words).page pa = words := by
  simp [setPage]

theorem setPage_page_ne (m : Mem) {pa q : Nat} (words : Nat → Nat) (h : q ≠ pa) :
    (m.setPage pa words).page q = m.page q := by
  simp [setPage, h]

theorem setWord_page_self (m : Mem) (pa i w j : Nat) :
    (m.setWord pa i w).page pa j = if j = i then w else m.page pa j := by
  simp [setWord, setPage]

theorem setWord_page_ne (m : Mem) {pa q : Nat} (i w : Nat) (h : q ≠ pa) :
    (m.setWord pa i w).page q = m.page q :=
  m.setPage_page_ne _ h

end Mem

abbrev MemM := StateT Mem (Except Panic)

def when (c : Prop) [Decidable c] (x : MemM Unit) : MemM Unit :=
  if c then x else pure ()

def load (pa i : Nat) : MemM Nat := do
  pure ((← get).page pa i)

def store (pa i w : Nat) : MemM Unit :=
  modify fun m => m.setWord pa i w

def memset (pa c : Nat) : MemM Unit :=
  modify fun m => m.setPage pa fun _ => c * 0x0101010101010101

def copyPage (dst src : Nat) : MemM Unit :=
  modify fun m => m.setPage dst (m.page src)

/-- `memmove` of bytes that stay within the page `pa`. -/
def memmove (pa off : Nat) (src : List Nat) : MemM Unit :=
  modify fun m => m.writeBytes pa off src

/-! ## The allocator -/

section

variable [Image]

def kfree (pa : Nat) : MemM Unit :=
  if pa % pgSize ≠ 0 ∨ pa < Image.kernelEnd ∨ physTop ≤ pa then
    throw .kfree
  else do
    memset pa 1
    modify fun m =>
      { m with
        freelist := pa :: m.freelist
        refreed := if pa ∈ m.freelist then pa :: m.refreed else m.refreed }

end

def kalloc : MemM (Option Nat) := do
  match (← get).freelist with
  | [] => pure none
  | r :: rest => do
      modify fun m => { m with freelist := rest }
      memset r 5
      pure (some r)

end SyscallSched.Xv6

/-!
## Page-table entries as words

An entry is a frame number above ten flag bits.  `Frame pa` is what `kfree`
checks of its argument: the pages that the allocator deals in.
-/

namespace SyscallSched.Xv6

abbrev Present (e : Nat) : Prop := e &&& pteV ≠ 0

/-- The entry has one of `PTE_R`, `PTE_W`, `PTE_X`: it maps a page. -/
abbrev Maps (e : Nat) : Prop := e &&& (pteR ||| pteW ||| pteX) ≠ 0

theorem shiftLeft_and_of_lt {x n c : Nat} (hc : c < 2 ^ n) : (x <<< n) &&& c = 0 := by
  apply Nat.eq_of_testBit_eq
  intro i
  simp only [Nat.testBit_and, Nat.testBit_shiftLeft, Nat.zero_testBit]
  cases hi : decide (n ≤ i) with
  | false => simp
  | true =>
      have hci : c.testBit i = false := by
        apply Nat.testBit_lt_two_pow
        exact hc.trans_le (Nat.pow_le_pow_right (by decide) (of_decide_eq_true hi))
      simp [hci]

theorem pa2pte_or_and {pa f c : Nat} (hc : c < 1024) :
    (pa2pte pa ||| f) &&& c = f &&& c := by
  rw [Nat.and_or_distrib_right, pa2pte, shiftLeft_and_of_lt (n := 10) hc, Nat.zero_or]

theorem pte2pa_or {pa f : Nat} (hpa : pa % pgSize = 0) (hlt : pa < 2 ^ 64)
    (hf : f < 1024) : pte2pa (pa2pte pa ||| f) = pa := by
  have hor : pa2pte pa ||| f = pa2pte pa + f := by
    rw [pa2pte, Nat.shiftLeft_add_eq_or_of_lt (i := 10) hf]
  rw [hor]
  simp only [pa2pte, pte2pa, pgSize, Nat.shiftLeft_eq, Nat.shiftRight_eq_div_pow] at *
  omega

variable {pa perm : Nat}

theorem present_node : Present (pa2pte pa ||| pteV) := by
  rw [Present, pa2pte_or_and (by decide)]
  decide

theorem not_maps_node : ¬ Maps (pa2pte pa ||| pteV) := by
  rw [Maps, pa2pte_or_and (by decide)]
  decide

/-- The entry that `mappages` stores. -/
def leafEntry (pa perm : Nat) : Nat := pa2pte pa ||| perm ||| pteV

theorem leafEntry_and {c : Nat} (hc : c < 1024) :
    leafEntry pa perm &&& c = (perm ||| pteV) &&& c := by
  rw [leafEntry, Nat.or_assoc, pa2pte_or_and hc]

theorem present_leafEntry : Present (leafEntry pa perm) := by
  rw [Present, leafEntry_and (by decide)]
  intro h
  have hbit := congrArg (fun x => Nat.testBit x 0) h
  simp [pteV] at hbit

theorem maps_leafEntry (h : Maps perm) : Maps (leafEntry pa perm) := by
  rw [Maps, leafEntry_and (by decide), Nat.and_or_distrib_right]
  intro h0
  exact h (Nat.or_eq_zero_iff.mp h0).1

theorem leafEntry_user : leafEntry pa perm &&& pteU = perm &&& pteU := by
  rw [leafEntry_and (by decide), Nat.and_or_distrib_right]
  simp [pteU, pteV]

theorem flags_ne_of_maps {e : Nat} (h : Maps e) : pteFlags e ≠ pteV := by
  intro hflags
  apply h
  have hsub : (pteR ||| pteW ||| pteX) = 0x3FF &&& (pteR ||| pteW ||| pteX) := by decide
  rw [hsub, ← Nat.and_assoc]
  change pteFlags e &&& (pteR ||| pteW ||| pteX) = 0
  rw [hflags]
  decide

theorem pteFlags_lt (e : Nat) : pteFlags e < 1024 :=
  Nat.and_lt_two_pow (n := 10) e (by decide)

theorem pteFlags_leafEntry (hperm : perm < 1024) :
    pteFlags (leafEntry pa perm) = perm ||| pteV := by
  rw [pteFlags, leafEntry_and (by decide)]
  exact Nat.and_two_pow_sub_one_of_lt_two_pow (n := 10)
    (Nat.or_lt_two_pow hperm (by decide))

theorem pteFlags_copied {e : Nat} (h : Present e) :
    pteFlags (leafEntry pa (pteFlags e)) = pteFlags e := by
  have hodd : e % 2 = 1 := by
    rw [Present, pteV, Nat.and_one_is_mod] at h
    omega
  rw [pteFlags_leafEntry (pteFlags_lt e)]
  apply Nat.eq_of_testBit_eq
  intro i
  rw [Nat.testBit_or]
  cases i with
  | zero => simp [pteFlags, hodd]
  | succ i => simp [pteV, Nat.testBit_succ]

theorem pteFlags_and {e c : Nat} (hc : c &&& 0x3FF = c) : pteFlags e &&& c = e &&& c := by
  rw [pteFlags, Nat.and_assoc, Nat.and_comm 0x3FF, hc]

theorem clear_user_and {e c : Nat} (hc : pteU &&& c = 0) :
    (e ^^^ (e &&& pteU)) &&& c = e &&& c := by
  rw [Nat.and_xor_distrib_right, Nat.and_assoc, hc, Nat.and_zero, Nat.xor_zero]

theorem clear_user_pa {e : Nat} : pte2pa (e ^^^ (e &&& pteU)) = pte2pa e := by
  have hshift : (e ^^^ (e &&& pteU)) >>> 10 = e >>> 10 := by
    rw [Nat.shiftRight_xor_distrib, Nat.shiftRight_and_distrib]
    simp [pteU]
  rw [pte2pa, hshift, pte2pa]

section

variable [Image]

def Frame (pa : Nat) : Prop :=
  pa % pgSize = 0 ∧ Image.kernelEnd ≤ pa ∧ pa < physTop

theorem Frame.lt (h : Frame pa) : pa < 2 ^ 64 :=
  h.2.2.trans (by decide)

theorem pte2pa_node (h : Frame pa) : pte2pa (pa2pte pa ||| pteV) = pa :=
  pte2pa_or h.1 h.lt (by decide)

theorem pte2pa_leafEntry (h : Frame pa) (hperm : perm < 1024) :
    pte2pa (leafEntry pa perm) = pa := by
  rw [leafEntry, Nat.or_assoc]
  exact pte2pa_or h.1 h.lt (Nat.or_lt_two_pow (n := 10) hperm (by decide))

end

/-! ## Addresses and page numbers -/

theorem px_eq (level va : Nat) : px level va = va / pgSize / 512 ^ level % 512 := by
  have hpow : 2 ^ (12 + 9 * level) = 4096 * 512 ^ level := by
    rw [Nat.pow_add, Nat.pow_mul]
  rw [px, Nat.shiftRight_eq_div_pow, hpow, ← Nat.div_div_eq_div_mul]
  exact Nat.and_two_pow_sub_one_eq_mod _ 9

theorem pageSteps_mul (v n : Nat) :
    pageSteps (v * pgSize) ((v + n) * pgSize) = n := by
  simp only [pageSteps, pgSize]
  omega

end SyscallSched.Xv6
