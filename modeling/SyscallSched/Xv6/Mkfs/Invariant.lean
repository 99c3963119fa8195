import Mathlib.Order.Interval.Finset.Nat
import SyscallSched.Foundation.Total
import SyscallSched.Xv6.Mkfs.Model

/-!
# The blocks of the image while it is built

`Owned s a` is about all inodes at once, whose block addresses are `a`: the blocks
they hold are those handed out so far, each held once, and the rest is zero.
`Shaped` is about one inode: it has exactly the blocks that its size needs.
`iappend` keeps both, and while it runs the inode in memory stands for the one in
the image.
-/

namespace SyscallSched.Xv6.Mkfs

open SyscallSched.Foundation SyscallSched.Xv6.Fs

def slots : Nat := ninodeblocks * ipb

def dinodeAt (sectors : Nat → Block) (inum : Nat) : Dinode :=
  getDinode (sectors (iblock inum)) (inodeOffset inum)

/-- `ceil(size / BSIZE)` -/
def blocksFor (size : Nat) : Nat := (size + (bsize - 1)) / bsize

def need (size : Nat) : Nat := blocksFor size + if ndirect < blocksFor size then 1 else 0

/-! ## Ownership -/

def share (s : Image) (a : Nat → Nat → Nat) (i : Nat) : Multiset Nat := held s.sectors (a i)

structure Owned (s : Image) (a : Nat → Nat → Nat) : Prop where
  nsect : s.nsect = fsSize
  meta_le : nmeta ≤ s.freeblock
  le : s.freeblock ≤ fsSize + 1
  owned : ∑ i ∈ Finset.range slots, share s a i = (Finset.Ico nmeta s.freeblock).val
  fresh : ∀ b, s.freeblock ≤ b → s.sectors b = zeroBlock

theorem range_cons {m n : Nat} (h : m ≤ n) :
    (Finset.Ico m (n + 1)).val = n ::ₘ (Finset.Ico m n).val := by
  have hico : Finset.Ico m (n + 1) = Finset.cons n (Finset.Ico m n) (by simp) := by
    ext b
    simp
    omega
  rw [hico, Finset.cons_val]

namespace Owned

variable {s s' : Image} {a a' : Nat → Nat → Nat} {i inum j k b y : Nat}

theorem mem_range (h : Owned s a) (hi : i < slots) (hb : b ∈ share s a i) :
    nmeta ≤ b ∧ b < s.freeblock := by
  have hshare := share_le_sum (f := share s a) (Finset.mem_range.mpr hi)
  rw [h.owned] at hshare
  exact Finset.mem_Ico.mp (Multiset.mem_of_le hshare hb)

theorem nodup (h : Owned s a) :
    (∑ i ∈ Finset.range slots, share s a i).Nodup := by
  rw [h.owned]
  exact (Finset.Ico nmeta s.freeblock).nodup

theorem nodup_held (h : Owned s a) (hi : i < slots) : (share s a i).Nodup :=
  Multiset.nodup_of_le (share_le_sum (Finset.mem_range.mpr hi)) h.nodup

theorem disjoint (h : Owned s a) (hi : i < slots) (hj : j < slots) (hij : i ≠ j)
    (hb : b ∈ share s a i) : b ∉ share s a j :=
  Multiset.disjoint_left.mp (shares_disjoint h.nodup (Finset.mem_range.mpr hi)
    (Finset.mem_range.mpr hj) hij) hb

theorem grant (h : Owned s a) (hinum : inum < slots) (hle : s.freeblock ≤ fsSize)
    (hnsect : s'.nsect = s.nsect) (hfree : s'.freeblock = s.freeblock + 1)
    (hfresh : ∀ b, s.freeblock < b → s'.sectors b = s.sectors b)
    (hother : ∀ i, i < slots → i ≠ inum → share s' a' i = share s a i)
    (hself : share s' a' inum = s.freeblock ::ₘ share s a inum) :
    Owned s' a' := by
  constructor
  case nsect => rw [hnsect, h.nsect]
  case meta_le =>
    rw [hfree]
    exact Nat.le_succ_of_le h.meta_le
  case le =>
    rw [hfree]
    exact Nat.succ_le_succ hle
  case owned =>
    have hsum := sum_change_share (f := share s a) (g := share s' a')
      (Finset.mem_range.mpr hinum) fun i hi hne => hother i (Finset.mem_range.mp hi) hne
    rw [hself, Multiset.add_cons, ← Multiset.cons_add] at hsum
    rw [add_right_cancel hsum, h.owned, hfree, range_cons h.meta_le]
  case fresh =>
    intro b hb
    rw [hfree] at hb
    rw [hfresh b hb]
    exact h.fresh b (Nat.le_of_succ_le hb)

theorem freeblock_ne_zero (h : Owned s a) : s.freeblock ≠ 0 := by
  have hle := h.meta_le
  have hmeta : nmeta = 46 := by decide
  omega

theorem grantAddr (h : Owned s a) (hinum : inum < slots) (hle : s.freeblock ≤ fsSize)
    (hj : j ≤ ndirect) (hfree : a inum j = 0) :
    Owned { s with freeblock := s.freeblock + 1 }
      (Function.update a inum (Function.update (a inum) j s.freeblock)) := by
  apply h.grant hinum hle
  case hnsect => rfl
  case hfree => rfl
  case hfresh =>
    intro b _
    rfl
  case hother =>
    intro i _ hi
    simp [share, hi]
  case hself =>
    rw [share, Function.update_self, share]
    cases Nat.lt_or_eq_of_le hj with
    | inl hlt => exact held_setDirect hlt hfree h.freeblock_ne_zero
    | inr heq =>
        rw [heq] at hfree ⊢
        apply held_setIndirect hfree h.freeblock_ne_zero
        intro k _
        rw [h.fresh _ (Nat.le_refl _)]
        rfl

theorem grantEntry (h : Owned s a) (hinum : inum < slots) (hle : s.freeblock ≤ fsSize)
    (hy : a inum ndirect = y) (hy0 : y ≠ 0) (hk : k < nindirect)
    (hfree : (s.sectors y).word k = 0) (hnsect : s'.nsect = s.nsect)
    (hcount : s'.freeblock = s.freeblock + 1)
    (hsectors : s'.sectors = Function.update s.sectors y ((s.sectors y).setWord k s.freeblock)) :
    Owned s' a := by
  subst hy
  have hmem : a inum ndirect ∈ share s a inum := indirect_mem_held hy0
  have hlt : s.freeblock < 2 ^ 32 := by
    have hsize : fsSize = 2000 := rfl
    omega
  apply h.grant hinum hle hnsect hcount
  case hfresh =>
    intro b hb
    have hy := (h.mem_range hinum hmem).2
    rw [hsectors, Function.update_of_ne (by omega)]
  case hother =>
    intro i hi hne
    apply held_congr
    intro hi0 k _
    have hother : a i ndirect ≠ a inum ndirect := by
      intro heq
      apply h.disjoint hinum hi hne.symm hmem
      rw [← heq]
      exact indirect_mem_held hi0
    rw [hsectors, Function.update_of_ne hother]
  case hself =>
    apply held_setEntry hy0 hk hfree h.freeblock_ne_zero hlt
    rw [hsectors, Function.update_self]

end Owned

/-! ## The shape of one inode -/

structure Shaped (sectors : Nat → Block) (d : Dinode) : Prop where
  fits : d.Fits
  size_le : d.size ≤ maxFile * bsize
  filled : ∀ fbn, fbn < maxFile →
    (blockAt sectors d.addrs fbn ≠ 0 ↔ fbn < blocksFor d.size)
  indirect : d.addrs ndirect ≠ 0 ↔ ndirect < blocksFor d.size

theorem Shaped.congr {sectors sectors' : Nat → Block} {d : Dinode} (h : Shaped sectors d)
    (hsectors : d.addrs ndirect ≠ 0 → ∀ k, k < nindirect →
      (sectors' (d.addrs ndirect)).word k = (sectors (d.addrs ndirect)).word k) :
    Shaped sectors' d := by
  constructor
  case fits => exact h.fits
  case size_le => exact h.size_le
  case filled =>
    intro fbn hfbn
    rw [blockAt_congr hsectors hfbn]
    exact h.filled fbn hfbn
  case indirect => exact h.indirect

structure InBlock (off n : Nat) : Prop where
  pos : 0 < n
  le : n ≤ (off / bsize + 1) * bsize - off

theorem InBlock.blocksFor_add {off n : Nat} (h : InBlock off n) :
    blocksFor (off + n) = off / bsize + 1 := by
  have hpos := h.pos
  have hle := h.le
  simp only [blocksFor, bsize] at *
  omega

theorem blocksFor_ge (off : Nat) :
    off / bsize ≤ blocksFor off ∧ blocksFor off ≤ off / bsize + 1 := by
  simp only [blocksFor, bsize]
  omega

theorem blocksFor_mono {m n : Nat} (h : m ≤ n) : blocksFor m ≤ blocksFor n :=
  Nat.div_le_div_right (Nat.add_le_add_right h _)

theorem need_mono {m n : Nat} (h : m ≤ n) : need m ≤ need n := by
  have hmono := blocksFor_mono h
  simp only [need]
  split <;> split <;> omega

theorem Shaped.extend {sectors sectors' : Nat → Block} {din din' : Dinode} {off n : Nat}
    (h : Shaped sectors { din with size := off }) (hn : InBlock off n)
    (hfbn : off / bsize < maxFile) (hfits : Dinode.Fits { din' with size := off + n })
    (hother : ∀ j, j < maxFile → j ≠ off / bsize →
      blockAt sectors' din'.addrs j = blockAt sectors din.addrs j)
    (hself : blockAt sectors' din'.addrs (off / bsize) ≠ 0)
    (hind : din'.addrs ndirect ≠ 0 ↔ ndirect ≤ off / bsize) :
    Shaped sectors' { din' with size := off + n } := by
  have hcount := hn.blocksFor_add
  have hold := blocksFor_ge off
  constructor
  case fits => exact hfits
  case size_le =>
    have hle := hn.le
    simp only [bsize] at *
    omega
  case filled =>
    intro j hj
    change blockAt sectors' din'.addrs j ≠ 0 ↔ j < blocksFor (off + n)
    by_cases heq : j = off / bsize
    · rw [heq, hcount]
      exact iff_of_true hself (Nat.lt_succ_self _)
    · have hfilled := h.filled j hj
      simp only at hfilled
      rw [hother j hj heq, hfilled]
      omega
  case indirect =>
    change din'.addrs ndirect ≠ 0 ↔ ndirect < blocksFor (off + n)
    rw [hcount, hind]
    omega

end SyscallSched.Xv6.Mkfs
