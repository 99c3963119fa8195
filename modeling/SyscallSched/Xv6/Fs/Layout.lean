import Mathlib.Algebra.BigOperators.Group.Finset.Basic
import SyscallSched.Foundation.Ownership
import SyscallSched.Xv6.Fs.Log

/-!
# The on-disk format (`fs.h`)

The format of inodes and directory entries, and the blocks that an inode refers
to.  Sizes are those of the structures in the header: a `struct dinode` has 64
bytes and a `struct dirent` 16.
-/

namespace SyscallSched.Xv6.Fs

open SyscallSched.Foundation

def fsSize : Nat := 2000
def rootIno : Nat := 1
def ndirect : Nat := 12
def nindirect : Nat := bsize / 4
def maxFile : Nat := ndirect + nindirect
def dinodeSize : Nat := 64
/-- Inodes per block. -/
def ipb : Nat := bsize / dinodeSize
/-- Bitmap bits per block. -/
def bpb : Nat := bsize * 8
def dirSiz : Nat := 14
def direntSize : Nat := 16

def zeroBlock : Block := fun _ => 0

/-! ## Inodes -/

/-- `struct dinode`; the shorts are kept as unsigned numbers. -/
structure Dinode where
  type : Nat := 0
  major : Nat := 0
  minor : Nat := 0
  nlink : Nat := 0
  size : Nat := 0
  /-- `addrs[0 .. NDIRECT]`, zero beyond -/
  addrs : Nat → Nat := fun _ => 0

/-- The inode at byte `o` of a block. -/
def getDinode (blk : Block) (o : Nat) : Dinode :=
  { type := getLE blk o 2
    major := getLE blk (o + 2) 2
    minor := getLE blk (o + 4) 2
    nlink := getLE blk (o + 6) 2
    size := getLE blk (o + 8) 4
    addrs := fun j => if j ≤ ndirect then getLE blk (o + 12 + 4 * j) 4 else 0 }

/-- The fields before `addrs`. -/
def putHeader (d : Dinode) (o : Nat) (blk : Block) : Block :=
  setLE (setLE (setLE (setLE (setLE blk o 2 d.type) (o + 2) 2 d.major) (o + 4) 2 d.minor)
    (o + 6) 2 d.nlink) (o + 8) 4 d.size

def putDinode (d : Dinode) (o : Nat) (blk : Block) : Block :=
  setWords (putHeader d o blk) (o + 12) ((List.range (ndirect + 1)).map d.addrs)

structure Dinode.Fits (d : Dinode) : Prop where
  type : d.type < 2 ^ 16
  major : d.major < 2 ^ 16
  minor : d.minor < 2 ^ 16
  nlink : d.nlink < 2 ^ 16
  size : d.size < 2 ^ 32
  addrs : ∀ j, d.addrs j < 2 ^ 32
  beyond : ∀ j, ndirect < j → d.addrs j = 0

section

variable {d : Dinode} {blk : Block} {o o' : Nat}

theorem getLE_putDinode_header {i n : Nat} (h : i + n ≤ 12) :
    getLE (putDinode d o blk) (o + i) n = getLE (putHeader d o blk) (o + i) n :=
  getLE_setWords_of_disjoint (by omega)

theorem getLE_putDinode_of_disjoint {i n : Nat} (h : i + n ≤ o ∨ o + dinodeSize ≤ i) :
    getLE (putDinode d o blk) i n = getLE blk i n := by
  have hsize : dinodeSize = 64 := rfl
  have hdirect : ndirect = 12 := rfl
  rw [putDinode, getLE_setWords_of_disjoint (by simp; omega), putHeader]
  iterate 5 rw [getLE_setLE_of_disjoint (by omega)]

theorem getLE_putDinode_addrs {j : Nat} (hd : d.Fits) (hj : j ≤ ndirect) :
    getLE (putDinode d o blk) (o + 12 + 4 * j) 4 = d.addrs j := by
  have hlen : j < ((List.range (ndirect + 1)).map d.addrs).length := by simp; omega
  rw [putDinode, getLE_setWords hlen]
  · simp
  · simpa using hd.addrs j

theorem getDinode_putDinode (hd : d.Fits) : getDinode (putDinode d o blk) o = d := by
  have htype : getLE (putDinode d o blk) o 2 = d.type := by
    have hheader : getLE (putDinode d o blk) (o + 0) 2 = getLE (putHeader d o blk) (o + 0) 2 :=
      getLE_putDinode_header (by omega)
    rw [Nat.add_zero] at hheader
    rw [hheader, putHeader]
    iterate 4 rw [getLE_setLE_of_disjoint (by omega)]
    exact getLE_setLE_of_lt hd.type
  have hmajor : getLE (putDinode d o blk) (o + 2) 2 = d.major := by
    rw [getLE_putDinode_header (by omega), putHeader]
    iterate 3 rw [getLE_setLE_of_disjoint (by omega)]
    exact getLE_setLE_of_lt hd.major
  have hminor : getLE (putDinode d o blk) (o + 4) 2 = d.minor := by
    rw [getLE_putDinode_header (by omega), putHeader]
    iterate 2 rw [getLE_setLE_of_disjoint (by omega)]
    exact getLE_setLE_of_lt hd.minor
  have hnlink : getLE (putDinode d o blk) (o + 6) 2 = d.nlink := by
    rw [getLE_putDinode_header (by omega), putHeader, getLE_setLE_of_disjoint (by omega)]
    exact getLE_setLE_of_lt hd.nlink
  have hsize : getLE (putDinode d o blk) (o + 8) 4 = d.size := by
    rw [getLE_putDinode_header (by omega), putHeader]
    exact getLE_setLE_of_lt hd.size
  have haddrs : (fun j => if j ≤ ndirect then getLE (putDinode d o blk) (o + 12 + 4 * j) 4
      else 0) = d.addrs := by
    funext j
    by_cases hj : j ≤ ndirect
    · simp [hj, getLE_putDinode_addrs hd hj]
    · simp [hj, hd.beyond j (Nat.lt_of_not_le hj)]
  rw [getDinode, htype, hmajor, hminor, hnlink, hsize, haddrs]

theorem getDinode_putDinode_of_disjoint (h : o' + dinodeSize ≤ o ∨ o + dinodeSize ≤ o') :
    getDinode (putDinode d o blk) o' = getDinode blk o' := by
  have hsize : dinodeSize = 64 := rfl
  have hdirect : ndirect = 12 := rfl
  have haddrs : ∀ j, j ≤ ndirect → getLE (putDinode d o blk) (o' + 12 + 4 * j) 4 =
      getLE blk (o' + 12 + 4 * j) 4 := by
    intro j hj
    exact getLE_putDinode_of_disjoint (by omega)
  rw [getDinode, getDinode]
  iterate 5 rw [getLE_putDinode_of_disjoint (by omega)]
  congr 1
  funext j
  by_cases hj : j ≤ ndirect
  · simp [hj, haddrs j hj]
  · simp [hj]

end

/-! ## Bytes of a block -/

/-- `memmove(blk + o, bs, length)` -/
def putBytes (blk : Block) (o : Nat) (bs : List Nat) : Block := fun i =>
  if o ≤ i ∧ i < o + bs.length then bs.getD (i - o) 0 else blk i

/-- `(blk[bi/8] & (1 << (bi % 8))) != 0` -/
def bitAt (blk : Block) (bi : Nat) : Bool := (blk (bi / 8)).testBit (bi % 8)

/-- `blk[bi/8] |= 1 << (bi % 8)` -/
def markBit (blk : Block) (bi : Nat) : Block :=
  Function.update blk (bi / 8) (blk (bi / 8) ||| 1 <<< (bi % 8))

/-- `blk[bi/8] &= ~(1 << (bi % 8))` -/
def clearBit (blk : Block) (bi : Nat) : Block :=
  Function.update blk (bi / 8) (blk (bi / 8) &&& (0xff ^^^ 1 <<< (bi % 8)))

theorem bitAt_markBit (blk : Block) (bi bj : Nat) :
    bitAt (markBit blk bi) bj = (bitAt blk bj || decide (bj = bi)) := by
  rw [bitAt, bitAt, markBit]
  by_cases hbyte : bj / 8 = bi / 8
  · have hbit : bi % 8 = bj % 8 ↔ bj = bi := by omega
    rw [hbyte, Function.update_self, Nat.testBit_or, Nat.one_shiftLeft, Nat.testBit_two_pow]
    simp [hbit]
  · have hne : bj ≠ bi := by
      intro heq
      exact hbyte (by rw [heq])
    rw [Function.update_of_ne hbyte]
    simp [hne]

theorem bitAt_clearBit (blk : Block) (bi bj : Nat) :
    bitAt (clearBit blk bi) bj = (bitAt blk bj && decide (bj ≠ bi)) := by
  rw [bitAt, bitAt, clearBit]
  by_cases hbyte : bj / 8 = bi / 8
  · have hbit : bi % 8 = bj % 8 ↔ bj = bi := by omega
    have hmask : (255 : Nat).testBit (bj % 8) = true := by
      have hlt : bj % 8 < 8 := Nat.mod_lt _ (by decide)
      have hfull : ∀ k, k < 8 → (255 : Nat).testBit k = true := by decide
      exact hfull _ hlt
    rw [hbyte, Function.update_self, Nat.testBit_and, Nat.testBit_xor, Nat.one_shiftLeft,
      Nat.testBit_two_pow, hmask]
    simp [hbit]
  · have hne : bj ≠ bi := by
      intro heq
      exact hbyte (by rw [heq])
    rw [Function.update_of_ne hbyte]
    simp [hne]

/-- A `struct dirent` that names `inum`; the name is padded with zeros. -/
def dirent (inum : Nat) (name : List Nat) : List Nat :=
  [inum % 256, inum / 256 % 256] ++ (name ++ List.replicate dirSiz 0).take dirSiz

@[simp] theorem dirent_length (inum : Nat) (name : List Nat) :
    (dirent inum name).length = direntSize := by
  simp [dirent, dirSiz, direntSize]

/-! ## The blocks of an inode -/

/-- A block number stored in an inode or an indirect block; 0 is none. -/
def slot (b : Nat) : Multiset Nat := if b = 0 then 0 else {b}

def entries (blk : Block) : Multiset Nat := ∑ k ∈ Finset.range nindirect, slot (blk.word k)

def indirectSlots (image : Nat → Block) (b : Nat) : Multiset Nat :=
  if b = 0 then 0 else entries (image b)

/-- The block numbers held in `addrs` and in its indirect block. -/
def held (image : Nat → Block) (addrs : Nat → Nat) : Multiset Nat :=
  ∑ j ∈ Finset.range (ndirect + 1), slot (addrs j) + indirectSlots image (addrs ndirect)

/-- The number of file block `fbn`, 0 when the file has none there. -/
def blockAt (image : Nat → Block) (addrs : Nat → Nat) (fbn : Nat) : Nat :=
  if fbn < ndirect then addrs fbn
  else if addrs ndirect = 0 then 0
  else (image (addrs ndirect)).word (fbn - ndirect)

section

variable {image image' : Nat → Block} {addrs : Nat → Nat} {b j k x fbn : Nat}

@[simp] theorem slot_zero : slot 0 = 0 := rfl

theorem slot_of_ne_zero (h : b ≠ 0) : slot b = {b} := if_neg h

theorem mem_slot (h : b ≠ 0) : b ∈ slot b := by simp [slot_of_ne_zero h]

theorem sum_slot_fill {n : Nat} {f g : Nat → Nat} (hj : j < n) (hf : f j = 0) (hb : g j ≠ 0)
    (h : ∀ i, i < n → i ≠ j → g i = f i) :
    ∑ i ∈ Finset.range n, slot (g i) = g j ::ₘ ∑ i ∈ Finset.range n, slot (f i) := by
  have hsum := sum_change_share (f := fun i => slot (f i)) (g := fun i => slot (g i))
    (Finset.mem_range.mpr hj) fun i hi hij => by
      rw [h i (Finset.mem_range.mp hi) hij]
  simp only [hf, slot_zero, add_zero, slot_of_ne_zero hb] at hsum
  rw [hsum, add_comm, Multiset.singleton_add]

theorem held_setDirect (hj : j < ndirect) (hfree : addrs j = 0) (hb : b ≠ 0) :
    held image (Function.update addrs j b) = b ::ₘ held image addrs := by
  have hsum := sum_slot_fill (n := ndirect + 1) (f := addrs) (g := Function.update addrs j b)
    (Nat.lt_succ_of_lt hj) hfree (by simpa using hb)
    fun i _ hij => Function.update_of_ne hij b addrs
  rw [held, held, hsum, Function.update_of_ne (Nat.ne_of_gt hj), Function.update_self,
    Multiset.cons_add]

theorem held_setIndirect (hfree : addrs ndirect = 0) (hb : b ≠ 0)
    (hblk : ∀ k, k < nindirect → (image b).word k = 0) :
    held image (Function.update addrs ndirect b) = b ::ₘ held image addrs := by
  have hsum := sum_slot_fill (n := ndirect + 1) (f := addrs)
    (g := Function.update addrs ndirect b) (Nat.lt_succ_self ndirect) hfree (by simpa using hb)
    fun i _ hij => Function.update_of_ne hij b addrs
  have hentries : entries (image b) = 0 := by
    apply Finset.sum_eq_zero
    intro k hk
    rw [hblk k (Finset.mem_range.mp hk), slot_zero]
  rw [held, held, hsum, Function.update_self, hfree, indirectSlots, if_neg hb, hentries,
    indirectSlots, if_pos rfl, Multiset.cons_add]

theorem held_setEntry (hx : addrs ndirect ≠ 0) (hk : k < nindirect)
    (hfree : (image (addrs ndirect)).word k = 0) (hb : b ≠ 0) (hlt : b < 2 ^ 32)
    (h : image' (addrs ndirect) = (image (addrs ndirect)).setWord k b) :
    held image' addrs = b ::ₘ held image addrs := by
  have hself : (image' (addrs ndirect)).word k = b := by
    rw [h, Block.word_setWord_self _ hlt]
  have hsum := sum_slot_fill (n := nindirect) (f := fun i => (image (addrs ndirect)).word i)
    (g := fun i => (image' (addrs ndirect)).word i) hk hfree (by simpa [hself] using hb)
    fun i _ hik => by simp only [h, Block.word_setWord_ne _ _ hik]
  rw [hself] at hsum
  rw [held, held, indirectSlots, if_neg hx, indirectSlots, if_neg hx, entries, entries, hsum,
    Multiset.add_cons]

theorem held_congr (h : addrs ndirect ≠ 0 →
    ∀ k, k < nindirect → (image' (addrs ndirect)).word k = (image (addrs ndirect)).word k) :
    held image' addrs = held image addrs := by
  have hind : indirectSlots image' (addrs ndirect) = indirectSlots image (addrs ndirect) := by
    by_cases hx : addrs ndirect = 0
    · simp [indirectSlots, hx]
    · rw [indirectSlots, indirectSlots, if_neg hx, if_neg hx]
      apply Finset.sum_congr rfl
      intro k hk
      rw [h hx k (Finset.mem_range.mp hk)]
  rw [held, held, hind]

theorem addrs_mem_held (hj : j ≤ ndirect) (hb : addrs j ≠ 0) : addrs j ∈ held image addrs := by
  have hshare := share_le_sum (f := fun j => slot (addrs j))
    (Finset.mem_range.mpr (Nat.lt_succ_of_le hj))
  exact Multiset.mem_add.mpr (Or.inl (Multiset.mem_of_le hshare (mem_slot hb)))

theorem entry_mem_held (hx : addrs ndirect ≠ 0) (hk : k < nindirect)
    (hb : (image (addrs ndirect)).word k ≠ 0) :
    (image (addrs ndirect)).word k ∈ held image addrs := by
  have hshare := share_le_sum (f := fun k => slot ((image (addrs ndirect)).word k))
    (Finset.mem_range.mpr hk)
  rw [held, indirectSlots, if_neg hx]
  exact Multiset.mem_add.mpr (Or.inr (Multiset.mem_of_le hshare (mem_slot hb)))

theorem blockAt_direct (h : fbn < ndirect) : blockAt image addrs fbn = addrs fbn := if_pos h

theorem blockAt_none (h : ndirect ≤ fbn) (hx : addrs ndirect = 0) :
    blockAt image addrs fbn = 0 := by
  rw [blockAt, if_neg (Nat.not_lt.mpr h), if_pos hx]

theorem blockAt_indirect (h : ndirect ≤ fbn) (hx : addrs ndirect ≠ 0) :
    blockAt image addrs fbn = (image (addrs ndirect)).word (fbn - ndirect) := by
  rw [blockAt, if_neg (Nat.not_lt.mpr h), if_neg hx]

theorem blockAt_congr (h : addrs ndirect ≠ 0 →
    ∀ k, k < nindirect → (image' (addrs ndirect)).word k = (image (addrs ndirect)).word k)
    (hfbn : fbn < maxFile) : blockAt image' addrs fbn = blockAt image addrs fbn := by
  rw [blockAt, blockAt]
  by_cases hx : addrs ndirect = 0
  · simp [hx]
  · rw [maxFile] at hfbn
    by_cases hdirect : fbn < ndirect
    · simp [hdirect]
    · rw [h hx _ (by omega)]

theorem blockAt_setDirect_self (hj : j < ndirect) :
    blockAt image (Function.update addrs j b) j = b := by
  rw [blockAt_direct hj, Function.update_self]

theorem blockAt_setDirect_ne (hj : j < ndirect) (hne : fbn ≠ j) :
    blockAt image (Function.update addrs j b) fbn = blockAt image addrs fbn := by
  rw [blockAt, blockAt, Function.update_of_ne hne, Function.update_of_ne (Nat.ne_of_gt hj)]

theorem blockAt_setIndirect (hfree : addrs ndirect = 0)
    (hblk : ∀ k, k < nindirect → (image b).word k = 0) (hfbn : fbn < maxFile) :
    blockAt image (Function.update addrs ndirect b) fbn = blockAt image addrs fbn := by
  by_cases hdirect : fbn < ndirect
  · rw [blockAt_direct hdirect, blockAt_direct hdirect,
      Function.update_of_ne (Nat.ne_of_lt hdirect)]
  · have hge := Nat.le_of_not_lt hdirect
    rw [blockAt_none hge hfree]
    by_cases hb : b = 0
    · exact blockAt_none hge (by simpa using hb)
    · rw [blockAt_indirect hge (by simpa using hb), Function.update_self]
      apply hblk
      rw [maxFile] at hfbn
      omega

theorem blockAt_setEntry_self (hfbn : ndirect ≤ fbn) (hx : addrs ndirect ≠ 0) (hlt : b < 2 ^ 32)
    (h : image' (addrs ndirect) = (image (addrs ndirect)).setWord (fbn - ndirect) b) :
    blockAt image' addrs fbn = b := by
  rw [blockAt_indirect hfbn hx, h, Block.word_setWord_self _ hlt]

theorem blockAt_setEntry_ne (hk : j ≠ k + ndirect)
    (h : image' (addrs ndirect) = (image (addrs ndirect)).setWord k b) :
    blockAt image' addrs j = blockAt image addrs j := by
  by_cases hdirect : j < ndirect
  · rw [blockAt_direct hdirect, blockAt_direct hdirect]
  · have hge := Nat.le_of_not_lt hdirect
    by_cases hx : addrs ndirect = 0
    · rw [blockAt_none hge hx, blockAt_none hge hx]
    · rw [blockAt_indirect hge hx, blockAt_indirect hge hx, h,
        Block.word_setWord_ne _ _ (by omega)]

theorem blockAt_mem_held (hfbn : fbn < maxFile) (hb : blockAt image addrs fbn ≠ 0) :
    blockAt image addrs fbn ∈ held image addrs := by
  by_cases hdirect : fbn < ndirect
  · rw [blockAt_direct hdirect] at hb
    rw [blockAt_direct hdirect]
    exact addrs_mem_held (Nat.le_of_lt hdirect) hb
  · have hge := Nat.le_of_not_lt hdirect
    by_cases hx : addrs ndirect = 0
    · exact absurd (blockAt_none hge hx) hb
    · rw [blockAt_indirect hge hx] at hb
      rw [blockAt_indirect hge hx]
      rw [maxFile] at hfbn
      exact entry_mem_held hx (by omega) hb

theorem indirect_mem_held (hx : addrs ndirect ≠ 0) : addrs ndirect ∈ held image addrs :=
  addrs_mem_held (Nat.le_refl ndirect) hx

/-- A file block is not the indirect block. -/
theorem blockAt_ne_indirect (h : (held image addrs).Nodup) (hfbn : fbn < maxFile)
    (hb : blockAt image addrs fbn ≠ 0) : blockAt image addrs fbn ≠ addrs ndirect := by
  intro heq
  have hx : addrs ndirect ≠ 0 := by
    rw [← heq]
    exact hb
  have hind : ndirect ∈ Finset.range (ndirect + 1) := Finset.mem_range.mpr (Nat.lt_succ_self _)
  rw [held, Multiset.nodup_add] at h
  by_cases hdirect : fbn < ndirect
  · rw [blockAt_direct hdirect] at heq hb
    have hdisj := shares_disjoint h.1 (Finset.mem_range.mpr (Nat.lt_succ_of_lt hdirect)) hind
      (Nat.ne_of_lt hdirect)
    rw [heq] at hdisj
    exact Multiset.disjoint_left.mp hdisj (mem_slot hx) (mem_slot hx)
  · have hge := Nat.le_of_not_lt hdirect
    rw [blockAt_indirect hge hx] at heq hb
    have hshare := share_le_sum (f := fun j => slot (addrs j)) hind
    have hentry := share_le_sum (f := fun k => slot ((image (addrs ndirect)).word k))
      (i := fbn - ndirect) (s := Finset.range nindirect)
      (Finset.mem_range.mpr (by rw [maxFile] at hfbn; omega))
    have hmem : addrs ndirect ∈ indirectSlots image (addrs ndirect) := by
      rw [indirectSlots, if_neg hx]
      apply Multiset.mem_of_le hentry
      rw [heq]
      exact mem_slot hx
    exact Multiset.disjoint_left.mp h.2.2 (Multiset.mem_of_le hshare (mem_slot hx)) hmem

end

end SyscallSched.Xv6.Fs
