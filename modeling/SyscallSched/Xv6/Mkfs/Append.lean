import SyscallSched.Xv6.Mkfs.Invariant

/-!
# What `iappend` does to the blocks

`Tracks s d` says that the inodes `d` have the blocks they should in the image
`s`.  While `iappend` runs, `d` is the image's inode table with the inode in memory
in the place of the one that is being extended.
-/

namespace SyscallSched.Xv6.Mkfs

open SyscallSched.Foundation SyscallSched.Xv6.Fs

structure Tracks (s : Image) (d : Nat → Dinode) : Prop where
  owned : Owned s fun i => (d i).addrs
  shaped : ∀ i, i < slots → Shaped s.sectors (d i)

theorem Tracks.update {s : Image} {d : Nat → Dinode} {inum : Nat} {din : Dinode}
    (howned : Owned s (Function.update (fun i => (d i).addrs) inum din.addrs))
    (hself : Shaped s.sectors din)
    (hother : ∀ i, i < slots → i ≠ inum → Shaped s.sectors (d i)) :
    Tracks s (Function.update d inum din) := by
  have haddrs : (fun i => (Function.update d inum din i).addrs) =
      Function.update (fun i => (d i).addrs) inum din.addrs := by
    funext i
    by_cases hi : i = inum
    · simp [hi]
    · simp [hi]
  constructor
  case owned =>
    rw [haddrs]
    exact howned
  case shaped =>
    intro i hi
    by_cases heq : i = inum
    · rw [heq, Function.update_self]
      exact hself
    · rw [Function.update_of_ne heq]
      exact hother i hi heq

/-! ## Single steps -/

section

variable {s : Image} {sec j k : Nat} {din : Dinode} {buf : Block}

theorem rsect_run_of_lt (h : sec < s.nsect) : rsect sec s = .ok (s.sectors sec, s) := by
  rw [rsect, Total.run_bind (a := s) (t := s) rfl, if_pos h]
  rfl

theorem rsect_run_of_ge (h : s.nsect ≤ sec) : rsect sec s = .error .die := by
  rw [rsect, Total.run_bind (a := s) (t := s) rfl, if_neg (Nat.not_lt.mpr h)]
  rfl

def Image.store (s : Image) (sec : Nat) (buf : Block) : Image :=
  { s with sectors := Function.update s.sectors sec buf, nsect := max s.nsect (sec + 1) }

theorem wsect_run : wsect sec buf s = .ok ((), s.store sec buf) := rfl

@[simp] theorem sectors_store : (s.store sec buf).sectors = Function.update s.sectors sec buf := rfl

@[simp] theorem freeblock_store : (s.store sec buf).freeblock = s.freeblock := rfl

@[simp] theorem freeinode_store : (s.store sec buf).freeinode = s.freeinode := rfl

theorem nsect_store (h : sec < s.nsect) : (s.store sec buf).nsect = s.nsect :=
  Nat.max_eq_left h

def Image.grown (s : Image) : Image := { s with freeblock := s.freeblock + 1 }

@[simp] theorem sectors_grown (s : Image) : s.grown.sectors = s.sectors := rfl

@[simp] theorem nsect_grown (s : Image) : s.grown.nsect = s.nsect := rfl

@[simp] theorem freeblock_grown (s : Image) : s.grown.freeblock = s.freeblock + 1 := rfl

@[simp] theorem addrs_setAddr (din : Dinode) (j b : Nat) :
    (setAddr din j b).addrs = Function.update din.addrs j b := rfl

theorem fillAddr_run_of_eq (h : din.addrs j = 0) :
    fillAddr din j s = .ok (setAddr din j s.freeblock, s.grown) := by
  rw [fillAddr, if_pos h]
  rfl

theorem fillAddr_run_of_ne (h : din.addrs j ≠ 0) : fillAddr din j s = .ok (din, s) := by
  rw [fillAddr, if_neg h]
  rfl

theorem fillEntry_run_of_eq (h : buf.word k = 0) :
    fillEntry sec buf k s =
      .ok (buf.setWord k s.freeblock, s.grown.store sec (buf.setWord k s.freeblock)) := by
  rw [fillEntry, if_pos h]
  rfl

theorem fillEntry_run_of_ne (h : buf.word k ≠ 0) : fillEntry sec buf k s = .ok (buf, s) := by
  rw [fillEntry, if_neg h]
  rfl

end

/-! ## One file block -/

/-- What `fileBlock` leaves when the inode `inum` is about to grow by `n` bytes
at `off`. -/
structure Placed (s : Image) (d : Nat → Dinode) (inum off n : Nat) (r : Dinode × Nat)
    (s' : Image) : Prop where
  tracks : Tracks s' (Function.update d inum { r.1 with size := off + n })
  block : blockAt s'.sectors r.1.addrs (off / bsize) = r.2
  count : s'.freeblock + need off = s.freeblock + need (off + n)
  le : r.2 < fsSize → s'.freeblock ≤ fsSize
  inodes : ∀ b, b < nmeta → s'.sectors b = s.sectors b
  freeinode : s'.freeinode = s.freeinode

structure Growing (s : Image) (d : Nat → Dinode) (inum : Nat) (din : Dinode) (off n : Nat) :
    Prop where
  tracks : Tracks s d
  inum_lt : inum < slots
  inode : d inum = { din with size := off }
  inBlock : InBlock off n
  fbn_lt : off / bsize < maxFile
  le : s.freeblock ≤ fsSize

namespace Growing

variable {s : Image} {d : Nat → Dinode} {inum off n : Nat} {din : Dinode}

theorem shaped (h : Growing s d inum din off n) : Shaped s.sectors { din with size := off } := by
  rw [← h.inode]
  exact h.tracks.shaped inum h.inum_lt

theorem addrs (h : Growing s d inum din off n) : (d inum).addrs = din.addrs := by
  rw [h.inode]

theorem present_iff (h : Growing s d inum din off n) :
    blockAt s.sectors din.addrs (off / bsize) ≠ 0 ↔ off / bsize < blocksFor off :=
  h.shaped.filled _ h.fbn_lt

theorem indirect_iff (h : Growing s d inum din off n) :
    din.addrs ndirect ≠ 0 ↔ ndirect < blocksFor off :=
  h.shaped.indirect

theorem size_lt (h : Growing s d inum din off n) : off + n < 2 ^ 32 := by
  have hpos := h.inBlock.pos
  have hle := h.inBlock.le
  have hfbn := h.fbn_lt
  simp only [bsize, maxFile, ndirect, nindirect] at *
  omega

theorem fits (h : Growing s d inum din off n) : Dinode.Fits { din with size := off + n } := by
  have hold := h.shaped.fits
  exact { hold with size := h.size_lt }

theorem fits_setAddr (h : Growing s d inum din off n) {j : Nat} (hj : j ≤ ndirect) :
    Dinode.Fits { setAddr din j s.freeblock with size := off + n } := by
  have hle := h.le
  have hsize : fsSize = 2000 := rfl
  constructor
  case type => exact h.fits.type
  case major => exact h.fits.major
  case minor => exact h.fits.minor
  case nlink => exact h.fits.nlink
  case size => exact h.size_lt
  case addrs =>
    intro i
    by_cases hi : i = j
    · simp [setAddr, hi]
      omega
    · simpa [setAddr, hi] using h.fits.addrs i
  case beyond =>
    intro i hi
    have hne : i ≠ j := by omega
    simpa [setAddr, hne] using h.fits.beyond i hi

theorem placed_present (h : Growing s d inum din off n)
    (hb : blockAt s.sectors din.addrs (off / bsize) ≠ 0) :
    Placed s d inum off n (din, blockAt s.sectors din.addrs (off / bsize)) s := by
  have hold := blocksFor_ge off
  have hcount : blocksFor off = blocksFor (off + n) := by
    have hlt := h.present_iff.mp hb
    rw [h.inBlock.blocksFor_add]
    omega
  constructor
  case tracks =>
    apply Tracks.update
    case howned =>
      rw [← h.addrs, Function.update_eq_self]
      exact h.tracks.owned
    case hself =>
      apply h.shaped.extend h.inBlock h.fbn_lt h.fits
      case hother =>
        intro j _ _
        rfl
      case hself => exact hb
      case hind =>
        have hind := h.indirect_iff
        rw [hcount, h.inBlock.blocksFor_add] at hind
        rw [hind]
        omega
    case hother =>
      intro i hi _
      exact h.tracks.shaped i hi
  case block => rfl
  case count => simp only [need, hcount]
  case le =>
    intro _
    exact h.le
  case inodes =>
    intro b _
    rfl
  case freeinode => rfl

theorem placed_direct (h : Growing s d inum din off n) (hfbn : off / bsize < ndirect)
    (hb : din.addrs (off / bsize) = 0) :
    Placed s d inum off n (setAddr din (off / bsize) s.freeblock, s.freeblock) s.grown := by
  have hold := blocksFor_ge off
  have hadd := h.inBlock.blocksFor_add
  have habsent : blocksFor off = off / bsize := by
    have hpresent := h.present_iff
    rw [blockAt_direct hfbn, hb] at hpresent
    omega
  constructor
  case tracks =>
    apply Tracks.update
    case howned =>
      have hgrant := h.tracks.owned.grantAddr h.inum_lt h.le (Nat.le_of_lt hfbn)
        (by rw [h.addrs, hb])
      rw [h.addrs] at hgrant
      exact hgrant
    case hself =>
      apply h.shaped.extend h.inBlock h.fbn_lt (h.fits_setAddr (Nat.le_of_lt hfbn))
      case hother =>
        intro j _ hj
        exact blockAt_setDirect_ne hfbn hj
      case hself =>
        rw [addrs_setAddr, blockAt_setDirect_self hfbn]
        exact h.tracks.owned.freeblock_ne_zero
      case hind =>
        have hind := h.indirect_iff
        rw [addrs_setAddr, Function.update_of_ne (Nat.ne_of_gt hfbn), hind]
        omega
    case hother =>
      intro i hi _
      exact h.tracks.shaped i hi
  case block => exact blockAt_setDirect_self hfbn
  case count =>
    simp only [need, habsent, hadd, Image.grown]
    rw [if_neg (by omega), if_neg (by omega)]
    omega
  case le =>
    intro hlt
    exact hlt
  case inodes =>
    intro b _
    rfl
  case freeinode => rfl

theorem placed_entry (h : Growing s d inum din off n) (s₁ : Image) (din₁ : Dinode)
    (hsectors : s₁.sectors = s.sectors) (hinode : s₁.freeinode = s.freeinode)
    (howned : Owned s₁ (Function.update (fun i => (d i).addrs) inum din₁.addrs))
    (hblk : ∀ j, j < maxFile →
      blockAt s.sectors din₁.addrs j = blockAt s.sectors din.addrs j)
    (hfits : Dinode.Fits { din₁ with size := off + n }) (hy : din₁.addrs ndirect ≠ 0)
    (hfbn : ndirect ≤ off / bsize) (habsent : blockAt s.sectors din₁.addrs (off / bsize) = 0)
    (hle : s₁.freeblock ≤ fsSize)
    (hcount : s₁.freeblock + 1 + need off = s.freeblock + need (off + n)) :
    Placed s d inum off n (din₁, s₁.freeblock)
      (s₁.grown.store (din₁.addrs ndirect)
        ((s₁.sectors (din₁.addrs ndirect)).setWord (off / bsize - ndirect) s₁.freeblock)) := by
  have hself : Function.update (fun i => (d i).addrs) inum din₁.addrs inum = din₁.addrs :=
    Function.update_self inum _ _
  have hmem : din₁.addrs ndirect ∈
      share s₁ (Function.update (fun i => (d i).addrs) inum din₁.addrs) inum := by
    rw [share, hself]
    exact indirect_mem_held hy
  have hrange := howned.mem_range h.inum_lt hmem
  have hk : off / bsize - ndirect < nindirect := by
    have hlt := h.fbn_lt
    rw [maxFile] at hlt
    omega
  have hword : (s₁.sectors (din₁.addrs ndirect)).word (off / bsize - ndirect) = 0 := by
    rw [hsectors, ← blockAt_indirect hfbn hy]
    exact habsent
  have hlt : s₁.freeblock < 2 ^ 32 := by
    have hsize : fsSize = 2000 := rfl
    omega
  have hnew : (s₁.grown.store (din₁.addrs ndirect)
      ((s₁.sectors (din₁.addrs ndirect)).setWord (off / bsize - ndirect)
        s₁.freeblock)).sectors (din₁.addrs ndirect) =
      (s.sectors (din₁.addrs ndirect)).setWord (off / bsize - ndirect) s₁.freeblock := by
    rw [sectors_store, Function.update_self, hsectors]
  constructor
  case tracks =>
    apply Tracks.update
    case howned =>
      apply howned.grantEntry h.inum_lt hle (by rw [hself]) hy hk hword
      case hnsect =>
        apply nsect_store
        rw [Image.grown, howned.nsect]
        omega
      case hcount => rfl
      case hsectors => rfl
    case hself =>
      apply h.shaped.extend h.inBlock h.fbn_lt hfits
      case hother =>
        intro j hj hne
        rw [← hblk j hj]
        exact blockAt_setEntry_ne (by omega) hnew
      case hself =>
        rw [blockAt_setEntry_self hfbn hy hlt hnew]
        exact howned.freeblock_ne_zero
      case hind => exact iff_of_true hy hfbn
    case hother =>
      intro i hi hne
      apply (h.tracks.shaped i hi).congr
      intro hi0 k _
      have hother : (d i).addrs ndirect ≠ din₁.addrs ndirect := by
        intro heq
        apply howned.disjoint h.inum_lt hi hne.symm hmem
        rw [share, Function.update_of_ne hne, ← heq]
        exact indirect_mem_held hi0
      rw [sectors_store, Function.update_of_ne hother]
      exact congrArg (fun f => (f ((d i).addrs ndirect)).word k) hsectors
  case block => exact blockAt_setEntry_self hfbn hy hlt hnew
  case count => exact hcount
  case le =>
    intro hlt
    exact hlt
  case inodes =>
    intro b hb
    rw [sectors_store, Function.update_of_ne (by omega)]
    exact congrFun hsectors b
  case freeinode => exact hinode

/-- An indirect block that is missing is first needed for the block right after
the direct ones. -/
theorem indirect_absent (h : Growing s d inum din off n) (hfbn : ndirect ≤ off / bsize)
    (hb : din.addrs ndirect = 0) :
    blocksFor off = off / bsize ∧ need (off + n) = need off + 2 := by
  have hold := blocksFor_ge off
  have hadd := h.inBlock.blocksFor_add
  have hind := h.indirect_iff
  rw [hb] at hind
  have heq : blocksFor off = off / bsize := by omega
  constructor
  · exact heq
  · simp only [need, hadd, heq]
    rw [if_pos (by omega), if_neg (by omega)]

theorem fileBlock_direct (h : Growing s d inum din off n) (hfbn : off / bsize < ndirect)
    (room : Prop) :
    Outcome room (fileBlock din (off / bsize)) s (Placed s d inum off n) := by
  rw [fileBlock, if_pos hfbn]
  by_cases hb : din.addrs (off / bsize) = 0
  · apply Outcome.bind_eq (fillAddr_run_of_eq hb)
    apply Outcome.pure
    rw [addrs_setAddr, Function.update_self]
    exact h.placed_direct hfbn hb
  · apply Outcome.bind_eq (fillAddr_run_of_ne hb)
    apply Outcome.pure
    have hpresent : blockAt s.sectors din.addrs (off / bsize) ≠ 0 := by
      rw [blockAt_direct hfbn]
      exact hb
    have hplaced := h.placed_present hpresent
    rw [blockAt_direct hfbn] at hplaced
    exact hplaced

theorem fileBlock_indirect (h : Growing s d inum din off n) (hfbn : ndirect ≤ off / bsize)
    (hy : din.addrs ndirect ≠ 0) (room : Prop) :
    Outcome room (fileBlock din (off / bsize)) s (Placed s d inum off n) := by
  have hself : Function.update (fun i => (d i).addrs) inum din.addrs =
      fun i => (d i).addrs := by
    rw [← h.addrs, Function.update_eq_self]
  have hmem : din.addrs ndirect ∈ share s (fun i => (d i).addrs) inum := by
    rw [share, h.addrs]
    exact indirect_mem_held hy
  have hrange := h.tracks.owned.mem_range h.inum_lt hmem
  have hle := h.le
  have hnsect := h.tracks.owned.nsect
  rw [fileBlock, if_neg (Nat.not_lt.mpr hfbn)]
  apply Outcome.bind_eq (fillAddr_run_of_ne hy)
  apply Outcome.bind_eq (rsect_run_of_lt (by omega))
  by_cases hb : (s.sectors (din.addrs ndirect)).word (off / bsize - ndirect) = 0
  · apply Outcome.bind_eq (fillEntry_run_of_eq hb)
    apply Outcome.pure
    have habsent : blockAt s.sectors din.addrs (off / bsize) = 0 := by
      rw [blockAt_indirect hfbn hy]
      exact hb
    have hlt : s.freeblock < 2 ^ 32 := by
      have hsize : fsSize = 2000 := rfl
      omega
    rw [Block.word_setWord_self _ hlt]
    apply h.placed_entry s din rfl rfl
    case howned =>
      rw [hself]
      exact h.tracks.owned
    case hblk =>
      intro j _
      rfl
    case hfits => exact h.fits
    case hy => exact hy
    case hfbn => exact hfbn
    case habsent => exact habsent
    case hle => exact hle
    case hcount =>
      have hold := blocksFor_ge off
      have hadd := h.inBlock.blocksFor_add
      have hpresent := h.present_iff
      have hind := h.indirect_iff
      simp only [need, hadd]
      rw [habsent] at hpresent
      rw [if_pos (by omega), if_pos (by omega)]
      omega
  · apply Outcome.bind_eq (fillEntry_run_of_ne hb)
    apply Outcome.pure
    rw [← blockAt_indirect hfbn hy]
    apply h.placed_present
    rw [blockAt_indirect hfbn hy]
    exact hb

theorem fileBlock_first_indirect (h : Growing s d inum din off n)
    (hfbn : ndirect ≤ off / bsize) (hy : din.addrs ndirect = 0) :
    Outcome (s.freeblock + need (off + n) ≤ fsSize + need off)
      (fileBlock din (off / bsize)) s (Placed s d inum off n) := by
  have habsent := h.indirect_absent hfbn hy
  have hle := h.le
  have hnsect := h.tracks.owned.nsect
  have haddr : (setAddr din ndirect s.freeblock).addrs ndirect = s.freeblock := by
    rw [addrs_setAddr, Function.update_self]
  have hzero : ∀ k, k < nindirect → (s.sectors s.freeblock).word k = 0 := by
    intro k _
    rw [h.tracks.owned.fresh _ (Nat.le_refl _)]
    rfl
  rw [fileBlock, if_neg (Nat.not_lt.mpr hfbn)]
  apply Outcome.bind_eq (fillAddr_run_of_eq hy)
  rw [haddr]
  by_cases hlt : s.freeblock < fsSize
  · have hread : rsect s.freeblock s.grown = .ok (s.sectors s.freeblock, s.grown) := by
      apply rsect_run_of_lt
      rw [nsect_grown, hnsect]
      exact hlt
    apply Outcome.bind_eq hread
    have hk : off / bsize - ndirect < nindirect := by
      have hfbn_lt := h.fbn_lt
      rw [maxFile] at hfbn_lt
      omega
    apply Outcome.bind_eq (fillEntry_run_of_eq (hzero _ hk))
    apply Outcome.pure
    have hword : s.grown.freeblock < 2 ^ 32 := by
      have hsize : fsSize = 2000 := rfl
      rw [freeblock_grown]
      omega
    rw [Block.word_setWord_self _ hword]
    have hplaced := h.placed_entry s.grown (setAddr din ndirect s.freeblock)
    rw [haddr] at hplaced
    apply hplaced rfl rfl
    case howned =>
      have hgrant := h.tracks.owned.grantAddr h.inum_lt h.le (Nat.le_refl _)
        (by rw [h.addrs, hy])
      rw [h.addrs] at hgrant
      exact hgrant
    case hblk =>
      intro j hj
      exact blockAt_setIndirect hy hzero hj
    case hfits => exact h.fits_setAddr (Nat.le_refl _)
    case hy => exact h.tracks.owned.freeblock_ne_zero
    case hfbn => exact hfbn
    case habsent =>
      rw [addrs_setAddr, blockAt_setIndirect hy hzero h.fbn_lt]
      exact blockAt_none hfbn hy
    case hle => exact hlt
    case hcount =>
      rw [freeblock_grown]
      omega
  · have hdie : rsect s.freeblock s.grown = .error .die := by
      apply rsect_run_of_ge
      rw [nsect_grown]
      omega
    apply Outcome.of_error (e := .die)
    case hx =>
      change (rsect s.freeblock s.grown >>= fun r => _) = _
      rw [hdie]
      rfl
    case h => omega

theorem fileBlock_outcome (h : Growing s d inum din off n) :
    Outcome (s.freeblock + need (off + n) ≤ fsSize + need off)
      (fileBlock din (off / bsize)) s (Placed s d inum off n) := by
  by_cases hfbn : off / bsize < ndirect
  · exact h.fileBlock_direct hfbn _
  · by_cases hy : din.addrs ndirect = 0
    · exact h.fileBlock_first_indirect (Nat.le_of_not_lt hfbn) hy
    · exact h.fileBlock_indirect (Nat.le_of_not_lt hfbn) hy _

end Growing

/-! ## All the bytes -/

theorem Tracks.store {s : Image} {d : Nat → Dinode} {sec : Nat} (buf : Block)
    (h : Tracks s d) (hlt : sec < fsSize) (hused : sec < s.freeblock)
    (hother : ∀ i, i < slots → (d i).addrs ndirect ≠ 0 → (d i).addrs ndirect ≠ sec) :
    Tracks (s.store sec buf) d := by
  have hword : ∀ i, i < slots → (d i).addrs ndirect ≠ 0 → ∀ k, k < nindirect →
      ((s.store sec buf).sectors ((d i).addrs ndirect)).word k =
        (s.sectors ((d i).addrs ndirect)).word k := by
    intro i hi hi0 k _
    rw [sectors_store, Function.update_of_ne (hother i hi hi0)]
  constructor
  case owned =>
    constructor
    case nsect =>
      rw [nsect_store (by rw [h.owned.nsect]; exact hlt), h.owned.nsect]
    case meta_le => exact h.owned.meta_le
    case le => exact h.owned.le
    case owned =>
      rw [freeblock_store, ← h.owned.owned]
      apply Finset.sum_congr rfl
      intro i hi
      exact held_congr (hword i (Finset.mem_range.mp hi))
    case fresh =>
      intro b hb
      rw [freeblock_store] at hb
      rw [sectors_store, Function.update_of_ne (by omega)]
      exact h.owned.fresh b hb
  case shaped =>
    intro i hi
    exact (h.shaped i hi).congr (hword i hi)

theorem Tracks.writeData {s : Image} {d : Nat → Dinode} {inum fbn : Nat} (buf : Block)
    (h : Tracks s d) (hinum : inum < slots) (hfbn : fbn < maxFile)
    (hx0 : blockAt s.sectors (d inum).addrs fbn ≠ 0)
    (hlt : blockAt s.sectors (d inum).addrs fbn < fsSize) :
    Tracks (s.store (blockAt s.sectors (d inum).addrs fbn) buf) d := by
  have hmem : blockAt s.sectors (d inum).addrs fbn ∈ share s (fun i => (d i).addrs) inum :=
    blockAt_mem_held hfbn hx0
  have hrange := h.owned.mem_range hinum hmem
  apply h.store buf hlt hrange.2
  intro i hi hi0 heq
  by_cases hii : i = inum
  · rw [hii] at heq
    exact blockAt_ne_indirect (h.owned.nodup_held hinum) hfbn hx0 heq.symm
  · apply h.owned.disjoint hinum hi (Ne.symm hii) hmem
    rw [← heq]
    exact indirect_mem_held hi0

theorem Tracks.writeMeta {s : Image} {d : Nat → Dinode} {sec : Nat} (buf : Block)
    (h : Tracks s d) (hsec : sec < nmeta) : Tracks (s.store sec buf) d := by
  have hmeta := h.owned.meta_le
  have hsize : nmeta ≤ fsSize := by decide
  apply h.store buf (by omega) (by omega)
  intro i hi hi0 heq
  have hge : nmeta ≤ (d i).addrs ndirect := (h.owned.mem_range hi (indirect_mem_held hi0)).1
  omega

structure Ready (s : Image) (d : Nat → Dinode) (inum : Nat) (din : Dinode) (off : Nat) :
    Prop where
  tracks : Tracks s d
  inum_lt : inum < slots
  inode : d inum = { din with size := off }
  le : s.freeblock ≤ fsSize

structure Appended (s : Image) (d : Nat → Dinode) (inum off n : Nat) (r : Dinode × Nat)
    (s' : Image) : Prop where
  tracks : Tracks s' (Function.update d inum { r.1 with size := off + n })
  size : r.2 = off + n
  le : s'.freeblock ≤ fsSize
  count : s'.freeblock + need off = s.freeblock + need (off + n)
  inodes : ∀ b, b < nmeta → s'.sectors b = s.sectors b
  freeinode : s'.freeinode = s.freeinode

def Room (s : Image) (off n : Nat) : Prop :=
  s.freeblock + need (off + n) ≤ fsSize + need off ∧ off + n ≤ maxFile * bsize

theorem inBlock_chunk {n off : Nat} (hn : 0 < n) : InBlock off (chunk n off) where
  pos := chunk_pos hn off
  le := Nat.min_le_right _ _

theorem assertThat_run {p : Prop} [Decidable p] {s : Image} (h : p) :
    assertThat p s = .ok ((), s) := by
  rw [assertThat, if_pos h]
  rfl

theorem assertThat_error {p : Prop} [Decidable p] {s : Image} (h : ¬ p) :
    assertThat p s = .error .abort := by
  rw [assertThat, if_neg h]
  rfl

theorem bind_error {α β : Type} {x : MkfsM α} {f : α → MkfsM β} {s : Image} {e : Exit}
    (h : x s = .error e) : (x >>= f) s = .error e := by
  change (x s >>= fun r => f r.1 r.2) = _
  rw [h]
  rfl

namespace Placed

variable {s s₁ : Image} {d : Nat → Dinode} {inum off n : Nat} {r : Dinode × Nat}

theorem block_range (h : Placed s d inum off n r s₁) (hinum : inum < slots)
    (hn : InBlock off n) (hfbn : off / bsize < maxFile) :
    r.2 ≠ 0 ∧ nmeta ≤ r.2 ∧ r.2 < s₁.freeblock := by
  have hshaped := h.tracks.shaped inum hinum
  rw [Function.update_self] at hshaped
  have hpresent : r.2 ≠ 0 := by
    rw [← h.block]
    apply (hshaped.filled _ hfbn).mpr
    change off / bsize < blocksFor (off + n)
    rw [hn.blocksFor_add]
    exact Nat.lt_succ_self _
  have hmem : r.2 ∈ share s₁ (fun i =>
      (Function.update d inum { r.1 with size := off + n } i).addrs) inum := by
    rw [share, Function.update_self]
    rw [← h.block] at hpresent ⊢
    exact blockAt_mem_held hfbn hpresent
  exact ⟨hpresent, h.tracks.owned.mem_range hinum hmem⟩

theorem ready (h : Placed s d inum off n r s₁) (hinum : inum < slots)
    (hfbn : off / bsize < maxFile) (hx0 : r.2 ≠ 0) (hx : r.2 < fsSize) (buf : Block) :
    Ready (s₁.store r.2 buf) (Function.update d inum { r.1 with size := off + n }) inum r.1
      (off + n) := by
  have hblock : blockAt s₁.sectors
      (Function.update d inum { r.1 with size := off + n } inum).addrs (off / bsize) = r.2 := by
    rw [Function.update_self]
    exact h.block
  constructor
  case tracks =>
    have hwrite := h.tracks.writeData buf hinum hfbn
    rw [hblock] at hwrite
    exact hwrite hx0 hx
  case inum_lt => exact hinum
  case inode => rw [Function.update_self]
  case le => exact h.le hx

theorem append (h : Placed s d inum off n r s₁) {m total : Nat} {buf : Block}
    {r' : Dinode × Nat} {s' : Image}
    (h' : Appended (s₁.store r.2 buf) (Function.update d inum { r.1 with size := off + n })
      inum (off + n) m r' s') (hmeta : nmeta ≤ r.2) (htotal : n + m = total) :
    Appended s d inum off total r' s' := by
  have hsum : off + n + m = off + total := by omega
  have hcount := h.count
  have hcount' := h'.count
  rw [freeblock_store, hsum] at hcount'
  constructor
  case tracks =>
    have htracks := h'.tracks
    rw [Function.update_idem, hsum] at htracks
    exact htracks
  case size => rw [h'.size, hsum]
  case le => exact h'.le
  case count => omega
  case inodes =>
    intro b hb
    rw [h'.inodes b hb, sectors_store, Function.update_of_ne (by omega)]
    exact h.inodes b hb
  case freeinode =>
    rw [h'.freeinode, freeinode_store, h.freeinode]

end Placed

theorem appendLoop_outcome {s : Image} {d : Nat → Dinode} {inum : Nat} {din : Dinode}
    {off : Nat} {p : List Nat} (h : Ready s d inum din off) :
    Outcome (Room s off p.length) (appendLoop din off p) s
      (Appended s d inum off p.length) := by
  induction hlen : p.length using Nat.strong_induction_on generalizing s d din off p with
  | _ n ih =>
    subst hlen
    by_cases hp : p = []
    · rw [appendLoop, dif_pos hp, hp]
      apply Outcome.pure
      constructor
      case tracks =>
        change Tracks s (Function.update d inum { din with size := off })
        rw [← h.inode, Function.update_eq_self]
        exact h.tracks
      case size => rfl
      case le => exact h.le
      case count => rfl
      case inodes =>
        intro b _
        rfl
      case freeinode => rfl
    · have hpos := List.length_pos_iff.mpr hp
      have hin : InBlock off (chunk p.length off) := inBlock_chunk hpos
      have hchunk : chunk p.length off ≤ p.length := Nat.min_le_left _ _
      rw [appendLoop, dif_neg hp]
      by_cases hfbn : off / bsize < maxFile
      · apply Outcome.bind_eq (assertThat_run hfbn)
        have hgrowing : Growing s d inum din off (chunk p.length off) :=
          { tracks := h.tracks, inum_lt := h.inum_lt, inode := h.inode, inBlock := hin
            fbn_lt := hfbn, le := h.le }
        have hmono : need (off + chunk p.length off) ≤ need (off + p.length) :=
          need_mono (by omega)
        have hblock : Outcome (Room s off p.length) (fileBlock din (off / bsize)) s
            (Placed s d inum off (chunk p.length off)) := by
          apply hgrowing.fileBlock_outcome.mono
          · intro hroom
            have hfit := hroom.1
            omega
          · intro _ _ hplaced
            exact hplaced
        apply hblock.bind
        intro r s₁ hplaced
        have hcount := hplaced.count
        obtain ⟨hx0, hmeta, hrange⟩ := hplaced.block_range h.inum_lt hin hfbn
        by_cases hx : r.2 < fsSize
        · have hread : rsect r.2 s₁ = .ok (s₁.sectors r.2, s₁) := by
            apply rsect_run_of_lt
            rw [hplaced.tracks.owned.nsect]
            exact hx
          apply Outcome.bind_eq hread
          apply Outcome.bind_eq wsect_run
          have hready := hplaced.ready h.inum_lt hfbn hx0 hx
            (putBytes (s₁.sectors r.2) (off - off / bsize * bsize) (p.take (chunk p.length off)))
          have hdrop : (p.drop (chunk p.length off)).length = p.length - chunk p.length off :=
            List.length_drop
          have htotal : off + chunk p.length off + (p.length - chunk p.length off) =
              off + p.length := by omega
          have hrest := ih _ (by have hc := hin.pos; omega) hready hdrop
          apply hrest.mono
          · intro hroom
            rw [Room, htotal, freeblock_store]
            have hfit := hroom.1
            exact ⟨by omega, hroom.2⟩
          · intro r' s' happended
            exact hplaced.append happended hmeta (Nat.add_sub_of_le hchunk)
        · have hdie : rsect r.2 s₁ = .error .die := by
            apply rsect_run_of_ge
            rw [hplaced.tracks.owned.nsect]
            exact Nat.le_of_not_lt hx
          apply Outcome.of_error (bind_error hdie)
          intro hroom
          have hfit := hroom.1
          omega
      · apply Outcome.of_error (bind_error (assertThat_error hfbn))
        intro hroom
        have hfit := hroom.2
        simp only [bsize] at *
        omega

end SyscallSched.Xv6.Mkfs
