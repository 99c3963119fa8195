import Mathlib.Algebra.Order.BigOperators.Group.Finset
import SyscallSched.Xv6.Mkfs.Counter

/-!
# Well-formed images

What the kernel assumes of an image, and for which lists of input files `mkfs`
delivers it.  `ialloc` does not compare the inode number with `NINODES`, and the
size of the root directory is rounded up by a block even when it fills its last
block.
-/

namespace SyscallSched.Xv6.Mkfs

open SyscallSched.Foundation SyscallSched.Xv6.Fs

def refs (s : Image) (inum : Nat) : Multiset Nat :=
  held s.sectors (dinodeAt s.sectors inum).addrs

structure WellFormed (s : Image) : Prop where
  range : ∀ inum, inum < ninodes → ∀ b ∈ refs s inum, nmeta ≤ b ∧ b < fsSize
  once : (∑ inum ∈ Finset.range ninodes, refs s inum).Nodup
  bitmap : ∀ b, b < bpb → (bitAt (s.sectors bmapstart) b = true ↔ b < s.freeblock)
  /-- `ialloc` has handed out the numbers below `freeinode`. -/
  inodes : ∀ inum, 0 < inum → inum < s.freeinode → inum < ninodes
  noHoles : ∀ inum, inum < ninodes → ∀ fbn, fbn < blocksFor (dinodeAt s.sectors inum).size →
    blockAt s.sectors (dinodeAt s.sectors inum).addrs fbn ≠ 0

/-! ## The bitmap -/

theorem bitAt_markUsed (used b : Nat) : bitAt (markUsed used) b = decide (b < used) := by
  induction used with
  | zero => simp [markUsed, bitAt, zeroBlock]
  | succ i ih =>
      have hstep : markUsed (i + 1) = markBit (markUsed i) i := rfl
      rw [hstep, bitAt_markBit, ih, ← Bool.decide_or]
      congr 1
      exact propext (by omega)

/-! ## The empty image -/

def zeroed (n : Nat) : Image :=
  { sectors := fun _ => zeroBlock, nsect := n, freeinode := 1, freeblock := nmeta }

def formatted : Image := (zeroed fsSize).store 1 superblock

theorem format_run : format truncated = .ok ((), formatted) := by
  have hzero : Total (forM (List.range fsSize) fun i => wsect i zeroBlock) (zeroed 0)
      fun _ t => t = zeroed fsSize := by
    apply Total.forRange (I := fun i t => t = zeroed i) fsSize rfl
    intro i t _ ht
    apply Total.of_eq wsect_run
    rw [ht, Image.store, zeroed, Function.update_eq_self]
    simp [zeroed]
  obtain ⟨_, t, hrun, ht⟩ := hzero
  have hfirst : (modify fun s => { s with freeblock := nmeta } : MkfsM PUnit) truncated =
      .ok ((), zeroed 0) := rfl
  rw [format, Total.run_bind hfirst, Total.run_bind hrun, wsect_run, ht]
  rfl

theorem getLE_zeroBlock (off n : Nat) : getLE zeroBlock off n = 0 := by
  induction n generalizing off with
  | zero => rfl
  | succ n ih => rw [getLE, ih, zeroBlock]

theorem sectors_formatted {b : Nat} (hb : b ≠ 1) : formatted.sectors b = zeroBlock :=
  Function.update_of_ne hb _ _

theorem dinodeAt_formatted {i : Nat} : dinodeAt formatted.sectors i = {} := by
  have hge : 2 ≤ iblock i := Nat.le_trans (by decide : 2 ≤ inodestart) (Nat.le_add_left _ _)
  rw [dinodeAt, sectors_formatted (by omega), getDinode]
  simp [getLE_zeroBlock]

theorem intact_formatted : Intact formatted := by
  have hfits : Dinode.Fits {} := by constructor <;> simp
  have hshaped : ∀ i, Shaped formatted.sectors (dinodeAt formatted.sectors i) := by
    intro i
    rw [dinodeAt_formatted]
    exact shaped_empty hfits rfl rfl
  constructor
  case tracks =>
    constructor
    case owned =>
      constructor
      case nsect => rfl
      case meta_le => exact Nat.le_refl _
      case le => decide
      case owned =>
        rw [Finset.sum_eq_zero]
        · simp [formatted, zeroed]
        · intro i _
          rw [share, dinodeAt_formatted]
          simp [held, indirectSlots]
      case fresh =>
        intro b hb
        exact sectors_formatted (Nat.ne_of_gt (Nat.lt_of_lt_of_le (by decide : 1 < nmeta) hb))
    case shaped =>
      intro i _
      exact hshaped i
  case le => decide
  case unused =>
    intro i _ _
    exact dinodeAt_formatted

/-! ## The run of `main` -/

structure Rooted (s : Image) : Prop where
  intact : Intact s
  freeinode : s.freeinode = 2
  rootSize : rootSize s = 2 * direntSize
  freeblock : s.freeblock = nmeta + 1

theorem makeRoot_outcome (room : Prop) :
    Outcome room makeRoot formatted (fun _ s => Rooted s) := by
  have hslots : formatted.freeinode < slots := by decide
  rw [makeRoot]
  apply (ialloc_outcome intact_formatted hslots (by decide) room).bind
  intro rootino s₁ hcreated
  obtain ⟨rfl, hcreated⟩ := hcreated
  have hfreeinode₁ : s₁.freeinode = 2 := hcreated.freeinode
  have hfreeblock₁ : s₁.freeblock = nmeta := hcreated.freeblock
  have hsize₁ : (dinodeAt s₁.sectors rootIno).size = 0 := by
    have hone : formatted.freeinode = rootIno := rfl
    rw [hcreated.inodes, hone, Function.update_self]
  apply Outcome.bind_eq (assertThat_run rfl)
  have happend : ∀ (s : Image) (name : List Nat) (k : Nat), Intact s → s.freeinode = 2 →
      (dinodeAt s.sectors rootIno).size = k → Room s k direntSize →
      Outcome room (iappend formatted.freeinode (dirent formatted.freeinode name)) s
        (fun _ s' => Extended s rootIno direntSize s') := by
    intro s name k hs hfreeinode hk hroom
    have hrootFree : rootIno < s.freeinode := by rw [hfreeinode]; decide
    have hext := iappend_outcome (p := dirent formatted.freeinode name) hs hrootFree
      (by rw [hfreeinode]; decide)
    rw [dirent_length, hk] at hext
    exact hext.mono (fun _ => hroom) fun _ _ hdone => hdone
  apply (happend s₁ dot 0 hcreated.intact hfreeinode₁ hsize₁
    (by rw [Room, hfreeblock₁]; decide)).bind
  intro _ s₂ hdot
  have hcount₂ := hdot.count
  have hsize₂ := hdot.size
  rw [hsize₁, hfreeblock₁] at hcount₂
  rw [hsize₁] at hsize₂
  have hfreeblock₂ : s₂.freeblock = nmeta + 1 := hcount₂
  apply (happend s₂ dotdot direntSize hdot.intact (hdot.freeinode.trans hfreeinode₁)
    (by rw [hsize₂]; decide) (by rw [Room, hfreeblock₂]; decide)).mono fun hroom => hroom
  intro _ s₃ hdotdot
  have hcount₃ := hdotdot.count
  rw [hsize₂, hfreeblock₂] at hcount₃
  constructor
  case intact => exact hdotdot.intact
  case freeinode => rw [hdotdot.freeinode, hdot.freeinode, hfreeinode₁]
  case rootSize => rw [rootSize, hdotdot.size, hsize₂, direntSize]
  case freeblock =>
    have hneed : need (0 + direntSize) = 1 := by decide
    have hneed' : need (0 + direntSize + direntSize) = 1 := by decide
    omega

def rounded (din : Dinode) : Dinode := { din with size := (din.size / bsize + 1) * bsize }

def finished (s : Image) : Image :=
  (s.withInode rootIno (rounded (dinodeAt s.sectors rootIno))).store bmapstart
    (markUsed s.freeblock)

theorem finish_run {s : Image} (h : Intact s) :
    (do
      fixRootSize
      let s ← get
      balloc s.freeblock : MkfsM Unit) s = .ok ((), finished s) := by
  have hblock : iblock rootIno < s.nsect := by
    rw [h.nsect]
    decide
  have hfix : fixRootSize s =
      .ok ((), s.withInode rootIno (rounded (dinodeAt s.sectors rootIno))) := by
    rw [fixRootSize, Total.run_bind (rinode_run hblock)]
    exact winode_run hblock
  have hget : (get : MkfsM Image) (s.withInode rootIno (rounded (dinodeAt s.sectors rootIno))) =
      .ok (s.withInode rootIno (rounded (dinodeAt s.sectors rootIno)),
        s.withInode rootIno (rounded (dinodeAt s.sectors rootIno))) := rfl
  have hused : (s.withInode rootIno (rounded (dinodeAt s.sectors rootIno))).freeblock < bpb :=
    Nat.lt_of_le_of_lt h.le (by decide)
  rw [Total.run_bind hfix, Total.run_bind hget, balloc, Total.run_bind (assertThat_run hused)]
  rfl

def Fits (files : List Input) : Prop :=
  nmeta + need (2 * direntSize + direntSize * files.length) +
      (files.map fun f => need (fileBytes f)).sum ≤ fsSize ∧
    2 * direntSize + direntSize * files.length ≤ maxFile * bsize ∧
    ∀ f ∈ files, Nameable f ∧ fileBytes f ≤ maxFile * bsize

structure Filled (files : List Input) (s : Image) : Prop where
  intact : Intact s
  freeinode : s.freeinode = 2 + files.length
  rootSize : rootSize s = 2 * direntSize + direntSize * files.length

theorem main_outcome {files : List Input} (hslots : 2 + files.length ≤ slots) :
    Outcome (Fits files) (main files) truncated
      (fun _ s => ∃ s₀, Filled files s₀ ∧ s = finished s₀) := by
  rw [main]
  apply Outcome.bind_eq format_run
  apply (makeRoot_outcome _).bind
  intro _ s₁ hroot
  have hfiles : Outcome (Fits files) (addFiles files) s₁ (fun _ s' => Filled files s') := by
    apply (addFiles_outcome hroot.intact (by rw [hroot.freeinode]; decide)
      (by rw [hroot.freeinode]; exact hslots)).mono
    · intro hfits
      have hneed : need (2 * direntSize) = 1 := by decide
      have hcount := hfits.1
      rw [FilesRoom, hroot.freeblock, hroot.rootSize]
      exact ⟨by omega, hfits.2⟩
    · intro _ s₂ hdone
      obtain ⟨hintact, hfreeinode, hsize⟩ := hdone
      rw [hroot.freeinode] at hfreeinode
      rw [hroot.rootSize] at hsize
      exact { intact := hintact, freeinode := hfreeinode, rootSize := hsize }
  apply hfiles.bind
  intro _ s₂ hfilled
  apply Outcome.of_eq (finish_run hfilled.intact)
  exact ⟨s₂, hfilled, rfl⟩

theorem mkfs_eq_ok {files : List Input} {s : Image} :
    mkfs files = .ok s ↔ main files truncated = .ok ((), s) := by
  rw [mkfs]
  cases main files truncated with
  | error e => simp [Except.map]
  | ok r =>
      obtain ⟨a, t⟩ := r
      simp [Except.map]

theorem mkfs_of_fits {files : List Input} (hslots : 2 + files.length ≤ slots)
    (h : Fits files) : ∃ s, mkfs files = .ok s ∧ ∃ s₀, Filled files s₀ ∧ s = finished s₀ := by
  have hmain := main_outcome hslots
  obtain ⟨a, s, hrun⟩ := hmain.returns h
  exact ⟨s, mkfs_eq_ok.mpr hrun, hmain.post hrun⟩

theorem mkfs_freeinode {files : List Input} {s : Image} (h : mkfs files = .ok s) :
    s.freeinode = 2 + files.length := by
  have hmain := mkfs_eq_ok.mp h
  rw [main, Total.run_bind format_run] at hmain
  obtain ⟨_, s₁, hroot, hmain⟩ := bind_ok hmain
  obtain ⟨_, s₂, hfiles, hmain⟩ := bind_ok hmain
  obtain ⟨_, s₃, hfix, hmain⟩ := bind_ok hmain
  obtain ⟨s₄, s₅, hget, hballoc⟩ := bind_ok hmain
  rw [balloc_unchanged _ _ _ _ hballoc, Unchanged.of_get (f := Image.freeinode) _ _ _ hget,
    fixRootSize_unchanged _ _ _ hfix, addFiles_freeinode hfiles,
    ((makeRoot_outcome True).post hroot).freeinode]

/-! ## The finished image -/

section

variable {s : Image}

theorem fits_rounded (h : Intact s) : (rounded (dinodeAt s.sectors rootIno)).Fits := by
  have hroot : rootIno < slots := by decide
  have hshaped := h.tracks.shaped rootIno hroot
  have hsize : (rounded (dinodeAt s.sectors rootIno)).size < 2 ^ 32 := by
    have hle := hshaped.size_le
    simp only [rounded, bsize, maxFile, ndirect, nindirect] at *
    omega
  have hold := hshaped.fits
  exact { hold with size := hsize }

theorem dinodeAt_finished (h : Intact s) {i : Nat} (hi : i < slots) :
    dinodeAt (finished s).sectors i =
      Function.update (dinodeAt s.sectors) rootIno (rounded (dinodeAt s.sectors rootIno)) i := by
  rw [← dinodeAt_withInode (fits_rounded h), finished, sectors_store]
  exact dinodeAt_congr (Function.update_of_ne (Nat.ne_of_lt (iblock_lt hi)) _ _)

theorem addrs_finished (h : Intact s) {i : Nat} (hi : i < slots) :
    (dinodeAt (finished s).sectors i).addrs = (dinodeAt s.sectors i).addrs := by
  rw [dinodeAt_finished h hi]
  by_cases hroot : i = rootIno
  · rw [hroot, Function.update_self]
    rfl
  · rw [Function.update_of_ne hroot]

theorem tracks_finished (h : Intact s) : Tracks (finished s) (dinodeAt s.sectors) := by
  have hroot : iblock rootIno < nmeta := by decide
  exact (h.tracks.writeMeta _ hroot).writeMeta _ (by decide)

theorem refs_finished (h : Intact s) {i : Nat} (hi : i < slots) :
    refs (finished s) i = share (finished s) (fun i => (dinodeAt s.sectors i).addrs) i := by
  rw [refs, share, addrs_finished h hi]

theorem ninodes_le_slots : ninodes ≤ slots := by decide

/-- The root directory is rounded into a block it does not have exactly when its
entries fill their last block. -/
theorem root_noHoles_iff (h : Intact s) (hroot : rootSize s < maxFile * bsize) :
    (∀ fbn, fbn < blocksFor (rounded (dinodeAt s.sectors rootIno)).size →
      blockAt (finished s).sectors (dinodeAt s.sectors rootIno).addrs fbn ≠ 0) ↔
      rootSize s % bsize ≠ 0 := by
  have hshaped := (tracks_finished h).shaped rootIno (by decide)
  have hle := hshaped.size_le
  have hsize : rootSize s = (dinodeAt s.sectors rootIno).size := rfl
  have hrounded : blocksFor (rounded (dinodeAt s.sectors rootIno)).size =
      rootSize s / bsize + 1 := by
    simp only [rounded, blocksFor, bsize, hsize]
    omega
  have hlast : rootSize s / bsize < maxFile := Nat.div_lt_of_lt_mul (by rwa [Nat.mul_comm])
  rw [hrounded]
  constructor
  · intro hfull
    have hpresent := (hshaped.filled _ hlast).mp (hfull _ (Nat.lt_succ_self _))
    simp only [blocksFor, bsize, hsize] at *
    omega
  · intro hpartial fbn hfbn
    have hlt : fbn < maxFile := by
      simp only [blocksFor, bsize, hsize] at *
      omega
    apply (hshaped.filled fbn hlt).mpr
    simp only [blocksFor, bsize, hsize] at *
    omega

theorem wellFormed_finished_iff (h : Intact s) (hinode : s.freeinode ≤ ninodes)
    (hroot : rootSize s < maxFile * bsize) :
    WellFormed (finished s) ↔ rootSize s % bsize ≠ 0 := by
  have htracks := tracks_finished h
  have hslots := ninodes_le_slots
  have hrootIno : rootIno < slots := by decide
  rw [← root_noHoles_iff h hroot]
  constructor
  · intro hwell fbn hfbn
    have hroot := hwell.noHoles rootIno (by decide) fbn
    rw [addrs_finished h hrootIno, dinodeAt_finished h hrootIno, Function.update_self] at hroot
    exact hroot hfbn
  · intro hfull
    constructor
    case range =>
      intro inum hinum b hb
      have hi : inum < slots := Nat.lt_of_lt_of_le hinum hslots
      rw [refs_finished h hi] at hb
      have hrange := htracks.owned.mem_range hi hb
      exact ⟨hrange.1, Nat.lt_of_lt_of_le hrange.2 h.le⟩
    case once =>
      apply Multiset.nodup_of_le _ htracks.owned.nodup
      calc ∑ inum ∈ Finset.range ninodes, refs (finished s) inum
          = ∑ inum ∈ Finset.range ninodes,
              share (finished s) (fun i => (dinodeAt s.sectors i).addrs) inum := by
            apply Finset.sum_congr rfl
            intro i hi
            exact refs_finished h (Nat.lt_of_lt_of_le (Finset.mem_range.mp hi) hslots)
        _ ≤ ∑ inum ∈ Finset.range slots,
              share (finished s) (fun i => (dinodeAt s.sectors i).addrs) inum :=
            Finset.sum_le_sum_of_subset (Finset.range_mono hslots)
    case bitmap =>
      intro b _
      rw [finished, sectors_store, Function.update_self, bitAt_markUsed, decide_eq_true_eq]
      rfl
    case inodes =>
      intro inum _ hinum
      exact Nat.lt_of_lt_of_le hinum hinode
    case noHoles =>
      intro inum hinum fbn hfbn
      have hi : inum < slots := Nat.lt_of_lt_of_le hinum hslots
      rw [dinodeAt_finished h hi] at hfbn
      rw [addrs_finished h hi]
      by_cases hir : inum = rootIno
      · rw [hir, Function.update_self] at hfbn
        rw [hir]
        exact hfull fbn hfbn
      · rw [Function.update_of_ne hir] at hfbn
        have hshaped := htracks.shaped inum hi
        have hle := hshaped.size_le
        have hlt : fbn < maxFile := by
          simp only [blocksFor, bsize] at *
          omega
        exact (hshaped.filled fbn hlt).mpr hfbn

/-- The inode numbers, without a look at the blocks. -/
theorem length_le_of_wellFormed {files : List Input} (h : mkfs files = .ok s)
    (hwell : WellFormed s) : files.length + 2 ≤ ninodes := by
  have hninodes : ninodes = 200 := rfl
  apply Nat.le_of_not_lt
  intro hlt
  have hbad := hwell.inodes ninodes (by decide) (by rw [mkfs_freeinode h]; omega)
  exact Nat.lt_irrefl _ hbad

theorem wellFormed_iff_of_length {files : List Input} (h : mkfs files = .ok s)
    (hlen : files.length + 2 ≤ ninodes) :
    WellFormed s ↔ (files.length + 2) % (bsize / direntSize) ≠ 0 := by
  have hninodes : ninodes = 200 := rfl
  have hslots : slots = 208 := by decide
  have hmax : maxFile * bsize = 274432 := by decide
  have hslotsLe : 2 + files.length ≤ slots := by omega
  have hmain := (main_outcome hslotsLe).post (mkfs_eq_ok.mp h)
  obtain ⟨s₀, hfilled, rfl⟩ := hmain
  have hsize := hfilled.rootSize
  rw [wellFormed_finished_iff hfilled.intact (by rw [hfilled.freeinode]; omega)
    (by rw [hsize, direntSize]; omega), hsize]
  simp only [bsize, direntSize]
  omega

/-- Exactly which lists of files give a well-formed image. -/
theorem mkfs_wellFormed_iff {files : List Input} (h : mkfs files = .ok s) :
    WellFormed s ↔
      files.length + 2 ≤ ninodes ∧ (files.length + 2) % (bsize / direntSize) ≠ 0 := by
  constructor
  · intro hwell
    have hlen := length_le_of_wellFormed h hwell
    exact ⟨hlen, (wellFormed_iff_of_length h hlen).mp hwell⟩
  · intro hfiles
    exact (wellFormed_iff_of_length h hfiles.1).mpr hfiles.2

end

/-! ## Three lists of files -/

/-- Empty files named `a0`, `a1`, …, `b0`, …. -/
def emptyFiles (n : Nat) : List Input :=
  (List.range n).map fun i => { path := [97 + i / 10, 48 + i % 10], reads := some [] }

theorem nameable_emptyFiles {n : Nat} (h : n ≤ 100) {f : Input} (hf : f ∈ emptyFiles n) :
    Nameable f ∧ fileBytes f = 0 := by
  rw [emptyFiles, List.mem_map] at hf
  obtain ⟨i, hi, rfl⟩ := hf
  rw [List.mem_range] at hi
  have hshort : shortname [97 + i / 10, 48 + i % 10] = [97 + i / 10, 48 + i % 10] := by
    simp [shortname, userDir]
  have hstored : storedName [97 + i / 10, 48 + i % 10] = [97 + i / 10, 48 + i % 10] := by
    have hfirst : 97 + i / 10 ≠ 95 := by omega
    simp [storedName, hshort, underscore, hfirst]
  constructor
  · rw [Nameable, hshort, hstored]
    refine ⟨?_, rfl, by simp [dirSiz]⟩
    simp [slash]
    omega
  · rfl

theorem fits_emptyFiles {n : Nat} (h : n ≤ 100) : Fits (emptyFiles n) := by
  have hlen : (emptyFiles n).length = n := by simp [emptyFiles]
  have hbytes : ((emptyFiles n).map fun f => need (fileBytes f)).sum = 0 := by
    apply List.sum_eq_zero
    intro k hk
    obtain ⟨f, hf, rfl⟩ := List.mem_map.mp hk
    rw [(nameable_emptyFiles h hf).2, need_zero]
  have hneed : need (2 * direntSize + direntSize * n) ≤
      need (2 * direntSize + direntSize * 100) := by
    apply need_mono
    simp only [direntSize]
    omega
  have hfull : nmeta + need (2 * direntSize + direntSize * 100) ≤ fsSize := by decide
  have hmax : maxFile * bsize = 274432 := by decide
  rw [Fits, hlen, hbytes, hmax]
  refine ⟨by omega, by simp only [direntSize]; omega, ?_⟩
  intro f hf
  have hnamed := nameable_emptyFiles h hf
  rw [hnamed.2]
  exact ⟨hnamed.1, Nat.zero_le _⟩

/-- With 62 files the root directory fills its block, and its size is rounded up to
two. -/
theorem mkfs_leaves_hole : ∃ s, mkfs (emptyFiles 62) = .ok s ∧ ¬ WellFormed s := by
  obtain ⟨s, hs, _⟩ := mkfs_of_fits (by decide) (fits_emptyFiles (by decide : 62 ≤ 100))
  refine ⟨s, hs, ?_⟩
  rw [wellFormed_iff_of_length hs (by decide)]
  decide

/-- `user/_sh` of 13 blocks and 5 bytes, read a block at a time, `README` of 700 bytes,
and an empty file. -/
def mixedFiles : List Input :=
  [{ path := userDir ++ [underscore, 115, 104]
     reads := some (List.replicate 13 (List.replicate bsize 7) ++ [[1, 2, 3, 4, 5]]) },
   { path := [82, 69, 65, 68, 77, 69], reads := some [List.replicate 700 65] },
   { path := [101], reads := some [] }]

theorem fits_mixedFiles : Fits mixedFiles := by
  have hfiles : ∀ f ∈ mixedFiles, Nameable f ∧ fileBytes f ≤ maxFile * bsize := by
    intro f hf
    simp only [mixedFiles, List.mem_cons, List.not_mem_nil, or_false] at hf
    rcases hf with rfl | rfl | rfl
    all_goals exact ⟨⟨by decide, rfl, by decide⟩, by decide +kernel⟩
  exact ⟨by decide +kernel, by decide, hfiles⟩

/-- The blocks of `sh` reach past the direct ones. -/
theorem mkfs_wellFormed_mixed : ∃ s, mkfs mixedFiles = .ok s ∧ WellFormed s := by
  obtain ⟨s, hs, _⟩ := mkfs_of_fits (by decide) fits_mixedFiles
  exact ⟨s, hs, (mkfs_wellFormed_iff hs).mpr (by decide)⟩

end SyscallSched.Xv6.Mkfs
