import SyscallSched.Xv6.Fs.Directory
import SyscallSched.Xv6.Mkfs.Contents

/-!
# The kernel reads what `mkfs` wrote

The superblock, the root directory and the files of an image as `fsinit`, `dirlookup`
and `readi` find them.  The two programs meet at the content of the files in the image.
-/

namespace SyscallSched.Xv6.Mkfs

open SyscallSched.Foundation SyscallSched.Xv6.Fs

/-- Where readers see `v`, the kernel finds `name` in the root directory and reads
`content` from its inode. -/
def KernelReads (v : Nat → Block) (name content : List Nat) : Prop :=
  ∃ sb dp inum off ip,
    Code.Reads Code.fsinit v (some sb) ∧
    Code.Reads (Code.readInode sb rootIno) v dp ∧
    Code.Reads (Code.dirlookup sb dp name) v (dp, .ok (some (inum, off))) ∧
    Code.Reads (Code.readInode sb inum) v ip ∧
    ip.size = content.length ∧
    ∀ copyout dst n, (∀ d m, copyout d m = true) → content.length ≤ n → n < 2 ^ 32 →
      Code.Reads (Code.readi sb copyout ip dst 0 n) v (ip, content, true)

/-! ## The superblock -/

/-- The superblock as the kernel reads it. -/
def kernelSuperblock : Code.Superblock where
  size := fsSize
  ninodes := ninodes
  inodestart := inodestart
  bmapstart := bmapstart

theorem word_superblock {j w : Nat}
    (hw : [fsMagic, fsSize, nblocks, ninodes, nlog, logstart, inodestart, bmapstart][j]? = some w) :
    superblock.word j = w := by
  obtain ⟨hj, rfl⟩ := List.getElem?_eq_some_iff.mp hw
  have hall : ∀ w ∈ [fsMagic, fsSize, nblocks, ninodes, nlog, logstart, inodestart, bmapstart],
      w < 256 ^ 4 := by decide
  have hread : getLE superblock (0 + 4 * j) 4 = _ :=
    getLE_setWords hj (hall _ (List.getElem_mem hj))
  rw [Nat.zero_add] at hread
  exact hread

theorem getSuperblock_superblock : Code.getSuperblock superblock = kernelSuperblock := by
  rw [Code.getSuperblock, word_superblock (j := 1) rfl, word_superblock (j := 3) rfl,
    word_superblock (j := 6) rfl, word_superblock (j := 7) rfl, kernelSuperblock]

theorem fsinit_image {v : Nat → Block} (hsuper : v 1 = superblock) :
    Code.Reads Code.fsinit v (some kernelSuperblock) := by
  have hmagic : (v 1).word 0 = Code.fsmagic := by
    rw [hsuper]
    exact word_superblock rfl
  have hread := (Code.fsinit_looks hmagic).reads
  rw [hsuper, getSuperblock_superblock] at hread
  exact hread

theorem superblock_finished {s : Image} (h : s.sectors 1 = superblock) :
    (finished s).sectors 1 = superblock := by
  have hne : 1 ≠ bmapstart := by decide
  rw [finished, sectors_store, Function.update_of_ne hne, sectors_withInode, h]

/-! ## The root directory -/

/-- Numbers from `k` on for the files. -/
def numbered : Nat → List Input → List Code.DirEntry
  | _, [] => []
  | k, f :: files => (k, storedName f.path) :: numbered (k + 1) files

def rootEntries (files : List Input) : List Code.DirEntry :=
  (rootIno, dot) :: (rootIno, dotdot) :: numbered 2 files

theorem numbered_split {files : List Input} {j k : Nat} {f : Input} (hf : files[j]? = some f) :
    numbered k files =
      numbered k (files.take j) ++
        (k + j, storedName f.path) :: numbered (k + j + 1) (files.drop (j + 1)) := by
  induction files generalizing j k with
  | nil => simp at hf
  | cons g files ih =>
      cases j with
      | zero =>
          rw [List.getElem?_cons_zero, Option.some.injEq] at hf
          rw [hf]
          rfl
      | succ j =>
          rw [List.getElem?_cons_succ] at hf
          have hsum : k + 1 + j = k + (j + 1) := by omega
          rw [numbered, ih hf, hsum]
          rfl

@[simp] theorem length_numbered (k : Nat) (files : List Input) :
    (numbered k files).length = files.length := by
  induction files generalizing k with
  | nil => rfl
  | cons f files ih => rw [numbered, List.length_cons, ih, List.length_cons]

theorem mem_numbered {k : Nat} {files : List Input} {e : Code.DirEntry}
    (he : e ∈ numbered k files) :
    e.1 < k + files.length ∧ ∃ f ∈ files, storedName f.path = e.2 := by
  induction files generalizing k with
  | nil => cases he
  | cons f files ih =>
      rw [List.length_cons]
      cases List.mem_cons.mp he with
      | inl heq =>
          rw [heq]
          exact ⟨by omega, f, List.mem_cons_self, rfl⟩
      | inr hmem =>
          obtain ⟨hlt, g, hg, hname⟩ := ih hmem
          exact ⟨by omega, g, List.mem_cons_of_mem f hg, hname⟩

theorem entriesFrom_eq (k : Nat) (files : List Input) :
    entriesFrom k files = (numbered k files).flatMap Code.DirEntry.bytes := by
  induction files generalizing k with
  | nil => rfl
  | cons f files ih => rw [entriesFrom, ih, numbered, List.flatMap_cons, Code.DirEntry.bytes]

theorem slice_entries {es : List Code.DirEntry} {j : Nat} {e : Code.DirEntry}
    (he : es[j]? = some e) :
    ((es.flatMap Code.DirEntry.bytes).drop (j * direntSize)).take direntSize = e.bytes := by
  have hlength : ∀ e : Code.DirEntry, e.bytes.length = direntSize := fun e => dirent_length e.1 e.2
  induction es generalizing j with
  | nil => simp at he
  | cons e' es ih =>
      rw [List.flatMap_cons]
      cases j with
      | zero =>
          rw [List.getElem?_cons_zero, Option.some.injEq] at he
          rw [Nat.zero_mul, List.drop_zero, he, ← hlength e, List.take_left]
      | succ j =>
          rw [List.getElem?_cons_succ] at he
          have hskip : (j + 1) * direntSize = e'.bytes.length + j * direntSize := by
            rw [hlength, Nat.succ_mul, Nat.add_comm]
          rw [hskip, List.drop_append, List.drop_of_length_le (Nat.le_add_right _ _),
            List.nil_append, Nat.add_sub_cancel_left]
          exact ih he

theorem present_finished {s : Image} {i : Nat} (h : Intact s) (hi : i < slots) (n : Nat)
    (hn : n ≤ (dinodeAt s.sectors i).size) :
    Code.Present (finished s).sectors (dinodeAt s.sectors i).addrs 0 n := by
  intro o _ ho
  exact ((tracks_finished h).shaped i hi).block_ne_zero (by omega)

def rootInode (s : Image) : Code.Inode :=
  { dinodeAt (finished s).sectors rootIno with inum := rootIno }

theorem rootInode_eq {s : Image} (h : Intact s) :
    rootInode s = { rounded (dinodeAt s.sectors rootIno) with inum := rootIno } := by
  rw [rootInode, dinodeAt_finished h (by decide), Function.update_self]

theorem rootInode_holds {s : Image} {files : List Input} (h : Filled files s)
    (hrecorded : Recorded files s) :
    Code.Holds (finished s).sectors (rootInode s) 0 (rootEntries files) := by
  have hroot : rootIno < slots := by decide
  have hlength : (rootEntries files).length = 2 + files.length := by
    rw [rootEntries, List.length_cons, List.length_cons, length_numbered]
    omega
  have hsize : (dinodeAt s.sectors rootIno).size = (2 + files.length) * direntSize := by
    have hrootSize := h.rootSize
    rw [rootSize] at hrootSize
    rw [hrootSize, Nat.add_mul, Nat.mul_comm direntSize]
  have hcontent : contentOf s.sectors (dinodeAt s.sectors rootIno) =
      (rootEntries files).flatMap Code.DirEntry.bytes := by
    have hfile := congrArg File.content hrecorded.root
    rw [entriesFrom_eq, List.append_assoc] at hfile
    exact hfile
  have hsame : contentOf (finished s).sectors (dinodeAt s.sectors rootIno) =
      contentOf s.sectors (dinodeAt s.sectors rootIno) :=
    contentOf_congr rfl fun o ho => byteAt_finished h.intact hroot ho
  rw [rootInode_eq h.intact]
  constructor
  case bytes =>
    intro j e he
    have hj : j < 2 + files.length := by
      rw [← hlength]
      exact (List.getElem?_eq_some_iff.mp he).1
    have hin : j * direntSize + direntSize ≤ (dinodeAt s.sectors rootIno).size := by
      rw [hsize, direntSize]
      omega
    change Code.bytesFrom (finished s).sectors (dinodeAt s.sectors rootIno).addrs
      ((0 + j) * direntSize) direntSize = e.bytes
    rw [Nat.zero_add, Code.bytesFrom_eq hin, hsame, hcontent, slice_entries he]
  case present =>
    rw [Nat.zero_mul, hlength, ← hsize]
    exact present_finished h.intact hroot _ (Nat.le_refl _)
  case size_le =>
    change _ ≤ ((dinodeAt s.sectors rootIno).size / bsize + 1) * bsize
    rw [hlength, hsize, bsize, direntSize]
    omega

theorem rootInode_size_lt {s : Image} (h : Intact s) : (rootInode s).size < 2 ^ 32 := by
  rw [rootInode_eq h]
  exact (fits_rounded h).size

/-! ## The files -/

/-- Distinct names that a directory can hold. -/
structure ProperNames (files : List Input) : Prop where
  /-- a path is a C string -/
  strings : ∀ f ∈ files, 0 ∉ f.path
  distinct : (files.map fun f => storedName f.path).Nodup
  notDots : ∀ f ∈ files, storedName f.path ≠ dot ∧ storedName f.path ≠ dotdot

theorem storedName_subset (path : List Nat) : storedName path ⊆ path := by
  have hshort : shortname path ⊆ path := by
    rw [shortname]
    split
    · exact List.drop_subset _ _
    · exact List.Subset.refl _
  rw [storedName]
  split
  · exact fun _ hc => hshort (List.tail_subset _ hc)
  · exact hshort

theorem ProperNames.nameable {files : List Input} (h : ProperNames files) {f : Input}
    (hf : f ∈ files) (hlength : (storedName f.path).length ≤ dirSiz) :
    Code.Nameable (storedName f.path) where
  noNul := fun hnul => h.strings f hf (storedName_subset _ hnul)
  length_le := hlength

theorem ProperNames.earlier {files : List Input} {j : Nat} {f : Input} (h : ProperNames files)
    (hlengths : ∀ f ∈ files, (storedName f.path).length ≤ dirSiz)
    (hslots : 2 + files.length ≤ slots) (hf : files[j]? = some f) (e : Code.DirEntry)
    (he : e ∈ (rootIno, dot) :: (rootIno, dotdot) :: numbered 2 (files.take j)) :
    e.1 < 2 ^ 16 ∧ Code.Nameable e.2 ∧ e.2 ≠ storedName f.path := by
  have hmem : f ∈ files := List.mem_of_getElem? hf
  have hslots' : slots = 208 := by decide
  simp only [List.mem_cons] at he
  obtain heq | heq | hmem' := he
  · rw [heq]
    exact ⟨by decide, ⟨by decide, by decide⟩, (h.notDots f hmem).1.symm⟩
  · rw [heq]
    exact ⟨by decide, ⟨by decide, by decide⟩, (h.notDots f hmem).2.symm⟩
  · obtain ⟨hlt, g, hg, hname⟩ := mem_numbered hmem'
    rw [List.length_take] at hlt
    have hgmem : g ∈ files := List.mem_of_mem_take hg
    rw [← hname]
    refine ⟨by omega, h.nameable hgmem (hlengths g hgmem), ?_⟩
    -- an equal name would stand twice among the names
    obtain ⟨hj, hget⟩ := List.getElem?_eq_some_iff.mp hf
    have hsplit : files = files.take j ++ f :: files.drop (j + 1) := by
      rw [← hget, List.getElem_cons_drop, List.take_append_drop]
    have hdistinct := h.distinct
    rw [hsplit, List.map_append, List.map_cons, List.nodup_append] at hdistinct
    exact hdistinct.2.2 _ (List.mem_map_of_mem hg) _ List.mem_cons_self

theorem kernelReads_finished {s : Image} {files : List Input} {j : Nat} {f : Input}
    (h : Filled files s) (hrecorded : Recorded files s) (hslots : 2 + files.length ≤ slots)
    (hnames : ProperNames files) (hlengths : ∀ f ∈ files, (storedName f.path).length ≤ dirSiz)
    (hf : files[j]? = some f) :
    KernelReads (finished s).sectors (storedName f.path) f.content := by
  have hj : j < files.length := (List.getElem?_eq_some_iff.mp hf).1
  have hmem : f ∈ files := List.mem_of_getElem? hf
  have hslots' : slots = 208 := by decide
  have hroot : rootIno = 1 := rfl
  have hi : 2 + j < slots := by omega
  have hne : 2 + j ≠ rootIno := by omega
  have hinode : dinodeAt (finished s).sectors (2 + j) = dinodeAt s.sectors (2 + j) := by
    rw [dinodeAt_finished h.intact hi, Function.update_of_ne hne]
  have hfile : fileAt (finished s) (2 + j) = ⟨tFile, f.content⟩ := by
    rw [fileAt_finished h.intact hi hne, hrecorded.file j f hf]
  have htype : (dinodeAt (finished s).sectors (2 + j)).type = tFile := congrArg File.type hfile
  have hcontent : contentOf (finished s).sectors (dinodeAt (finished s).sectors (2 + j)) =
      f.content := congrArg File.content hfile
  have hsize : (dinodeAt (finished s).sectors (2 + j)).size = f.content.length := by
    rw [← hcontent, length_contentOf]
  have hrootType : (rootInode s).type = tDir := by
    rw [rootInode_eq h.intact]
    exact congrArg File.type hrecorded.root
  have hholds := rootInode_holds h hrecorded
  rw [rootEntries, numbered_split hf] at hholds
  have hlookup : Code.Looks (Code.dirlookup kernelSuperblock (rootInode s) (storedName f.path))
      (finished s).sectors _ :=
    Code.dirlookup_looks hrootType (hnames.nameable hmem (hlengths f hmem)) (by omega)
      (by omega) (hnames.earlier hlengths hslots hf) hholds (rootInode_size_lt h.intact)
  refine ⟨kernelSuperblock, rootInode s, 2 + j, _,
    { dinodeAt (finished s).sectors (2 + j) with inum := 2 + j },
    fsinit_image (superblock_finished hrecorded.superblock), ?_, hlookup.reads, ?_, hsize, ?_⟩
  · apply (Code.readInode_looks ?_).reads
    have hdir : (dinodeAt (finished s).sectors rootIno).type = tDir := hrootType
    change (dinodeAt (finished s).sectors rootIno).type ≠ 0
    rw [hdir]
    decide
  · apply (Code.readInode_looks ?_).reads
    change (dinodeAt (finished s).sectors (2 + j)).type ≠ 0
    rw [htype]
    decide
  · intro copyout dst n hcopy hle hn
    have hmin : min n ((dinodeAt (finished s).sectors (2 + j)).size - 0) = f.content.length := by
      rw [hsize]
      omega
    have hbytes : Code.bytesFrom (finished s).sectors
        (dinodeAt (finished s).sectors (2 + j)).addrs 0 f.content.length = f.content := by
      rw [Code.bytesFrom_eq (by omega), hcontent, List.drop_zero, List.take_length]
    have hpresent : Code.Present (finished s).sectors
        (dinodeAt (finished s).sectors (2 + j)).addrs 0
        (min n ((dinodeAt (finished s).sectors (2 + j)).size - 0)) := by
      rw [hmin, ← hsize, hinode]
      exact present_finished h.intact hi _ (Nat.le_refl _)
    have hread : Code.Looks (Code.readi kernelSuperblock copyout
        { dinodeAt (finished s).sectors (2 + j) with inum := 2 + j } dst 0 n)
        (finished s).sectors _ :=
      Code.readi_looks hcopy (Nat.zero_le _) (by omega) hpresent
    change Code.Looks _ _ (_, Code.bytesFrom (finished s).sectors
      (dinodeAt (finished s).sectors (2 + j)).addrs 0
      (min n ((dinodeAt (finished s).sectors (2 + j)).size - 0)), true) at hread
    rw [hmin, hbytes] at hread
    exact hread.reads

/-- Every file that fits is found by its name, and its bytes are read back. -/
theorem mkfs_kernelReads (files : List Input) (hslots : 2 + files.length ≤ slots)
    (hfits : Fits files) (hnames : ProperNames files) :
    ∃ s, mkfs files = .ok s ∧
      ∀ f ∈ files, KernelReads s.sectors (storedName f.path) f.content := by
  obtain ⟨s, hmkfs, -⟩ := mkfs_of_fits hslots hfits
  refine ⟨s, hmkfs, ?_⟩
  obtain ⟨s₀, hfilled, hrecorded, rfl⟩ := (main_files hslots).post (mkfs_eq_ok.mp hmkfs)
  intro f hf
  obtain ⟨j, hj⟩ := List.mem_iff_getElem?.mp hf
  exact kernelReads_finished hfilled hrecorded hslots hnames
    (fun f hf => (hfits.2.2 f hf).1.2.2) hj

/-- `user/_ls`, read in two pieces, and a file with a name of 14 bytes. -/
def twoFiles : List Input :=
  [{ path := userDir ++ [underscore, 108, 115], reads := some [[1, 2, 3], [4]] },
    { path := (List.range dirSiz).map (97 + ·), reads := some [] }]

theorem mkfs_kernelReads_two : ∃ s, mkfs twoFiles = .ok s ∧
    ∀ f ∈ twoFiles, KernelReads s.sectors (storedName f.path) f.content := by
  have hlist : ∀ f ∈ twoFiles, (Nameable f ∧ fileBytes f ≤ maxFile * bsize) ∧ 0 ∉ f.path ∧
      storedName f.path ≠ dot ∧ storedName f.path ≠ dotdot := by
    intro f hf
    simp only [twoFiles, List.mem_cons, List.not_mem_nil, or_false] at hf
    obtain rfl | rfl := hf
    · exact ⟨⟨⟨by decide, by decide, by decide⟩, by decide⟩, by decide⟩
    · exact ⟨⟨⟨by decide, by decide, by decide⟩, by decide⟩, by decide⟩
  exact mkfs_kernelReads twoFiles (by decide) ⟨by decide, by decide, fun f hf => (hlist f hf).1⟩
    ⟨fun f hf => (hlist f hf).2.1, by decide, fun f hf => (hlist f hf).2.2⟩

end SyscallSched.Xv6.Mkfs
