import SyscallSched.Foundation.SlotMap
import SyscallSched.Xv6.Fs.Splice

/-!
# The entries of a directory (`fs.c`, `string.c`)

A directory is a file of entries, and an entry with inode number 0 is free.  `dirSlots`
reads the file as a row of slots whose keys are names up to their 0; a name of `DIRSIZ`
bytes has none.
-/

namespace SyscallSched.Xv6.Fs.Code

open SyscallSched.Foundation SyscallSched.Xv6.Fs SlotMap

/-! ## Entries as they are stored -/

/-- The `n` bytes that `strncpy` stores. -/
def strncpy : Nat → List Nat → List Nat
  | 0, _ => []
  | n + 1, t =>
      if t.headD 0 ≠ 0 then t.headD 0 :: strncpy n t.tail else List.replicate (n + 1) 0

def Dirent.bytes (de : Dirent) : List Nat := [de.inum % 256, de.inum / 256 % 256] ++ de.name

def linkDirent (name : List Nat) (inum : Nat) : Dirent where
  inum := inum
  name := strncpy dirSiz name

def unlinkDirent : Dirent where
  inum := 0
  name := List.replicate dirSiz 0

/-- The loop of `dirlink` over the `left` entries from `off` on; `none` is its panic. -/
def emptyFrom (sb : Superblock) : Nat → Nat → Inode → FsProg (Inode × Option Nat)
  | 0, off, dp => pure (dp, some off)
  | left + 1, off, dp => do
      let r ← readi sb (fun _ _ => true) dp 0 off direntSize
      if r.2.2 = false ∨ r.2.1.length ≠ direntSize then
        pure (r.1, none)
      else if (getDirent r.2.1).inum = 0 then
        pure (r.1, some off)
      else
        emptyFrom sb left (off + direntSize) r.1

/-! ## Entries as slots -/

/-- The name an entry has, if it is in use. -/
def Dirent.slot (de : Dirent) : Option (List Nat × Nat) :=
  if de.inum = 0 then none else some (untilNul de.name, de.inum)

def entryAt (content : List Nat) (i : Nat) : List Nat :=
  (content.drop (i * direntSize)).take direntSize

def dirSlots (content : List Nat) : Slots (List Nat) Nat :=
  (List.range (content.length / direntSize)).map fun i => (getDirent (entryAt content i)).slot

section

variable {name content bytes a : List Nat} {inum i n m : Nat}

@[simp] theorem length_strncpy (n : Nat) (t : List Nat) : (strncpy n t).length = n := by
  induction n generalizing t with
  | zero => rfl
  | succ n ih =>
      rw [strncpy]
      split
      · rw [List.length_cons, ih]
      · rw [List.length_replicate]

theorem untilNul_strncpy (h : 0 ∉ name) : untilNul (strncpy n name) = name.take n := by
  induction n generalizing name with
  | zero => rfl
  | succ n ih =>
      cases name with
      | nil => rfl
      | cons c name =>
          have hc : c ≠ 0 := fun hc => h (hc ▸ List.mem_cons_self)
          have htail := ih fun hmem => h (List.mem_cons_of_mem c hmem)
          have hcopy : strncpy (n + 1) (c :: name) = c :: strncpy n name := if_pos hc
          rw [untilNul] at htail ⊢
          rw [hcopy, List.takeWhile_cons, if_pos (decide_eq_true hc), htail, List.take_succ_cons]

theorem getDirent_dirent {de : Dirent} (h : de.inum < 2 ^ 16) : getDirent de.bytes = de := by
  cases de with
  | mk inum name =>
      have hlow : inum < 65536 := h
      rw [getDirent, Dirent.bytes]
      simp [getLE]
      omega

theorem length_linkDirent (name : List Nat) (inum : Nat) :
    (linkDirent name inum).bytes.length = direntSize := by
  simp [Dirent.bytes, linkDirent, dirSiz, direntSize]

theorem slot_linkDirent (h : 0 ∉ name) (hne : inum ≠ 0) :
    (linkDirent name inum).slot = some (name.take dirSiz, inum) := by
  rw [Dirent.slot, linkDirent, if_neg hne, untilNul_strncpy h]

@[simp] theorem length_dirSlots : (dirSlots content).length = content.length / direntSize := by
  simp [dirSlots]

theorem length_entryAt (h : i < content.length / direntSize) :
    (entryAt content i).length = direntSize := by
  rw [entryAt, List.length_take, List.length_drop]
  simp only [direntSize] at *
  omega

theorem dirSlots_append (ha : a.length = n * direntSize) (content : List Nat) :
    dirSlots (a ++ content) = dirSlots a ++ dirSlots content := by
  have hcount : (a ++ content).length / direntSize = n + content.length / direntSize := by
    rw [List.length_append, ha]
    simp only [direntSize]
    omega
  have hn : a.length / direntSize = n := by
    rw [ha]
    exact Nat.mul_div_cancel n (by decide)
  rw [dirSlots, hcount, List.range_add, List.map_append, List.map_map, dirSlots, hn]
  congr 1
  · apply List.map_congr_left
    intro i hi
    have hi := List.mem_range.mp hi
    have hroom : i * direntSize + direntSize ≤ a.length := by
      rw [ha]
      simp only [direntSize]
      omega
    rw [entryAt, List.drop_append_of_le_length (by omega),
      List.take_append_of_le_length (by rw [List.length_drop]; omega), entryAt]
  · apply List.map_congr_left
    intro i _
    have hdrop : (n + i) * direntSize = a.length + i * direntSize := by
      rw [ha, Nat.add_mul]
    simp only [Function.comp_apply, entryAt, hdrop]
    rw [← List.drop_drop, List.drop_left]

theorem dirSlots_entry (h : bytes.length = direntSize) :
    dirSlots bytes = [(getDirent bytes).slot] := by
  have hone : direntSize / direntSize = 1 := by decide
  rw [dirSlots, h, hone, List.range_one, List.map_singleton, entryAt, Nat.zero_mul, List.drop_zero,
    List.take_of_length_le (Nat.le_of_eq h)]

theorem dirSlots_take (h : i * direntSize ≤ content.length) :
    dirSlots (content.take (i * direntSize)) = (dirSlots content).take i := by
  have hlength : (content.take (i * direntSize)).length = i * direntSize := by
    rw [List.length_take, Nat.min_eq_left h]
  have hslots : (dirSlots (content.take (i * direntSize))).length = i := by
    rw [length_dirSlots, hlength]
    exact Nat.mul_div_cancel i (by decide)
  conv_rhs => rw [← List.take_append_drop (i * direntSize) content, dirSlots_append hlength]
  rw [List.take_left' hslots]

theorem dirSlots_drop (i : Nat) :
    dirSlots (content.drop (i * direntSize)) = (dirSlots content).drop i := by
  by_cases h : i * direntSize ≤ content.length
  · have hlength : (content.take (i * direntSize)).length = i * direntSize := by
      rw [List.length_take, Nat.min_eq_left h]
    have hslots : (dirSlots (content.take (i * direntSize))).length = i := by
      rw [length_dirSlots, hlength]
      exact Nat.mul_div_cancel i (by decide)
    conv_rhs => rw [← List.take_append_drop (i * direntSize) content, dirSlots_append hlength]
    rw [List.drop_left' hslots]
  · have hslots : (dirSlots content).length ≤ i := by
      rw [length_dirSlots]
      simp only [direntSize] at *
      omega
    rw [List.drop_eq_nil_of_le (by omega), List.drop_eq_nil_of_le hslots]
    rfl

theorem dirSlots_splice (h : i * direntSize ≤ content.length) (hb : bytes.length = direntSize) :
    dirSlots (splice content (i * direntSize) bytes) =
      put (dirSlots content) i (getDirent bytes).slot := by
  have hlength : (content.take (i * direntSize)).length = i * direntSize := by
    rw [List.length_take, Nat.min_eq_left h]
  have hnext : i * direntSize + direntSize = (i + 1) * direntSize :=
    (Nat.succ_mul i direntSize).symm
  have hone : bytes.length = 1 * direntSize := by rw [hb, Nat.one_mul]
  rw [splice, List.append_assoc, dirSlots_append hlength, dirSlots_append hone, dirSlots_entry hb,
    dirSlots_take h, hb, hnext, dirSlots_drop, put, List.singleton_append]

end

/-! ## Going through the entries -/

/-- An inode in memory whose file is a directory.  A file that `writei` wrote has no
holes. -/
structure DirFile (v : Nat → Block) (dp : Inode) : Prop where
  type : dp.type = tDir
  aligned : dp.size % direntSize = 0
  noHoles : NoHoles v dp.toDinode

section

variable {sb : Superblock} {v : Nat → Block} {dp : Inode} {name : List Nat} {i m : Nat}

def slotsOf (v : Nat → Block) (d : Dinode) : Slots (List Nat) Nat := dirSlots (contentOf v d)

theorem length_slotsOf (v : Nat → Block) (d : Dinode) :
    (slotsOf v d).length = d.size / direntSize := by
  rw [slotsOf, length_dirSlots, length_contentOf]

theorem DirFile.readi (h : DirFile v dp) (hi : i < (slotsOf v dp.toDinode).length) :
    Looks (readi sb (fun _ _ => true) dp 0 (i * direntSize) direntSize) v
      (dp, entryAt (contentOf v dp.toDinode) i, true) := by
  have hlimit := h.noHoles.size_le
  have hread : Looks (Code.readi sb (fun _ _ => true) dp 0 (i * direntSize) direntSize) v _ :=
    readi_content (fun _ _ => rfl) h.noHoles (by decide)
  rw [length_slotsOf] at hi
  rw [Xv6.readi, length_contentOf, if_neg ?_] at hread
  · exact hread
  · have hmax : maxFile * bsize + direntSize < 2 ^ 32 := by decide
    simp only [direntSize] at *
    omega

theorem DirFile.slot (hi : i < (slotsOf v dp.toDinode).length) :
    (slotsOf v dp.toDinode).drop i =
      (getDirent (entryAt (contentOf v dp.toDinode) i)).slot ::
        (slotsOf v dp.toDinode).drop (i + 1) := by
  rw [List.drop_eq_getElem_cons hi]
  simp [slotsOf, dirSlots]

theorem length_entry (hi : i < (slotsOf v dp.toDinode).length) :
    (entryAt (contentOf v dp.toDinode) i).length = direntSize := by
  rw [length_slotsOf] at hi
  apply length_entryAt
  rw [length_contentOf]
  exact hi

theorem namecmp_entry (hname : 0 ∉ name) (bytes : List Nat) (hlength : bytes.length = direntSize) :
    namecmp name (getDirent bytes).name = 0 ↔
      untilNul (getDirent bytes).name = name.take dirSiz := by
  have hfits : (getDirent bytes).name.length ≤ dirSiz := by
    rw [getDirent, List.length_drop, hlength]
    decide
  rw [namecmp, strncmp_eq_zero_iff hname, List.take_of_length_le hfits, eq_comm]

theorem dirlookupFrom_scans (h : DirFile v dp) (hname : 0 ∉ name)
    (hm : i + m = (slotsOf v dp.toDinode).length) :
    Looks (dirlookupFrom sb name ((List.range' i m).map (· * direntSize)) dp) v
      (dp, .ok ((scan (name.take dirSiz) i ((slotsOf v dp.toDinode).drop i)).map
        fun r => (r.1, r.2 * direntSize))) := by
  induction m generalizing i with
  | zero =>
      have hend : (slotsOf v dp.toDinode).drop i = [] := List.drop_eq_nil_of_le (by omega)
      rw [hend]
      exact looks_pure
  | succ m ih =>
      have hi : i < (slotsOf v dp.toDinode).length := by omega
      have hlength := length_entry hi
      have hcmp := namecmp_entry hname _ hlength
      have hrest := ih (i := i + 1) (by omega)
      rw [List.range'_succ, List.map_cons, DirFile.slot hi, Dirent.slot]
      by_cases hfree : (getDirent (entryAt (contentOf v dp.toDinode) i)).inum = 0
      · rw [if_pos hfree, scan]
        exact dirlookupFrom_miss (h.readi hi) hlength (Or.inl hfree) hrest
      · rw [if_neg hfree, scan]
        by_cases hsame : untilNul (getDirent (entryAt (contentOf v dp.toDinode) i)).name =
            name.take dirSiz
        · rw [if_pos hsame]
          exact dirlookupFrom_hit (h.readi hi) hlength hfree (hcmp.mpr hsame)
        · rw [if_neg hsame]
          exact dirlookupFrom_miss (h.readi hi) hlength
            (Or.inr fun heq => hsame (hcmp.mp heq)) hrest

theorem DirFile.count (h : DirFile v dp) :
    0 + (dp.size + (direntSize - 1)) / direntSize = (slotsOf v dp.toDinode).length := by
  have haligned := h.aligned
  rw [length_slotsOf]
  simp only [direntSize] at *
  omega

theorem dirlookup_scans (h : DirFile v dp) (hname : 0 ∉ name) :
    Looks (dirlookup sb dp name) v
      (dp, .ok ((scan (name.take dirSiz) 0 (slotsOf v dp.toDinode)).map
        fun r => (r.1, r.2 * direntSize))) := by
  rw [dirlookup, if_neg (not_not_intro h.type)]
  exact dirlookupFrom_scans h hname h.count

theorem emptyFrom_finds (h : DirFile v dp) (hm : i + m = (slotsOf v dp.toDinode).length) :
    Looks (emptyFrom sb m (i * direntSize) dp) v
      (dp, some ((i + freeSlot ((slotsOf v dp.toDinode).drop i)) * direntSize)) := by
  induction m generalizing i with
  | zero =>
      have hend : (slotsOf v dp.toDinode).drop i = [] := List.drop_eq_nil_of_le (by omega)
      rw [hend]
      exact looks_pure
  | succ m ih =>
      have hi : i < (slotsOf v dp.toDinode).length := by omega
      rw [emptyFrom, DirFile.slot hi]
      refine (h.readi hi).bind ?_
      rw [if_neg (by simp [length_entry hi]), Dirent.slot]
      by_cases hfree : (getDirent (entryAt (contentOf v dp.toDinode) i)).inum = 0
      · rw [if_pos hfree, if_pos hfree]
        exact looks_pure
      · rw [if_neg hfree, if_neg hfree, ← Nat.succ_mul]
        have hrest := ih (i := i + 1) (by omega)
        simp only [freeSlot, List.findIdx_cons, Option.isNone_some] at hrest ⊢
        rw [Nat.add_assoc, Nat.add_comm 1] at hrest
        exact hrest

end

/-! ## Writing an entry -/

def Source.ofBytes (bytes : List Nat) : Source := .kernel (fun j => bytes.getD j 0) 0

/-- `writei` of the entry `i`: it is in its place, or the file is as it was because it
cannot grow. -/
structure EntryWritten (sb : Superblock) (v : Nat → Block) (dp : Inode) (i : Nat)
    (bytes : List Nat) (r : Inode × Option Nat) (v' : Nat → Block) : Prop where
  updated : Updated sb v dp r.1 v'
  file : DirFile v' r.1
  outcome :
    (r.2 = some direntSize ∧ slotsOf v' r.1.toDinode =
      put (slotsOf v dp.toDinode) i (getDirent bytes).slot) ∨
    (r.2 ≠ some direntSize ∧ slotsOf v' r.1.toDinode = slotsOf v dp.toDinode ∧
      i = (slotsOf v dp.toDinode).length ∧
      (maxFile * bsize < dp.size + direntSize ∨ Full sb v'))

section

variable {sb : Superblock} {v v' : Nat → Block} {dp : Inode} {bytes bs : List Nat} {i : Nat}
  {r : Inode × Option Nat}

theorem kernelBytes_getD (bytes : List Nat) :
    kernelBytes (fun j => bytes.getD j 0) 0 bytes.length = bytes := by
  apply List.ext_getElem
  · simp [kernelBytes]
  · intro j _ hj
    simp [kernelBytes, hj]

theorem offset_le (hi : i ≤ (slotsOf v dp.toDinode).length) :
    i * direntSize ≤ dp.size := by
  rw [length_slotsOf] at hi
  simp only [direntSize] at *
  omega

theorem DirFile.room (h : DirFile v dp) (hi : i ≤ (slotsOf v dp.toDinode).length)
    (hne : i ≠ (slotsOf v dp.toDinode).length) : i * direntSize + direntSize ≤ dp.size := by
  have haligned := h.aligned
  rw [length_slotsOf] at hi hne
  simp only [direntSize] at *
  omega

theorem Stored.entry {t : Nat}
    (h : Stored sb v dp (Source.ofBytes bytes) (i * direntSize) direntSize r v' bs)
    (hdir : DirFile v dp) (hi : i ≤ (slotsOf v dp.toDinode).length)
    (hb : bytes.length = direntSize) (ht : r.2 = some t) :
    EntryWritten sb v dp i bytes r v' := by
  have hoff := offset_le hi
  obtain ⟨hcontent, hnone⟩ := h.content hdir.noHoles hoff ht
  obtain ⟨t', ht', hle, hsize, hkernel⟩ := h.count
  rw [ht] at ht'
  cases ht'
  have hlimit := hdir.noHoles.size_le
  have haligned := hdir.aligned
  by_cases hall : t = direntSize
  · subst hall
    rw [← hb, kernelBytes_getD, hb] at hcontent
    constructor
    case updated => exact h.updated
    case file =>
        refine ⟨h.type.trans hdir.type, ?_, hnone⟩
        rw [hsize]
        simp only [direntSize] at *
        omega
    case outcome =>
        left
        refine ⟨ht, ?_⟩
        rw [slotsOf, hcontent, dirSlots_splice ?_ hb, slotsOf]
        rw [length_contentOf]
        exact hoff
  · -- the loop stopped at the entry, and the file has no block for it
    obtain ⟨hfull, hstopped⟩ := (hkernel _ _ rfl).2 (by omega)
    have hzero : t = 0 := by
      have hstop := hstopped.aligned
      simp only [bsize, direntSize] at *
      omega
    subst hzero
    have hend : i = (slotsOf v dp.toDinode).length := by
      by_contra hne
      have hroom := hdir.room hi hne
      have hpresent := hdir.noHoles (i * direntSize) (Nat.zero_le _)
        (by simp only [direntSize] at *; omega)
      exact hpresent.2 hstopped.missing
    have hnil : kernelBytes (fun j => bytes.getD j 0) 0 0 = [] := rfl
    rw [hnil, splice, List.append_nil, List.length_nil, Nat.add_zero,
      List.take_append_drop] at hcontent
    constructor
    case updated => exact h.updated
    case file =>
        refine ⟨h.type.trans hdir.type, ?_, hnone⟩
        rw [hsize, Nat.add_zero, Nat.max_eq_left hoff]
        exact haligned
    case outcome =>
        right
        refine ⟨?_, by rw [slotsOf, hcontent, slotsOf], hend, Or.inr hfull⟩
        rw [ht]
        decide

theorem writei_entry (hl : sb.Laid) (hs : Settled sb v) (h : Synced sb v dp)
    (hdir : DirFile v dp) (hi : i ≤ (slotsOf v dp.toDinode).length)
    (hb : bytes.length = direntSize) :
    Performs (writei sb dp (Source.ofBytes bytes) (i * direntSize) direntSize) v
      fun r v' bs => EntryWritten sb v dp i bytes r v' ∧ (∀ b ∈ bs, sb.Writes b) ∧
        bs.toFinset.card ≤ maxOpBlocks := by
  have hoff := offset_le hi
  have hlimit := hdir.noHoles.size_le
  have hmax : maxFile * bsize + direntSize < 2 ^ 32 := by decide
  have hsmall : direntSize < 2 ^ 32 := by decide
  have hshort : direntSize ≤ filewriteMax := by decide
  apply ((writei_performs hl hs h (by omega) hsmall).and
    (writei_logs hdir.noHoles hoff hshort)).imp
  intro r v' bs hr
  obtain ⟨hr, hcard⟩ := hr
  cases hr with
  | inl hrefused =>
      obtain ⟨hrefused, rfl, rfl, rfl⟩ := hrefused
      have hend : i = (slotsOf v' dp.toDinode).length := by
        by_contra hne
        have hroom := hdir.room hi hne
        rw [WriteRefused] at hrefused
        omega
      refine ⟨⟨Updated.refl h hs, hdir, Or.inr ⟨by simp, rfl, hend, Or.inl ?_⟩⟩, by simp, hcard⟩
      rw [WriteRefused] at hrefused
      omega
  | inr hstored =>
      obtain ⟨-, hstored⟩ := hstored
      obtain ⟨t, ht, -⟩ := hstored.count
      exact ⟨hstored.entry hdir hi hb ht, hstored.writes, hcard⟩

end

end SyscallSched.Xv6.Fs.Code
