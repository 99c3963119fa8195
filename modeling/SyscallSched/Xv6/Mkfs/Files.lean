import SyscallSched.Xv6.Mkfs.Append

/-!
# The image while files are added

`Intact` is the invariant between the calls of `main`.  Each step is followed by
what it does to the sizes of the inodes and to the number of blocks handed out.
-/

namespace SyscallSched.Xv6.Mkfs

open SyscallSched.Foundation SyscallSched.Xv6.Fs

structure Intact (s : Image) : Prop where
  tracks : Tracks s (dinodeAt s.sectors)
  le : s.freeblock ≤ fsSize
  unused : ∀ i, s.freeinode ≤ i → i < slots → dinodeAt s.sectors i = {}

/-! ## Inodes in the image -/

section

variable {s : Image} {inum i : Nat} {ip : Dinode} {sectors sectors' : Nat → Block}

theorem iblock_lt (h : inum < slots) : iblock inum < bmapstart := by
  have hslots : slots = 208 := by decide
  have hipb : ipb = 16 := by decide
  have hstart : inodestart = 32 := by decide
  have hmap : bmapstart = 45 := by decide
  rw [iblock, hipb, hstart, hmap]
  omega

theorem iblock_lt_nmeta (h : inum < slots) : iblock inum < nmeta :=
  Nat.lt_of_lt_of_le (iblock_lt h) (by decide)

theorem iblock_lt_fsSize (h : inum < slots) : iblock inum < fsSize :=
  Nat.lt_of_lt_of_le (iblock_lt h) (by decide)

theorem dinodeAt_congr (h : sectors' (iblock i) = sectors (iblock i)) :
    dinodeAt sectors' i = dinodeAt sectors i := by
  rw [dinodeAt, dinodeAt, h]

theorem inodeOffset_disjoint (hne : i ≠ inum) (h : iblock i = iblock inum) :
    inodeOffset i + dinodeSize ≤ inodeOffset inum ∨
      inodeOffset inum + dinodeSize ≤ inodeOffset i := by
  have hipb : ipb = 16 := by decide
  have hsize : dinodeSize = 64 := rfl
  simp only [iblock, inodeOffset, hipb, hsize] at *
  omega

theorem dinodeAt_winode (hip : ip.Fits) :
    dinodeAt (Function.update sectors (iblock inum)
      (putDinode ip (inodeOffset inum) (sectors (iblock inum)))) =
      Function.update (dinodeAt sectors) inum ip := by
  funext i
  by_cases hi : i = inum
  · rw [hi, dinodeAt, Function.update_self, Function.update_self, getDinode_putDinode hip]
  · rw [Function.update_of_ne hi]
    by_cases hblock : iblock i = iblock inum
    · rw [dinodeAt, hblock, Function.update_self,
        getDinode_putDinode_of_disjoint (inodeOffset_disjoint hi hblock), dinodeAt, hblock]
    · exact dinodeAt_congr (Function.update_of_ne hblock _ _)

def Image.withInode (s : Image) (inum : Nat) (ip : Dinode) : Image :=
  s.store (iblock inum) (putDinode ip (inodeOffset inum) (s.sectors (iblock inum)))

theorem winode_run (h : iblock inum < s.nsect) :
    winode inum ip s = .ok ((), s.withInode inum ip) := by
  rw [winode, Total.run_bind (rsect_run_of_lt h)]
  rfl

theorem rinode_run (h : iblock inum < s.nsect) :
    rinode inum s = .ok (dinodeAt s.sectors inum, s) := by
  rw [rinode, Total.run_bind (rsect_run_of_lt h)]
  rfl

theorem dinodeAt_withInode (hip : ip.Fits) :
    dinodeAt (s.withInode inum ip).sectors = Function.update (dinodeAt s.sectors) inum ip :=
  dinodeAt_winode hip

end

/-! ## `iappend` -/

structure Extended (s : Image) (inum n : Nat) (s' : Image) : Prop where
  intact : Intact s'
  size : (dinodeAt s'.sectors inum).size = (dinodeAt s.sectors inum).size + n
  other : ∀ i, i < slots → i ≠ inum → dinodeAt s'.sectors i = dinodeAt s.sectors i
  count : s'.freeblock + need (dinodeAt s.sectors inum).size =
    s.freeblock + need ((dinodeAt s.sectors inum).size + n)
  freeinode : s'.freeinode = s.freeinode

theorem Intact.nsect {s : Image} (h : Intact s) : s.nsect = fsSize := h.tracks.owned.nsect

theorem Appended.tracks_dinodeAt {s s' : Image} {inum off n : Nat} {r : Dinode × Nat}
    (h : Appended s (dinodeAt s.sectors) inum off n r s') :
    ∀ i, i < slots → i ≠ inum → dinodeAt s'.sectors i = dinodeAt s.sectors i := by
  intro i hi _
  exact dinodeAt_congr (h.inodes _ (iblock_lt_nmeta hi))

theorem Tracks.congr {s : Image} {d d' : Nat → Dinode} (h : Tracks s d)
    (hd : ∀ i, i < slots → d' i = d i) : Tracks s d' := by
  constructor
  case owned =>
    constructor
    case nsect => exact h.owned.nsect
    case meta_le => exact h.owned.meta_le
    case le => exact h.owned.le
    case owned =>
      rw [← h.owned.owned]
      apply Finset.sum_congr rfl
      intro i hi
      rw [share, share, hd i (Finset.mem_range.mp hi)]
    case fresh => exact h.owned.fresh
  case shaped =>
    intro i hi
    rw [hd i hi]
    exact h.shaped i hi

theorem Intact.ready {s : Image} {inum : Nat} (h : Intact s) (hlt : inum < slots) :
    Ready s (dinodeAt s.sectors) inum (dinodeAt s.sectors inum) (dinodeAt s.sectors inum).size :=
  { tracks := h.tracks, inum_lt := hlt, inode := rfl, le := h.le }

theorem iappend_loop {s : Image} {inum : Nat} {p : List Nat} {room : Prop}
    {R : Dinode × Nat → Image → Prop} {Q : Image → Prop} (h : Intact s) (hlt : inum < slots)
    (hloop : Outcome room
      (appendLoop (dinodeAt s.sectors inum) (dinodeAt s.sectors inum).size p) s R)
    (hQ : ∀ r s₁ ip, ip = { r.1 with size := (dinodeAt s.sectors inum).size + p.length } → R r s₁ →
      Appended s (dinodeAt s.sectors) inum (dinodeAt s.sectors inum).size p.length r s₁ →
      dinodeAt (s₁.withInode inum ip).sectors = Function.update (dinodeAt s₁.sectors) inum ip →
      Q (s₁.withInode inum ip)) :
    Outcome room (iappend inum p) s fun _ s' => Q s' := by
  have hblock : iblock inum < s.nsect := by
    rw [h.nsect]
    exact iblock_lt_fsSize hlt
  rw [iappend]
  apply Outcome.bind_eq (rinode_run hblock)
  apply (hloop.and (appendLoop_outcome (h.ready hlt))).bind
  rintro r s₁ ⟨hr, happended⟩
  have hshaped := happended.tracks.shaped inum hlt
  rw [Function.update_self] at hshaped
  have hblock₁ : iblock inum < s₁.nsect := by
    rw [happended.tracks.owned.nsect]
    exact iblock_lt_fsSize hlt
  rw [happended.size]
  exact Outcome.of_eq (winode_run hblock₁)
    (hQ r s₁ _ rfl hr happended (dinodeAt_withInode hshaped.fits))

theorem iappend_outcome {s : Image} {inum : Nat} {p : List Nat} (h : Intact s)
    (hinum : inum < s.freeinode) (hslots : s.freeinode ≤ slots) :
    Outcome (Room s (dinodeAt s.sectors inum).size p.length) (iappend inum p) s
      (fun _ s' => Extended s inum p.length s') := by
  have hlt : inum < slots := by omega
  apply iappend_loop h hlt (appendLoop_outcome (h.ready hlt))
  rintro r s₁ ip hip - happended hinodes
  constructor
  case intact =>
    constructor
    case tracks =>
      rw [hinodes, hip]
      apply (happended.tracks.writeMeta _ (iblock_lt_nmeta hlt)).congr
      intro i hi
      by_cases heq : i = inum
      · rw [heq, Function.update_self, Function.update_self]
      · rw [Function.update_of_ne heq, Function.update_of_ne heq,
          happended.tracks_dinodeAt i hi heq]
    case le => exact happended.le
    case unused =>
      intro i hi hislots
      change s₁.freeinode ≤ i at hi
      rw [happended.freeinode] at hi
      have hne : i ≠ inum := by omega
      rw [hinodes, Function.update_of_ne hne, happended.tracks_dinodeAt i hislots hne]
      exact h.unused i hi hislots
  case size => rw [hinodes, Function.update_self, hip]
  case other =>
    intro i hi hne
    rw [hinodes, Function.update_of_ne hne]
    exact happended.tracks_dinodeAt i hi hne
  case count => exact happended.count
  case freeinode => exact happended.freeinode

/-! ## `ialloc` -/

structure Created (s : Image) (ip : Dinode) (s' : Image) : Prop where
  intact : Intact s'
  inodes : dinodeAt s'.sectors = Function.update (dinodeAt s.sectors) s.freeinode ip
  freeblock : s'.freeblock = s.freeblock
  freeinode : s'.freeinode = s.freeinode + 1

theorem shaped_empty {sectors : Nat → Block} {ip : Dinode} (hip : ip.Fits)
    (hsize : ip.size = 0) (haddrs : ip.addrs = fun _ => 0) : Shaped sectors ip := by
  have hblocks : blocksFor 0 = 0 := by decide
  constructor
  case fits => exact hip
  case size_le =>
    rw [hsize]
    exact Nat.zero_le _
  case filled =>
    intro fbn _
    have hnone : blockAt sectors ip.addrs fbn = 0 := by simp [blockAt, haddrs]
    rw [hnone, hsize, hblocks]
    simp
  case indirect =>
    rw [hsize, hblocks, haddrs]
    simp

def Image.nextInode (s : Image) : Image := { s with freeinode := s.freeinode + 1 }

theorem Intact.created {s : Image} {ip : Dinode} (h : Intact s) (hslots : s.freeinode < slots)
    (hip : ip.Fits) (hsize : ip.size = 0) (haddrs : ip.addrs = fun _ => 0) :
    Created s ip (s.nextInode.withInode s.freeinode ip) := by
  have hinodes : dinodeAt (s.nextInode.withInode s.freeinode ip).sectors =
      Function.update (dinodeAt s.sectors) s.freeinode ip := dinodeAt_withInode hip
  have hnext : Tracks s.nextInode (dinodeAt s.sectors) :=
    { owned := { h.tracks.owned with }, shaped := h.tracks.shaped }
  have hmeta : Tracks (s.nextInode.withInode s.freeinode ip) (dinodeAt s.sectors) :=
    hnext.writeMeta _ (iblock_lt_nmeta hslots)
  have hempty : (dinodeAt s.sectors s.freeinode).addrs = ip.addrs := by
    rw [h.unused _ (Nat.le_refl _) hslots, haddrs]
  constructor
  case intact =>
    constructor
    case tracks =>
      rw [hinodes]
      apply Tracks.update
      case howned =>
        rw [← hempty, Function.update_eq_self]
        exact hmeta.owned
      case hself => exact shaped_empty hip hsize haddrs
      case hother =>
        intro i hi _
        exact hmeta.shaped i hi
    case le => exact h.le
    case unused =>
      intro i hi hislots
      have hne : i ≠ s.freeinode := Nat.ne_of_gt hi
      rw [hinodes, Function.update_of_ne hne]
      exact h.unused i (Nat.le_of_succ_le hi) hislots
  case inodes => exact hinodes
  case freeblock => rfl
  case freeinode => rfl

theorem ialloc_run {s : Image} (h : Intact s) (hslots : s.freeinode < slots) (type : Nat) :
    ialloc type s = .ok (s.freeinode,
      s.nextInode.withInode s.freeinode { type := type, nlink := 1, size := 0 }) := by
  have hblock : iblock s.freeinode < s.nextInode.nsect := by
    change iblock s.freeinode < s.nsect
    rw [h.nsect]
    exact iblock_lt_fsSize hslots
  have hnext : nextInode s = .ok (s.freeinode, s.nextInode) := rfl
  rw [ialloc, Total.run_bind hnext, Total.run_bind (winode_run hblock)]
  rfl

theorem fits_ialloc {type : Nat} (htype : type < 2 ^ 16) :
    Dinode.Fits { type := type, nlink := 1, size := 0 } := by
  constructor <;> simp
  case type => exact htype

theorem ialloc_outcome {s : Image} {type : Nat} (h : Intact s) (hslots : s.freeinode < slots)
    (htype : type < 2 ^ 16) (room : Prop) :
    Outcome room (ialloc type) s (fun inum s' => inum = s.freeinode ∧
      Created s { type := type, nlink := 1, size := 0 } s') :=
  Outcome.of_eq (ialloc_run h hslots type)
    ⟨rfl, h.created hslots (fits_ialloc htype) rfl rfl⟩

/-! ## One input file -/

def readBytes (reads : List (List Nat)) : Nat :=
  ((reads.takeWhile fun buf => buf ≠ []).map List.length).sum

def fileBytes (f : Input) : Nat := readBytes (f.reads.getD [])

def Nameable (f : Input) : Prop :=
  slash ∉ shortname f.path ∧ f.reads.isSome ∧ (storedName f.path).length ≤ dirSiz

theorem Room.of_add {s : Image} {off m n : Nat} (h : Room s off (m + n)) : Room s off m := by
  have hmono : need (off + m) ≤ need (off + (m + n)) := need_mono (by omega)
  have hcount := h.1
  have hsize := h.2
  exact ⟨by omega, by omega⟩

namespace Extended

variable {s s₁ s₂ : Image} {inum m n : Nat}

theorem refl (h : Intact s) : Extended s inum 0 s where
  intact := h
  size := rfl
  other := fun _ _ _ => rfl
  count := rfl
  freeinode := rfl

theorem room (h : Extended s inum m s₁) (hroom : Room s (dinodeAt s.sectors inum).size (m + n)) :
    Room s₁ (dinodeAt s₁.sectors inum).size n := by
  have hcount := h.count
  have hfit := hroom.1
  have hsize := hroom.2
  rw [← Nat.add_assoc] at hfit hsize
  rw [Room, h.size]
  exact ⟨by omega, hsize⟩

theorem trans (h : Extended s inum m s₁) (h' : Extended s₁ inum n s₂) :
    Extended s inum (m + n) s₂ := by
  have hcount := h.count
  have hcount' := h'.count
  rw [h.size, Nat.add_assoc] at hcount'
  constructor
  case intact => exact h'.intact
  case size => rw [h'.size, h.size, Nat.add_assoc]
  case other =>
    intro i hi hne
    rw [h'.other i hi hne, h.other i hi hne]
  case count => omega
  case freeinode => rw [h'.freeinode, h.freeinode]

end Extended

theorem appendReads_outcome {s : Image} {inum : Nat} {reads : List (List Nat)} (h : Intact s)
    (hinum : inum < s.freeinode) (hslots : s.freeinode ≤ slots) :
    Outcome (Room s (dinodeAt s.sectors inum).size (readBytes reads)) (appendReads inum reads) s
      (fun _ s' => Extended s inum (readBytes reads) s') := by
  induction reads generalizing s with
  | nil =>
      apply Outcome.pure
      exact Extended.refl h
  | cons buf reads ih =>
      rw [appendReads]
      by_cases hbuf : buf = []
      · rw [if_pos hbuf]
        have hnone : readBytes (buf :: reads) = 0 := by simp [readBytes, hbuf]
        rw [hnone]
        apply Outcome.pure
        exact Extended.refl h
      · rw [if_neg hbuf]
        have hsum : readBytes (buf :: reads) = buf.length + readBytes reads := by
          simp [readBytes, hbuf]
        rw [hsum]
        have hfirst : Outcome (Room s (dinodeAt s.sectors inum).size
            (buf.length + readBytes reads)) (iappend inum buf) s
            (fun _ s' => Extended s inum buf.length s') := by
          apply (iappend_outcome h hinum hslots).mono
          · intro hroom
            exact hroom.of_add
          · intro _ _ hext
            exact hext
        apply hfirst.bind
        intro _ s₁ hext
        have hinum₁ : inum < s₁.freeinode := by
          rw [hext.freeinode]
          exact hinum
        have hslots₁ : s₁.freeinode ≤ slots := by
          rw [hext.freeinode]
          exact hslots
        apply (ih hext.intact hinum₁ hslots₁).mono
        · intro hroom
          exact hext.room hroom
        · intro _ s' hrest
          exact hext.trans hrest

def rootSize (s : Image) : Nat := (dinodeAt s.sectors rootIno).size

def EntryRoom (s : Image) (n : Nat) : Prop :=
  s.freeblock + need (rootSize s + direntSize) + need n ≤ fsSize + need (rootSize s) ∧
    rootSize s + direntSize ≤ maxFile * bsize ∧ n ≤ maxFile * bsize

structure Added (s : Image) (n : Nat) (s' : Image) : Prop where
  intact : Intact s'
  freeinode : s'.freeinode = s.freeinode + 1
  rootSize : rootSize s' = rootSize s + direntSize
  count : s'.freeblock + need (Mkfs.rootSize s) =
    s.freeblock + need (Mkfs.rootSize s + direntSize) + need n

theorem need_zero : need 0 = 0 := by decide

theorem addFile_outcome {s : Image} {f : Input} (h : Intact s) (hroot : rootIno < s.freeinode)
    (hslots : s.freeinode < slots) :
    Outcome (Nameable f ∧ EntryRoom s (fileBytes f)) (addFile f) s
      (fun _ s' => Added s (fileBytes f) s') := by
  rw [addFile]
  by_cases hslash : slash ∉ shortname f.path
  case neg =>
    apply Outcome.of_error (bind_error (assertThat_error hslash))
    intro hroom
    exact hslash hroom.1.1
  apply Outcome.bind_eq (assertThat_run hslash)
  cases hreads : f.reads with
  | none =>
      have hdie : openFile f s = .error .die := by
        rw [openFile, hreads]
        rfl
      apply Outcome.of_error (bind_error hdie)
      intro hroom
      have hopen := hroom.1.2.1
      rw [hreads] at hopen
      cases hopen
  | some reads =>
      have hopen : openFile f s = .ok (reads, s) := by
        rw [openFile, hreads]
        rfl
      have hbytes : fileBytes f = readBytes reads := by simp [fileBytes, hreads]
      apply Outcome.bind_eq hopen
      by_cases hname : (storedName f.path).length ≤ dirSiz
      case neg =>
        apply Outcome.of_error (bind_error (assertThat_error hname))
        intro hroom
        exact hname hroom.1.2.2
      apply Outcome.bind_eq (assertThat_run hname)
      apply (ialloc_outcome h hslots (by decide) _).bind
      intro inum s₁ hcreated
      obtain ⟨rfl, hcreated⟩ := hcreated
      have hfreeinode := hcreated.freeinode
      have hrootLt : rootIno < slots := by decide
      have hrootFree : rootIno < s₁.freeinode := by omega
      have hroot₁ : dinodeAt s₁.sectors rootIno = dinodeAt s.sectors rootIno := by
        rw [hcreated.inodes, Function.update_of_ne (Nat.ne_of_lt hroot)]
      have hentry : Outcome (Nameable f ∧ EntryRoom s (fileBytes f))
          (iappend rootIno (dirent s.freeinode (storedName f.path))) s₁
          (fun _ s' => Extended s₁ rootIno direntSize s') := by
        have hext := iappend_outcome (p := dirent s.freeinode (storedName f.path))
          hcreated.intact hrootFree (by omega)
        rw [dirent_length] at hext
        apply hext.mono
        · intro hroom
          rw [Room, hroot₁, hcreated.freeblock]
          have hfit := hroom.2.1
          have hsize := hroom.2.2.1
          rw [rootSize] at hfit hsize
          exact ⟨by omega, hsize⟩
        · intro _ _ hdone
          exact hdone
      apply hentry.bind
      intro _ s₂ hext
      have hcount := hext.count
      rw [hroot₁, hcreated.freeblock] at hcount
      have hfreeinode₂ := hext.freeinode
      have hfile : (dinodeAt s₂.sectors s.freeinode).size = 0 := by
        rw [hext.other _ hslots (Nat.ne_of_gt hroot), hcreated.inodes, Function.update_self]
      have hfileFree : s.freeinode < s₂.freeinode := by omega
      have hdata : Outcome _ (appendReads s.freeinode reads) s₂ _ :=
        appendReads_outcome hext.intact hfileFree (by omega)
      apply hdata.mono
      · intro hroom
        have hfit := hroom.2.1
        have hsize := hroom.2.2.2
        rw [hbytes, rootSize] at *
        rw [Room, hfile, need_zero, Nat.zero_add]
        exact ⟨by omega, hsize⟩
      · intro _ s' hdone
        have hcount' := hdone.count
        rw [hfile, need_zero, Nat.zero_add, ← hbytes] at hcount'
        constructor
        case intact => exact hdone.intact
        case freeinode => rw [hdone.freeinode, hext.freeinode, hcreated.freeinode]
        case rootSize =>
          rw [rootSize, hdone.other _ hrootLt (Nat.ne_of_lt hroot), hext.size, hroot₁, rootSize]
        case count =>
          rw [rootSize]
          omega

/-! ## All input files -/

def FilesRoom (s : Image) (files : List Input) : Prop :=
  s.freeblock + need (rootSize s + direntSize * files.length) +
      (files.map fun f => need (fileBytes f)).sum ≤ fsSize + need (rootSize s) ∧
    rootSize s + direntSize * files.length ≤ maxFile * bsize ∧
    ∀ f ∈ files, Nameable f ∧ fileBytes f ≤ maxFile * bsize

theorem addFiles_outcome {s : Image} {files : List Input} (h : Intact s)
    (hroot : rootIno < s.freeinode) (hslots : s.freeinode + files.length ≤ slots) :
    Outcome (FilesRoom s files) (addFiles files) s (fun _ s' => Intact s' ∧
      s'.freeinode = s.freeinode + files.length ∧
      rootSize s' = rootSize s + direntSize * files.length) := by
  induction files generalizing s with
  | nil =>
      apply Outcome.pure
      exact ⟨h, rfl, rfl⟩
  | cons f files ih =>
      rw [List.length_cons] at hslots
      have hfirst : Outcome (FilesRoom s (f :: files)) (addFile f) s
          (fun _ s' => Added s (fileBytes f) s') := by
        apply (addFile_outcome h hroot (by omega)).mono
        · intro hroom
          have hfit := hroom.1
          have hsize := hroom.2.1
          have hf := hroom.2.2 f List.mem_cons_self
          have hmono : need (rootSize s + direntSize) ≤
              need (rootSize s + direntSize * (f :: files).length) := by
            apply need_mono
            rw [List.length_cons, direntSize]
            omega
          rw [List.map_cons, List.sum_cons] at hfit
          rw [List.length_cons, direntSize] at hsize
          exact ⟨hf.1, by omega, by rw [direntSize]; omega, hf.2⟩
        · intro _ _ hadded
          exact hadded
      rw [addFiles]
      apply hfirst.bind
      intro _ s₁ hadded
      have hfreeinode := hadded.freeinode
      have hrest := ih hadded.intact (by omega) (by omega)
      have htotal : rootSize s + direntSize + direntSize * files.length =
          rootSize s + direntSize * (f :: files).length := by
        rw [List.length_cons, direntSize]
        omega
      apply hrest.mono
      · intro hroom
        have hfit := hroom.1
        have hcount := hadded.count
        rw [List.map_cons, List.sum_cons] at hfit
        rw [FilesRoom, hadded.rootSize, htotal]
        exact ⟨by omega, hroom.2.1, fun g hg => hroom.2.2 g (List.mem_cons_of_mem f hg)⟩
      · intro _ s' hdone
        rw [hdone.2.1, hdone.2.2, hadded.rootSize, htotal, List.length_cons]
        exact ⟨hdone.1, by omega, rfl⟩

end SyscallSched.Xv6.Mkfs
