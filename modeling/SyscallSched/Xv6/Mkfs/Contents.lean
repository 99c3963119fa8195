import Mathlib.Data.List.GetD
import SyscallSched.Xv6.Fs.Content
import SyscallSched.Xv6.Mkfs.WellFormed

/-!
# What the files of the image contain

`iappend` puts its bytes behind those of the file and touches no other file.  A block
of a file is neither a block of another file nor an indirect block, so that storing in
it changes one place of one file.
-/

namespace SyscallSched.Xv6.Mkfs

open SyscallSched.Foundation SyscallSched.Xv6.Fs

/-! ## One file block -/

structure Fills (s : Image) (din : Dinode) (fbn : Nat) (r : Dinode × Nat) (s' : Image) : Prop where
  same : ∀ b, b ≠ r.1.addrs ndirect → s'.sectors b = s.sectors b
  others : ∀ j, j < maxFile → j ≠ fbn →
    blockAt s'.sectors r.1.addrs j = blockAt s.sectors din.addrs j
  kept : blockAt s.sectors din.addrs fbn ≠ 0 → r.2 = blockAt s.sectors din.addrs fbn
  type : r.1.type = din.type

namespace Growing

variable {s : Image} {d : Nat → Dinode} {inum off n : Nat} {din : Dinode}

theorem fills_direct (hfbn : off / bsize < ndirect) :
    Outcome False (fileBlock din (off / bsize)) s (Fills s din (off / bsize)) := by
  rw [fileBlock, if_pos hfbn]
  by_cases hb : din.addrs (off / bsize) = 0
  · apply Outcome.bind_eq (fillAddr_run_of_eq hb)
    apply Outcome.pure
    constructor
    case same => exact fun _ _ => rfl
    case others => exact fun j _ hj => blockAt_setDirect_ne hfbn hj
    case kept =>
      rw [blockAt_direct hfbn]
      exact fun hne => absurd hb hne
    case type => rfl
  · apply Outcome.bind_eq (fillAddr_run_of_ne hb)
    apply Outcome.pure
    constructor
    case same => exact fun _ _ => rfl
    case others => exact fun _ _ _ => rfl
    case kept => exact fun _ => (blockAt_direct hfbn).symm
    case type => rfl

theorem fills_entry {s₁ : Image} {y : Nat} (din₁ : Dinode) (hy : din₁.addrs ndirect = y)
    (hy0 : y ≠ 0) (hfbn : ndirect ≤ off / bsize) (hsectors : s₁.sectors = s.sectors)
    (hblk : ∀ j, j < maxFile → blockAt s.sectors din₁.addrs j = blockAt s.sectors din.addrs j)
    (hfbnlt : off / bsize < maxFile) (htype : din₁.type = din.type) :
    Outcome False (fillEntry y (s₁.sectors y) (off / bsize - ndirect) >>= fun indirect =>
      pure (din₁, indirect.word (off / bsize - ndirect))) s₁ (Fills s din (off / bsize)) := by
  subst hy
  have hword : blockAt s.sectors din.addrs (off / bsize) =
      (s.sectors (din₁.addrs ndirect)).word (off / bsize - ndirect) := by
    rw [← hblk _ hfbnlt]
    exact blockAt_indirect hfbn hy0
  by_cases hb : (s₁.sectors (din₁.addrs ndirect)).word (off / bsize - ndirect) = 0
  · apply Outcome.bind_eq (fillEntry_run_of_eq hb)
    apply Outcome.pure
    have hstored : (s₁.grown.store (din₁.addrs ndirect)
        ((s₁.sectors (din₁.addrs ndirect)).setWord (off / bsize - ndirect)
          s₁.freeblock)).sectors (din₁.addrs ndirect) =
        (s.sectors (din₁.addrs ndirect)).setWord (off / bsize - ndirect) s₁.freeblock := by
      rw [sectors_store, Function.update_self, hsectors]
    constructor
    case same =>
      intro b hne
      rw [sectors_store, Function.update_of_ne hne, sectors_grown, hsectors]
    case others =>
      intro j hj hne
      rw [← hblk j hj]
      exact blockAt_setEntry_ne (by omega) hstored
    case kept =>
      intro hne
      rw [hword, ← hsectors] at hne
      exact absurd hb hne
    case type => exact htype
  · apply Outcome.bind_eq (fillEntry_run_of_ne hb)
    apply Outcome.pure
    constructor
    case same =>
      intro b _
      rw [hsectors]
    case others =>
      intro j hj _
      rw [← hblk j hj, hsectors]
    case kept =>
      intro _
      rw [hword, hsectors]
    case type => exact htype

theorem fileBlock_fills (h : Growing s d inum din off n) :
    Outcome False (fileBlock din (off / bsize)) s (Fills s din (off / bsize)) := by
  by_cases hfbn : off / bsize < ndirect
  · exact fills_direct hfbn
  · have hge := Nat.le_of_not_lt hfbn
    rw [fileBlock, if_neg hfbn]
    by_cases hy : din.addrs ndirect = 0
    · have haddr : (setAddr din ndirect s.freeblock).addrs ndirect = s.freeblock := by
        rw [addrs_setAddr, Function.update_self]
      have hzero : ∀ k, k < nindirect → (s.sectors s.freeblock).word k = 0 := by
        intro k _
        rw [h.tracks.owned.fresh _ (Nat.le_refl _)]
        rfl
      apply Outcome.bind_eq (fillAddr_run_of_eq hy)
      rw [haddr]
      by_cases hlt : s.freeblock < s.nsect
      · have hread : rsect s.freeblock s.grown = .ok (s.sectors s.freeblock, s.grown) :=
          rsect_run_of_lt hlt
        apply Outcome.bind_eq hread
        exact fills_entry (setAddr din ndirect s.freeblock) haddr
          h.tracks.owned.freeblock_ne_zero hge (sectors_grown s)
          (fun j hj => blockAt_setIndirect hy hzero hj) h.fbn_lt rfl
      · have hdie : rsect s.freeblock s.grown = .error .die :=
          rsect_run_of_ge (Nat.le_of_not_lt hlt)
        exact Outcome.of_error (bind_error hdie) not_false
    · apply Outcome.bind_eq (fillAddr_run_of_ne hy)
      by_cases hlt : din.addrs ndirect < s.nsect
      · apply Outcome.bind_eq (rsect_run_of_lt hlt)
        exact fills_entry din rfl hy hge rfl (fun _ _ => rfl) h.fbn_lt rfl
      · exact Outcome.of_error (bind_error (rsect_run_of_ge (Nat.le_of_not_lt hlt))) not_false

end Growing

/-! ## The bytes that are stored -/

structure Wrote (s : Image) (d : Nat → Dinode) (inum : Nat) (din : Dinode) (off : Nat)
    (p : List Nat) (r : Dinode × Nat) (s' : Image) : Prop where
  old : ∀ o, o < off → byteAt s'.sectors r.1.addrs o = byteAt s.sectors din.addrs o
  new : ∀ k, k < p.length → byteAt s'.sectors r.1.addrs (off + k) = p.getD k 0
  other : ∀ i, i < slots → i ≠ inum → ∀ o, o < (d i).size →
    byteAt s'.sectors (d i).addrs o = byteAt s.sectors (d i).addrs o
  type : r.1.type = din.type

theorem byteAt_congr {image image' : Nat → Block} {addrs addrs' : Nat → Nat} {o : Nat}
    (hblock : blockAt image' addrs' (o / bsize) = blockAt image addrs (o / bsize))
    (hsame : image' (blockAt image addrs (o / bsize)) = image (blockAt image addrs (o / bsize))) :
    byteAt image' addrs' o = byteAt image addrs o := by
  rw [byteAt, hblock, hsame, byteAt]

theorem Shaped.block_ne_zero {sectors : Nat → Block} {d : Dinode} (h : Shaped sectors d) {o : Nat}
    (ho : o < d.size) : o / bsize < maxFile ∧ blockAt sectors d.addrs (o / bsize) ≠ 0 := by
  have hsize := h.size_le
  have hlt : o / bsize < maxFile := by
    simp only [bsize] at *
    omega
  refine ⟨hlt, (h.filled _ hlt).mpr ?_⟩
  simp only [blocksFor, bsize]
  omega

theorem Tracks.byteAt_eq {s : Image} {d : Nat → Dinode} {i o : Nat} (h : Tracks s d)
    (image : Nat → Block) (hi : i < slots) (ho : o < (d i).size)
    (hsame : ∀ b ∈ share s (fun i => (d i).addrs) i, image b = s.sectors b) :
    byteAt image (d i).addrs o = byteAt s.sectors (d i).addrs o := by
  obtain ⟨hfbn, hblock⟩ := (h.shaped i hi).block_ne_zero ho
  apply byteAt_congr
  · apply blockAt_congr _ hfbn
    intro hx k _
    rw [hsame _ (indirect_mem_held hx)]
  · exact hsame _ (blockAt_mem_held hfbn hblock)

theorem Placed.wrote {s s₁ : Image} {d : Nat → Dinode} {inum off n : Nat} {din : Dinode}
    {r : Dinode × Nat} {p : List Nat} (hn : p.length = n) (h : Placed s d inum off n r s₁)
    (hready : Ready s d inum din off) (hfill : Fills s din (off / bsize) r s₁)
    (hin : InBlock off n) (hfbn : off / bsize < maxFile) :
    Wrote s d inum din off p r
      (s₁.store r.2 (putBytes (s₁.sectors r.2) (off - off / bsize * bsize) p)) := by
  subst hn
  obtain ⟨hx0, -, -⟩ := h.block_range hready.inum_lt hin hfbn
  have hself : (Function.update d inum { r.1 with size := off + p.length } inum).addrs =
      r.1.addrs := by
    rw [Function.update_self]
  have hnodup := h.tracks.owned.nodup_held hready.inum_lt
  rw [share, hself] at hnodup
  have hblock := h.block
  have hdata : r.2 ≠ r.1.addrs ndirect := by
    rw [← hblock] at hx0 ⊢
    exact blockAt_ne_indirect hnodup hfbn hx0
  have hstored : ∀ buf b, b ≠ r.2 → (s₁.store r.2 buf).sectors b = s₁.sectors b := by
    intro buf b hne
    rw [sectors_store, Function.update_of_ne hne]
  have hnumber : ∀ buf j, j < maxFile →
      blockAt (s₁.store r.2 buf).sectors r.1.addrs j = blockAt s₁.sectors r.1.addrs j := by
    intro buf j hj
    apply blockAt_congr _ hj
    intro _ k _
    rw [hstored buf _ hdata.symm]
  constructor
  case old =>
    intro o ho
    have hshaped := hready.tracks.shaped inum hready.inum_lt
    rw [hready.inode] at hshaped
    obtain ⟨hlt, hpresent⟩ := hshaped.block_ne_zero ho
    by_cases hsame : o / bsize = off / bsize
    · -- the part of the block that was there before
      rw [hsame] at hpresent
      have hkept := hfill.kept hpresent
      have hbefore : ¬ (off - off / bsize * bsize ≤ o % bsize ∧
          o % bsize < off - off / bsize * bsize + p.length) := by
        simp only [bsize] at *
        omega
      rw [byteAt, hnumber _ _ hlt, hsame, hblock, sectors_store, Function.update_self, putBytes,
        if_neg hbefore, hfill.same _ hdata, byteAt, hsame, ← hkept]
    · have hnumber' := hfill.others _ hlt hsame
      have hne : blockAt s₁.sectors r.1.addrs (o / bsize) ≠ r.2 := by
        rw [← hblock]
        intro heq
        exact hsame (blockAt_injective hnodup hlt hfbn (hnumber' ▸ hpresent) heq)
      have hindirect : blockAt s₁.sectors r.1.addrs (o / bsize) ≠ r.1.addrs ndirect :=
        blockAt_ne_indirect hnodup hlt (hnumber' ▸ hpresent)
      rw [byteAt, hnumber _ _ hlt, hstored _ _ hne, hfill.same _ hindirect, hnumber', byteAt]
  case new =>
    intro k hk
    have hle := hin.le
    have hdiv : (off + k) / bsize = off / bsize := by
      simp only [bsize] at *
      omega
    have hplace : off - off / bsize * bsize ≤ (off + k) % bsize ∧
        (off + k) % bsize < off - off / bsize * bsize + p.length := by
      simp only [bsize] at *
      omega
    have hindex : (off + k) % bsize - (off - off / bsize * bsize) = k := by
      simp only [bsize] at *
      omega
    rw [byteAt, hdiv, hnumber _ _ hfbn, hblock, sectors_store, Function.update_self, putBytes,
      if_pos hplace, hindex]
  case other =>
    intro i hi hne o ho
    have hother : Function.update d inum { r.1 with size := off + p.length } i = d i :=
      Function.update_of_ne hne _ _
    have hmem : r.2 ∈ share s₁
        (fun i => (Function.update d inum { r.1 with size := off + p.length } i).addrs) inum := by
      rw [share, hself]
      rw [← hblock] at hx0 ⊢
      exact blockAt_mem_held hfbn hx0
    have hindirect : ∀ b ∈ share s₁
        (fun i => (Function.update d inum { r.1 with size := off + p.length } i).addrs) i,
        b ≠ r.1.addrs ndirect := by
      intro b hb heq
      have hrange := h.tracks.owned.mem_range hi hb
      have hmeta : nmeta = 46 := by decide
      have hx : r.1.addrs ndirect ≠ 0 := by omega
      apply h.tracks.owned.disjoint hi hready.inum_lt hne hb
      rw [share, hself, heq]
      exact indirect_mem_held hx
    have hsize : o < (Function.update d inum { r.1 with size := off + p.length } i).size := by
      rw [hother]
      exact ho
    have hafter := h.tracks.byteAt_eq (s₁.store r.2
      (putBytes (s₁.sectors r.2) (off - off / bsize * bsize) p)).sectors hi hsize
    have hbefore := h.tracks.byteAt_eq s.sectors hi hsize
    rw [hother] at hafter hbefore
    rw [hafter, hbefore]
    · intro b hb
      exact (hfill.same b (hindirect b hb)).symm
    · intro b hb
      apply hstored
      rintro rfl
      exact h.tracks.owned.disjoint hready.inum_lt hi hne.symm hmem hb
  case type => exact hfill.type

theorem Wrote.append {s s₁ s' : Image} {d : Nat → Dinode} {inum off n : Nat} {din : Dinode}
    {p q : List Nat} {r r' : Dinode × Nat} (hn : p.length = n)
    (h : Wrote s d inum din off p r s₁)
    (h' : Wrote s₁ (Function.update d inum { r.1 with size := off + n }) inum r.1 (off + n) q
      r' s') : Wrote s d inum din off (p ++ q) r' s' := by
  subst hn
  constructor
  case old =>
    intro o ho
    rw [h'.old o (by omega), h.old o ho]
  case new =>
    intro k hk
    rw [List.length_append] at hk
    by_cases hlt : k < p.length
    · rw [h'.old _ (by omega), h.new k hlt, List.getD_append _ _ _ _ hlt]
    · have hnew := h'.new (k - p.length) (by omega)
      have hsum : off + p.length + (k - p.length) = off + k := by omega
      rw [hsum] at hnew
      rw [hnew, List.getD_append_right _ _ _ _ (Nat.le_of_not_lt hlt)]
  case other =>
    intro i hi hne o ho
    have hother := h'.other i hi hne
    rw [Function.update_of_ne hne] at hother
    rw [hother o ho, h.other i hi hne o ho]
  case type => rw [h'.type, h.type]

theorem appendLoop_wrote {s : Image} {d : Nat → Dinode} {inum : Nat} {din : Dinode}
    {off : Nat} {p : List Nat} (h : Ready s d inum din off) :
    Outcome False (appendLoop din off p) s (Wrote s d inum din off p) := by
  induction hlen : p.length using Nat.strong_induction_on generalizing s d din off p with
  | _ n ih =>
    subst hlen
    by_cases hp : p = []
    · rw [appendLoop, dif_pos hp, hp]
      apply Outcome.pure
      constructor
      case old => exact fun _ _ => rfl
      case new => exact fun k hk => absurd hk (Nat.not_lt_zero k)
      case other => exact fun _ _ _ _ _ => rfl
      case type => rfl
    · have hpos := List.length_pos_iff.mpr hp
      have hin : InBlock off (chunk p.length off) := inBlock_chunk hpos
      have hchunk : chunk p.length off ≤ p.length := Nat.min_le_left _ _
      have htake : (p.take (chunk p.length off)).length = chunk p.length off := by
        rw [List.length_take, Nat.min_eq_left hchunk]
      rw [appendLoop, dif_neg hp]
      by_cases hfbn : off / bsize < maxFile
      case neg => exact Outcome.of_error (bind_error (assertThat_error hfbn)) not_false
      apply Outcome.bind_eq (assertThat_run hfbn)
      have hgrowing : Growing s d inum din off (chunk p.length off) :=
        { tracks := h.tracks, inum_lt := h.inum_lt, inode := h.inode, inBlock := hin
          fbn_lt := hfbn, le := h.le }
      apply (hgrowing.fileBlock_fills.and hgrowing.fileBlock_outcome).bind
      rintro r s₁ ⟨hfill, hplaced⟩
      obtain ⟨hx0, -, -⟩ := hplaced.block_range h.inum_lt hin hfbn
      by_cases hx : r.2 < s₁.nsect
      case neg =>
        exact Outcome.of_error (bind_error (rsect_run_of_ge (Nat.le_of_not_lt hx))) not_false
      apply Outcome.bind_eq (rsect_run_of_lt hx)
      apply Outcome.bind_eq wsect_run
      rw [hplaced.tracks.owned.nsect] at hx
      have hready := hplaced.ready h.inum_lt hfbn hx0 hx
        (putBytes (s₁.sectors r.2) (off - off / bsize * bsize) (p.take (chunk p.length off)))
      have hdrop : (p.drop (chunk p.length off)).length = p.length - chunk p.length off :=
        List.length_drop
      have hrest := ih _ (by have hc := hin.pos; omega) hready hdrop
      have hwrote := hplaced.wrote htake h hfill hin hfbn
      apply hrest.mono False.elim
      intro r' s' hdone
      have hall := hwrote.append htake hdone
      rw [List.take_append_drop] at hall
      exact hall

/-! ## Files -/

structure File where
  type : Nat
  content : List Nat

def fileAt (s : Image) (i : Nat) : File where
  type := (dinodeAt s.sectors i).type
  content := contentOf s.sectors (dinodeAt s.sectors i)

def File.append (f : File) (p : List Nat) : File := { f with content := f.content ++ p }

theorem File.append_append (f : File) (p q : List Nat) :
    (f.append p).append q = f.append (p ++ q) := by
  rw [File.append, File.append, File.append, List.append_assoc]

structure Grew (s : Image) (inum : Nat) (p : List Nat) (s' : Image) : Prop where
  self : fileAt s' inum = (fileAt s inum).append p
  other : ∀ i, i < slots → i ≠ inum → fileAt s' i = fileAt s i
  superblock : s'.sectors 1 = s.sectors 1

theorem Grew.trans {s s₁ s₂ : Image} {inum : Nat} {p q : List Nat} (h : Grew s inum p s₁)
    (h' : Grew s₁ inum q s₂) : Grew s inum (p ++ q) s₂ where
  self := by rw [h'.self, h.self, File.append_append]
  other := fun i hi hne => by rw [h'.other i hi hne, h.other i hi hne]
  superblock := h'.superblock.trans h.superblock

theorem Grew.refl (s : Image) (inum : Nat) : Grew s inum [] s where
  self := by rw [File.append, List.append_nil]
  other := fun _ _ _ => rfl
  superblock := rfl

theorem fileAt_congr {s s' : Image} {i : Nat}
    (hinode : dinodeAt s'.sectors i = dinodeAt s.sectors i)
    (h : ∀ o, o < (dinodeAt s.sectors i).size →
      byteAt s'.sectors (dinodeAt s.sectors i).addrs o =
        byteAt s.sectors (dinodeAt s.sectors i).addrs o) : fileAt s' i = fileAt s i := by
  rw [fileAt, hinode, contentOf_congr rfl h, fileAt]

theorem Tracks.byteAt_meta {s : Image} {d : Nat → Dinode} {i o sec : Nat} (h : Tracks s d)
    (buf : Block) (hsec : sec < nmeta) (hi : i < slots) (ho : o < (d i).size) :
    byteAt (s.store sec buf).sectors (d i).addrs o = byteAt s.sectors (d i).addrs o := by
  apply h.byteAt_eq _ hi ho
  intro b hb
  have hrange := h.owned.mem_range hi hb
  rw [sectors_store, Function.update_of_ne (by omega)]

theorem sectors_withInode {s : Image} {inum : Nat} {ip : Dinode} :
    (s.withInode inum ip).sectors 1 = s.sectors 1 := by
  have hge : inodestart ≤ iblock inum := Nat.le_add_left _ _
  have hstart : inodestart = 32 := by decide
  have hne : 1 ≠ iblock inum := by omega
  rw [Image.withInode, sectors_store, Function.update_of_ne hne]

theorem iappend_grew {s : Image} {inum : Nat} {p : List Nat} (h : Intact s)
    (hlt : inum < slots) :
    Outcome False (iappend inum p) s (fun _ s' => Grew s inum p s') := by
  apply iappend_loop h hlt (appendLoop_wrote (h.ready hlt))
  rintro r s₁ ip rfl hwrote happended hinodes
  -- the inode is written back below the data blocks
  have hbytes := fun i hi o => happended.tracks.byteAt_meta (i := i) (o := o)
    (putDinode { r.1 with size := (dinodeAt s.sectors inum).size + p.length } (inodeOffset inum)
      (s₁.sectors (iblock inum))) (iblock_lt_nmeta hlt) hi
  constructor
  case self =>
    have hself := hbytes inum hlt
    simp only [Function.update_self] at hself
    rw [fileAt, hinodes, Function.update_self, File.append, fileAt, contentOf_append rfl,
      hwrote.type]
    · intro o ho
      exact (hself o (by omega)).trans (hwrote.old o ho)
    · intro k hk
      exact (hself _ (by omega)).trans (hwrote.new k hk)
  case other =>
    intro i hi hne
    have hother := hbytes i hi
    rw [Function.update_of_ne hne] at hother
    apply fileAt_congr
    · rw [hinodes, Function.update_of_ne hne, happended.tracks_dinodeAt i hi hne]
    · intro o ho
      exact (hother o ho).trans (hwrote.other i hi hne o ho)
  case superblock => rw [sectors_withInode, happended.inodes 1 (by decide)]

theorem ialloc_files {s : Image} {type : Nat} (h : Intact s) (hslots : s.freeinode < slots)
    (htype : type < 2 ^ 16) :
    Outcome False (ialloc type) s (fun _ s' => fileAt s' s.freeinode = ⟨type, []⟩ ∧
      (∀ i, i < slots → i ≠ s.freeinode → fileAt s' i = fileAt s i) ∧
      s'.sectors 1 = s.sectors 1) := by
  apply Outcome.of_eq (ialloc_run h hslots type)
  have hinodes : dinodeAt (s.nextInode.withInode s.freeinode
      { type := type, nlink := 1, size := 0 }).sectors =
      Function.update (dinodeAt s.sectors) s.freeinode { type := type, nlink := 1, size := 0 } :=
    dinodeAt_withInode (fits_ialloc htype)
  refine ⟨?_, ?_, sectors_withInode⟩
  · rw [fileAt, hinodes, Function.update_self]
    rfl
  · intro i hi hne
    apply fileAt_congr
    · rw [hinodes, Function.update_of_ne hne]
    · intro o ho
      exact h.tracks.byteAt_meta _ (iblock_lt_nmeta hslots) hi ho

/-! ## The input files -/

/-- The bytes that the `read` calls return, up to the one that returns none. -/
def readContent (reads : List (List Nat)) : List Nat :=
  (reads.takeWhile fun buf => buf ≠ []).flatten

def Input.content (f : Input) : List Nat := readContent (f.reads.getD [])

theorem appendReads_grew {s : Image} {inum : Nat} {reads : List (List Nat)} (h : Intact s)
    (hinum : inum < s.freeinode) (hslots : s.freeinode ≤ slots) :
    Outcome False (appendReads inum reads) s (fun _ s' => Grew s inum (readContent reads) s') := by
  induction reads generalizing s with
  | nil => exact Outcome.pure (Grew.refl s inum)
  | cons buf reads ih =>
      rw [appendReads]
      by_cases hbuf : buf = []
      · have hnone : readContent (buf :: reads) = [] := by simp [readContent, hbuf]
        rw [if_pos hbuf, hnone]
        exact Outcome.pure (Grew.refl s inum)
      · have hcons : readContent (buf :: reads) = buf ++ readContent reads := by
          simp [readContent, hbuf]
        rw [if_neg hbuf, hcons]
        apply ((iappend_grew h (by omega)).and (iappend_outcome h hinum hslots)).bind
        rintro _ s₁ ⟨hgrew, hext⟩
        have hfreeinode := hext.freeinode
        apply (ih hext.intact (by omega) (by omega)).mono False.elim
        intro _ s' hrest
        exact hgrew.trans hrest

structure Stored (s : Image) (f : Input) (s' : Image) : Prop where
  root : fileAt s' rootIno =
    (fileAt s rootIno).append (dirent s.freeinode (storedName f.path))
  self : fileAt s' s.freeinode = ⟨tFile, f.content⟩
  other : ∀ i, i < slots → i ≠ rootIno → i ≠ s.freeinode → fileAt s' i = fileAt s i
  superblock : s'.sectors 1 = s.sectors 1

theorem addFile_stored {s : Image} {f : Input} (h : Intact s) (hroot : rootIno < s.freeinode)
    (hslots : s.freeinode < slots) :
    Outcome False (addFile f) s (fun _ s' => Stored s f s') := by
  rw [addFile]
  by_cases hslash : slash ∉ shortname f.path
  case neg => exact Outcome.of_error (bind_error (assertThat_error hslash)) not_false
  apply Outcome.bind_eq (assertThat_run hslash)
  cases hreads : f.reads with
  | none =>
      have hdie : openFile f s = .error .die := by
        rw [openFile, hreads]
        rfl
      exact Outcome.of_error (bind_error hdie) not_false
  | some reads =>
      have hopen : openFile f s = .ok (reads, s) := by
        rw [openFile, hreads]
        rfl
      have hcontent : f.content = readContent reads := by
        rw [Input.content, hreads, Option.getD_some]
      apply Outcome.bind_eq hopen
      by_cases hname : (storedName f.path).length ≤ dirSiz
      case neg => exact Outcome.of_error (bind_error (assertThat_error hname)) not_false
      apply Outcome.bind_eq (assertThat_run hname)
      apply ((ialloc_files h hslots (by decide)).and
        (ialloc_outcome h hslots (by decide) False)).bind
      rintro inum s₁ ⟨⟨hempty, hsame, hsuper⟩, rfl, hcreated⟩
      have hfreeinode := hcreated.freeinode
      have hrootLt : rootIno < slots := by decide
      apply ((iappend_grew hcreated.intact hrootLt).and
        (iappend_outcome hcreated.intact (by omega) (by omega))).bind
      rintro _ s₂ ⟨hentry, hext⟩
      have hfreeinode₂ := hext.freeinode
      apply (appendReads_grew hext.intact (by omega) (by omega)).mono False.elim
      intro _ s' hdata
      constructor
      case root =>
        rw [hdata.other _ hrootLt hroot.ne, hentry.self, hsame _ hrootLt hroot.ne]
      case self =>
        rw [hdata.self, hentry.other _ hslots hroot.ne', hempty, File.append, List.nil_append,
          hcontent]
      case other =>
        intro i hi hiroot hne
        rw [hdata.other i hi hne, hentry.other i hi hiroot, hsame i hi hne]
      case superblock => rw [hdata.superblock, hentry.superblock, hsuper]

def entriesFrom : Nat → List Input → List Nat
  | _, [] => []
  | k, f :: files => dirent k (storedName f.path) ++ entriesFrom (k + 1) files

structure AllStored (s : Image) (files : List Input) (s' : Image) : Prop where
  root : fileAt s' rootIno = (fileAt s rootIno).append (entriesFrom s.freeinode files)
  file : ∀ j f, files[j]? = some f → fileAt s' (s.freeinode + j) = ⟨tFile, f.content⟩
  earlier : ∀ i, i < s.freeinode → i ≠ rootIno → fileAt s' i = fileAt s i
  superblock : s'.sectors 1 = s.sectors 1

theorem addFiles_stored {s : Image} {files : List Input} (h : Intact s)
    (hroot : rootIno < s.freeinode) (hslots : s.freeinode + files.length ≤ slots) :
    Outcome False (addFiles files) s (fun _ s' => AllStored s files s') := by
  induction files generalizing s with
  | nil =>
      apply Outcome.pure
      constructor
      case root => rw [entriesFrom, File.append, List.append_nil]
      case file =>
        intro j f hf
        simp at hf
      case earlier => exact fun _ _ _ => rfl
      case superblock => rfl
  | cons f files ih =>
      rw [List.length_cons] at hslots
      rw [addFiles]
      apply ((addFile_stored h hroot (by omega)).and (addFile_outcome h hroot (by omega))).bind
      rintro _ s₁ ⟨hstored, hadded⟩
      have hfreeinode := hadded.freeinode
      apply (ih hadded.intact (by omega) (by omega)).mono False.elim
      intro _ s' hrest
      constructor
      case root => rw [hrest.root, hstored.root, hfreeinode, File.append_append, entriesFrom]
      case file =>
        intro j g hg
        cases j with
        | zero =>
            rw [List.getElem?_cons_zero, Option.some.injEq] at hg
            rw [Nat.add_zero, hrest.earlier _ (by omega) hroot.ne', hstored.self, hg]
        | succ j =>
            rw [List.getElem?_cons_succ] at hg
            have hfile := hrest.file j g hg
            have hnumber : s₁.freeinode + j = s.freeinode + (j + 1) := by omega
            rw [hnumber] at hfile
            exact hfile
      case earlier =>
        intro i hi hne
        rw [hrest.earlier i (by omega) hne, hstored.other i (by omega) hne (by omega)]
      case superblock => rw [hrest.superblock, hstored.superblock]

/-! ## The finished image -/

structure Recorded (files : List Input) (s : Image) : Prop where
  root : fileAt s rootIno =
    ⟨tDir, dirent rootIno dot ++ dirent rootIno dotdot ++ entriesFrom 2 files⟩
  file : ∀ j f, files[j]? = some f → fileAt s (2 + j) = ⟨tFile, f.content⟩
  superblock : s.sectors 1 = superblock

theorem makeRoot_files : Outcome False makeRoot formatted (fun _ s =>
    fileAt s rootIno = ⟨tDir, dirent rootIno dot ++ dirent rootIno dotdot⟩ ∧
    s.sectors 1 = superblock) := by
  have hslots : formatted.freeinode < slots := by decide
  have hroot : rootIno < slots := by decide
  rw [makeRoot]
  apply ((ialloc_files intact_formatted hslots (by decide)).and
    (ialloc_outcome intact_formatted hslots (by decide) False)).bind
  rintro rootino s₁ ⟨⟨hempty, -, hsuper⟩, rfl, hcreated⟩
  have hone : formatted.freeinode = rootIno := rfl
  have hfreeinode : s₁.freeinode = 2 := hcreated.freeinode
  rw [hone] at hempty ⊢
  apply Outcome.bind_eq (assertThat_run rfl)
  apply ((iappend_grew hcreated.intact hroot).and
    (iappend_outcome hcreated.intact (by rw [hfreeinode]; decide)
      (by rw [hfreeinode]; decide))).bind
  rintro _ s₂ ⟨hdot, hext⟩
  apply (iappend_grew hext.intact hroot).mono False.elim
  intro _ s₃ hdotdot
  constructor
  · rw [hdotdot.self, hdot.self, hempty, File.append_append, File.append, List.nil_append]
  · rw [hdotdot.superblock, hdot.superblock, hsuper]
    rfl

theorem main_files {files : List Input} (hslots : 2 + files.length ≤ slots) :
    Outcome False (main files) truncated
      (fun _ s => ∃ s₀, Filled files s₀ ∧ Recorded files s₀ ∧ s = finished s₀) := by
  rw [main]
  apply Outcome.bind_eq format_run
  apply (makeRoot_files.and (makeRoot_outcome False)).bind
  rintro _ s₁ ⟨⟨hentries, hsuper⟩, hroot⟩
  have hfreeinode := hroot.freeinode
  have hrootFree : rootIno < s₁.freeinode := by
    rw [hfreeinode]
    decide
  apply ((addFiles_stored hroot.intact hrootFree (by omega)).and
    (addFiles_outcome hroot.intact hrootFree (by omega))).bind
  rintro _ s₂ ⟨hstored, hintact, hcount, hsize⟩
  rw [hfreeinode] at hcount
  rw [hroot.rootSize] at hsize
  apply Outcome.of_eq (finish_run hintact)
  refine ⟨s₂, { intact := hintact, freeinode := hcount, rootSize := hsize }, ?_, rfl⟩
  constructor
  case root => rw [hstored.root, hentries, hfreeinode, File.append]
  case file =>
    intro j f hf
    have hfile := hstored.file j f hf
    rw [hfreeinode] at hfile
    exact hfile
  case superblock => rw [hstored.superblock, hsuper]

section

variable {s : Image}

theorem byteAt_finished (h : Intact s) {i o : Nat} (hi : i < slots)
    (ho : o < (dinodeAt s.sectors i).size) :
    byteAt (finished s).sectors (dinodeAt s.sectors i).addrs o =
      byteAt s.sectors (dinodeAt s.sectors i).addrs o := by
  have hroot : Tracks (s.withInode rootIno (rounded (dinodeAt s.sectors rootIno)))
      (dinodeAt s.sectors) := h.tracks.writeMeta _ (by decide)
  rw [finished, hroot.byteAt_meta _ (by decide) hi ho]
  exact h.tracks.byteAt_meta _ (by decide) hi ho

theorem fileAt_finished (h : Intact s) {i : Nat} (hi : i < slots) (hne : i ≠ rootIno) :
    fileAt (finished s) i = fileAt s i := by
  apply fileAt_congr
  · rw [dinodeAt_finished h hi, Function.update_of_ne hne]
  · intro o ho
    exact byteAt_finished h hi ho

end

end SyscallSched.Xv6.Mkfs
