import SyscallSched.Xv6.Fs.BlockOwnership
import SyscallSched.Xv6.Fs.Directory

/-!
# The blocks that one `writei` logs

`filewrite` (`file.c`) splits a write so that the blocks of one `writei` fit into one
operation of the log.  A turn of the loop logs a data block and, if it is new, its
bitmap block.  The block of the first turn is old unless it starts at the offset, and
the indirect block is allocated at most once.
-/

namespace SyscallSched.Xv6.Fs.Code

open SyscallSched.Foundation SyscallSched.Xv6.Fs

/-- The file has a block for each of its bytes. -/
def NoHoles (v : Nat → Block) (d : Dinode) : Prop := Present v d.addrs 0 d.size

/-- `max` of `filewrite` -/
def filewriteMax : Nat := (maxOpBlocks - 1 - 1 - 2) / 2 * bsize

/-- How many blocks `n` bytes at `off` lie in. -/
def writeTurns (off n : Nat) : Nat := (off % bsize + n + bsize - 1) / bsize

/-- How many blocks `writei` logs at most: a block with its bitmap block each turn, and
the indirect block with its own and the block of the inode.  A write of `filewrite`
keeps within one operation. -/
def writeBlocks (off n : Nat) : Nat :=
  if n ≤ filewriteMax then maxOpBlocks else 2 * writeTurns off n + 3

def Superblock.withBitmap (sb : Superblock) (b : Nat) : Finset Nat := {b, sb.bblock b}

/-- `bs` are `count` blocks at most, and the indirect block of the file with its
bitmap block. -/
structure Logged (sb : Superblock) (ip ip' : Inode) (count : Nat) (bs : List Nat) :
    Prop where
  indirect : ip.addrs ndirect ≠ 0 → ip'.addrs ndirect = ip.addrs ndirect
  blocks : ∃ D : Finset Nat, D.card ≤ count ∧ ∀ b ∈ bs,
    b ∈ D ∨ ip'.addrs ndirect ≠ 0 ∧ b ∈ sb.withBitmap (ip'.addrs ndirect)

section

variable {sb : Superblock} {v v' : Nat → Block} {ip ip' ip'' : Inode} {src : Source}
  {b j k x bn off left n count count' : Nat} {bs bs' : List Nat} {s : Store}

theorem card_withBitmap (sb : Superblock) (b : Nat) : (sb.withBitmap b).card ≤ 2 :=
  Finset.card_le_two

theorem Logged.trans (h : Logged sb ip ip' count bs) (h' : Logged sb ip' ip'' count' bs') :
    Logged sb ip ip'' (count + count') (bs ++ bs') := by
  obtain ⟨D, hD, hbs⟩ := h.blocks
  obtain ⟨D', hD', hbs'⟩ := h'.blocks
  constructor
  case indirect =>
      intro hx
      have hsame := h.indirect hx
      rw [← hsame] at hx
      rw [h'.indirect hx, hsame]
  case blocks =>
      refine ⟨D ∪ D', (Finset.card_union_le D D').trans (Nat.add_le_add hD hD'), ?_⟩
      intro b hb
      cases List.mem_append.mp hb with
      | inl hfirst =>
          cases hbs b hfirst with
          | inl hmem => exact Or.inl (Finset.mem_union_left D' hmem)
          | inr hind =>
              right
              rw [h'.indirect hind.1]
              exact hind
      | inr hrest => exact (hbs' b hrest).imp_left (Finset.mem_union_right D)

theorem Logged.mono (h : Logged sb ip ip' count bs) (hcount : count ≤ count')
    (hbs : ∀ b ∈ bs', b ∈ bs) : Logged sb ip ip' count' bs' := by
  obtain ⟨D, hD, hblocks⟩ := h.blocks
  exact ⟨h.indirect, D, hD.trans hcount, fun b hb => hblocks b (hbs b hb)⟩

/-- The block that `bmap` finds, and what it logs to find it. -/
def BmapLogged (sb : Superblock) (ip : Inode) (count : Nat) (r : Inode × Nat)
    (_ : Nat → Block) (bs : List Nat) : Prop :=
  Logged sb ip r.1 count (bs ++ [r.2])

theorem balloc_logs : Performs (balloc sb) v fun b _ bs => ∀ c ∈ bs, c ∈ sb.withBitmap b := by
  apply balloc_performs.imp
  intro b v' bs hb
  cases hb with
  | inl hfull =>
      obtain ⟨-, -, rfl, -⟩ := hfull
      simp
  | inr htaken =>
      obtain ⟨-, rfl⟩ := htaken
      simp [Superblock.withBitmap]

theorem allocAddr_logs : Performs (allocAddr sb ip j) v fun r _ bs =>
    (∀ i, i ≠ j ∨ ip.addrs i ≠ 0 → r.1.addrs i = ip.addrs i) ∧
      (r.2 ≠ 0 → r.1.addrs j = r.2) ∧ ∀ c ∈ bs, c ∈ sb.withBitmap r.2 := by
  rw [allocAddr]
  by_cases hfree : ip.addrs j = 0
  · rw [if_pos hfree]
    apply balloc_logs.bind
    intro b v' bs hb
    by_cases hb0 : b = 0
    · subst hb0
      rw [if_pos rfl]
      apply Performs.pure
      rw [List.append_nil]
      exact ⟨fun _ _ => rfl, fun hne => absurd rfl hne, hb⟩
    · rw [if_neg hb0]
      apply Performs.pure
      rw [List.append_nil]
      refine ⟨?_, fun _ => Function.update_self _ _ _, hb⟩
      intro i hi
      apply Function.update_of_ne
      intro hij
      subst hij
      exact hi.elim (fun hne => hne rfl) fun hne => hne hfree
  · rw [if_neg hfree]
    apply Performs.pure
    exact ⟨fun _ _ => rfl, fun _ => rfl, by simp⟩

theorem bmapEntry_logs : Performs (bmapEntry sb x k) v fun addr _ bs =>
    ∀ c ∈ bs, c ∈ sb.withBitmap addr ∨ c = x := by
  rw [bmapEntry]
  apply performs_bread
  by_cases hfree : (v x).word k = 0
  · rw [if_pos hfree]
    apply balloc_logs.bind
    intro b v' bs hb
    by_cases hb0 : b = 0
    · subst hb0
      rw [if_pos rfl]
      apply performs_brelse
      apply Performs.pure
      rw [List.append_nil]
      exact fun c hc => Or.inl (hb c hc)
    · rw [if_neg hb0]
      apply performs_store
      apply performs_logWrite
      apply performs_brelse
      apply Performs.pure
      intro c hc
      cases List.mem_append.mp hc with
      | inl hnew => exact Or.inl (hb c hnew)
      | inr hself => exact Or.inr (List.mem_singleton.mp hself)
  · rw [if_neg hfree]
    apply performs_brelse
    apply Performs.pure
    simp

theorem bmap_logs (hbn : bn < maxFile) :
    Performs (bmap sb ip bn) v (BmapLogged sb ip 2) := by
  rw [bmap]
  by_cases hdirect : bn < ndirect
  · rw [if_pos hdirect]
    apply allocAddr_logs.imp
    intro r v' bs hr
    obtain ⟨hkeep, -, hbs⟩ := hr
    refine ⟨fun _ => hkeep _ (Or.inl (Nat.ne_of_gt hdirect)), sb.withBitmap r.2,
      card_withBitmap sb r.2, ?_⟩
    intro b hb
    left
    cases List.mem_append.mp hb with
    | inl hnew => exact hbs b hnew
    | inr hself => simp [Superblock.withBitmap, List.mem_singleton.mp hself]
  · rw [maxFile] at hbn
    rw [if_neg hdirect, if_pos (by omega), bmapIndirect]
    apply allocAddr_logs.bind
    intro r v₁ bs hr
    obtain ⟨hkeep, hfound, hbs⟩ := hr
    by_cases hzero : r.2 = 0
    · rw [if_pos hzero]
      apply Performs.pure
      refine ⟨fun hx => hkeep _ (Or.inr hx), sb.withBitmap 0, card_withBitmap sb 0, ?_⟩
      intro b hb
      rw [hzero] at hbs
      left
      rw [List.append_nil] at hb
      cases List.mem_append.mp hb with
      | inl hnew => exact hbs b hnew
      | inr hself => simp [Superblock.withBitmap, List.mem_singleton.mp hself]
    · rw [if_neg hzero]
      have hx : r.1.addrs ndirect = r.2 := hfound hzero
      apply bmapEntry_logs.bind
      intro addr v₂ bs₂ hbs₂
      apply Performs.pure
      refine ⟨fun hx => hkeep _ (Or.inr hx), sb.withBitmap addr, card_withBitmap sb addr, ?_⟩
      intro b hb
      dsimp only
      rw [hx]
      rw [List.append_nil, List.append_assoc] at hb
      cases List.mem_append.mp hb with
      | inl hind => exact Or.inr ⟨hzero, hbs b hind⟩
      | inr hrest =>
          cases List.mem_append.mp hrest with
          | inl hentry =>
              cases hbs₂ b hentry with
              | inl hnew => exact Or.inl hnew
              | inr hself =>
                  right
                  simp [Superblock.withBitmap, hself, hzero]
          | inr hself =>
              left
              simp [Superblock.withBitmap, List.mem_singleton.mp hself]

theorem bmap_logs_present (hbn : bn < maxFile) (hblock : blockAt v ip.addrs bn ≠ 0) :
    Performs (bmap sb ip bn) v (BmapLogged sb ip 1) := by
  apply (bmap_looks hbn hblock).imp
  intro r v' bs hr
  obtain ⟨rfl, -, rfl⟩ := hr
  refine ⟨fun _ => rfl, {blockAt v ip.addrs bn}, Nat.le_of_eq (Finset.card_singleton _), ?_⟩
  intro b hb
  exact Or.inl (Finset.mem_singleton.mpr (List.mem_singleton.mp hb))

theorem writeLoop_turn (hleft : left ≠ 0)
    (hbmap : Performs (bmap sb ip (off / bsize)) v (BmapLogged sb ip count))
    (hrest : ∀ v' ip', Performs (writeLoop sb ip' (src.advance (chunk left off))
      (off + chunk left off) (left - chunk left off)) v' fun r _ bs =>
        Logged sb ip' r.1 count' bs) :
    Performs (writeLoop sb ip src off left) v fun r _ bs =>
      Logged sb ip r.1 (count + count') bs := by
  rw [writeLoop, dif_neg hleft]
  apply hbmap.bind
  intro r v₁ bs hr
  have hstop : Logged sb ip r.1 (count + count') (bs ++ []) := by
    apply Logged.mono hr (Nat.le_add_right _ _)
    intro b hb
    rw [List.append_nil] at hb
    exact List.mem_append_left _ hb
  by_cases hnone : r.2 = 0
  · rw [if_pos hnone]
    exact Performs.pure hstop
  · rw [if_neg hnone]
    apply performs_bread
    apply performs_copyin
    by_cases hok : (src.copyin (chunk left off)).2 = true
    · rw [if_pos hok]
      apply performs_logWrite
      apply performs_brelse
      apply (hrest _ r.1).imp
      intro r' v' bs' hr'
      have hall := Logged.trans hr hr'
      rw [List.append_assoc] at hall
      exact hall
    · rw [if_neg hok]
      apply performs_brelse
      exact Performs.pure hstop

theorem writeLoop_nil :
    Performs (writeLoop sb ip src off 0) v fun r _ bs => Logged sb ip r.1 count bs := by
  rw [writeLoop, dif_pos rfl]
  apply Performs.pure
  exact ⟨fun _ => rfl, ∅, Nat.zero_le count, by simp⟩

/-- A loop of `count` turns at most. -/
theorem writeLoop_logs (count : Nat) (hend : off + left ≤ maxFile * bsize)
    (hcount : left = 0 ∨ off % bsize + left ≤ count * bsize) :
    Performs (writeLoop sb ip src off left) v fun r _ bs => Logged sb ip r.1 (2 * count) bs := by
  induction count generalizing v ip src off left with
  | zero =>
      have hzero : left = 0 := by omega
      subst hzero
      exact writeLoop_nil
  | succ count ih =>
      by_cases hzero : left = 0
      · subst hzero
        exact writeLoop_nil
      · have hbn : off / bsize < maxFile := by
          simp only [bsize] at *
          omega
        rw [Nat.mul_succ, Nat.add_comm]
        apply writeLoop_turn hzero (bmap_logs hbn)
        intro v' ip'
        apply ih
        · have hle : chunk left off ≤ left := Nat.min_le_left _ _
          omega
        · simp only [chunk, bsize] at *
          omega

/-- A write of `filewrite` logs seven blocks besides the indirect block, its bitmap
block and the block of the inode. -/
theorem writeLoop_logs_max (hholes : NoHoles v ip.toDinode) (hoff : off ≤ ip.size)
    (hn : n ≤ filewriteMax) (hend : off + n ≤ maxFile * bsize) :
    Performs (writeLoop sb ip src off n) v fun r _ bs =>
      Logged sb ip r.1 (1 + 2 * 3) bs := by
  have hmax : filewriteMax = 3 * bsize := by decide
  by_cases hzero : n = 0
  · subst hzero
    exact writeLoop_nil
  by_cases haligned : off % bsize = 0
  · apply (writeLoop_logs 3 hend (by omega)).imp
    intro r v' bs hr
    exact hr.mono (by decide) fun _ hb => hb
  · -- the byte before `off` is in the same block
    have hlast : (off - 1) / bsize = off / bsize := by
      simp only [bsize] at *
      omega
    have hpos : off ≠ 0 := by
      intro h0
      rw [h0] at haligned
      exact haligned rfl
    obtain ⟨hfbn, hblock⟩ := hholes (off - 1) (Nat.zero_le _) (by omega)
    rw [hlast] at hfbn hblock
    apply writeLoop_turn hzero (bmap_logs_present hfbn hblock)
    intro v' ip'
    apply writeLoop_logs
    · have hle : chunk n off ≤ n := Nat.min_le_left _ _
      omega
    · simp only [chunk, bsize] at *
      omega

theorem card_logged {b : Nat} (h : Logged sb ip ip' count bs) :
    (bs ++ [b]).toFinset.card ≤ count + 3 := by
  obtain ⟨D, hD, hbs⟩ := h.blocks
  have hsub : (bs ++ [b]).toFinset ⊆ D ∪ (sb.withBitmap (ip'.addrs ndirect) ∪ {b}) := by
    intro c hc
    rw [List.mem_toFinset] at hc
    cases List.mem_append.mp hc with
    | inl hloop =>
        cases hbs c hloop with
        | inl hmem => exact Finset.mem_union_left _ hmem
        | inr hind => exact Finset.mem_union_right _ (Finset.mem_union_left _ hind.2)
    | inr hlast => simp [List.mem_singleton.mp hlast]
  calc (bs ++ [b]).toFinset.card
      ≤ (D ∪ (sb.withBitmap (ip'.addrs ndirect) ∪ {b})).card := Finset.card_le_card hsub
    _ ≤ D.card + ((sb.withBitmap (ip'.addrs ndirect)).card + 1) :=
        (Finset.card_union_le _ _).trans (Nat.add_le_add_left (Finset.card_union_le _ _) _)
    _ ≤ count + (2 + 1) :=
        Nat.add_le_add hD (Nat.add_le_add_right (card_withBitmap sb _) 1)

theorem NoHoles.size_le (h : NoHoles v ip.toDinode) : ip.size ≤ maxFile * bsize := by
  by_cases hzero : ip.size = 0
  · omega
  · have hlast := (h (ip.size - 1) (Nat.zero_le _) (by omega)).1
    simp only [bsize] at *
    omega

theorem writei_logs_of_loop (hholes : NoHoles v ip.toDinode) (hoff : off ≤ ip.size)
    (hn : n < 2 ^ 32)
    (hloop : off + n ≤ maxFile * bsize →
      Performs (writeLoop sb ip src off n) v fun r _ bs => Logged sb ip r.1 count bs) :
    Performs (writei sb ip src off n) v fun _ _ bs => bs.toFinset.card ≤ count + 3 := by
  have hnone : ([] : List Nat).toFinset.card ≤ count + 3 := Nat.zero_le _
  rw [writei]
  split
  case isTrue => exact Performs.pure hnone
  case isFalse hwrap =>
      split
      case isTrue => exact Performs.pure hnone
      case isFalse hlimit =>
          have hend : off + n ≤ maxFile * bsize := by
            have hsize := hholes.size_le
            have hmax : maxFile * bsize < 2 ^ 32 := by decide
            omega
          apply (hloop hend).bind
          intro r v₁ bs hr
          apply iupdate_performs
          apply Performs.pure
          exact card_logged hr

theorem writei_logs (hholes : NoHoles v ip.toDinode) (hoff : off ≤ ip.size)
    (hn : n ≤ filewriteMax) :
    Performs (writei sb ip src off n) v fun _ _ bs => bs.toFinset.card ≤ maxOpBlocks := by
  have hmax : filewriteMax < 2 ^ 32 := by decide
  exact writei_logs_of_loop hholes hoff (by omega) (writeLoop_logs_max hholes hoff hn)

theorem writei_logs_any (hholes : NoHoles v ip.toDinode) (hn : n < 2 ^ 32) :
    Performs (writei sb ip src off n) v fun _ _ bs =>
      bs.toFinset.card ≤ writeBlocks off n := by
  by_cases hoff : ip.size < off
  · rw [writei, if_pos (Or.inl hoff)]
    exact Performs.pure (Nat.zero_le _)
  rw [writeBlocks]
  split
  case isTrue hmax => exact writei_logs hholes (Nat.le_of_not_lt hoff) hmax
  case isFalse =>
      apply writei_logs_of_loop hholes (Nat.le_of_not_lt hoff) hn
      intro hend
      apply writeLoop_logs (writeTurns off n) hend
      simp only [writeTurns, bsize]
      omega

/-- The blocks of a write of `filewrite` fit into one operation. -/
theorem writei_fits_operation (hholes : NoHoles v ip.toDinode) (hoff : off ≤ ip.size)
    (hn : n ≤ filewriteMax) (hview : s.view = v) : ∃ r v' bs,
    Runs (writei sb ip src off n) s r v' bs ∧ bs.toFinset.card ≤ maxOpBlocks := by
  obtain ⟨r, v', bs, hcard, hruns⟩ := (writei_logs hholes hoff hn).runs hview
  exact ⟨r, v', bs, hruns, hcard⟩

end

/-! ## A write within an operation -/

/-- A disk with a log of 30 blocks. -/
def openDisk : Superblock := { size := 40, ninodes := 2, inodestart := 32, bmapstart := 33 }

def openInode : Inode where
  inum := 1
  type := 2
  nlink := 1
  size := 1500
  addrs := fun j => if j = 0 then 34 else if j = 1 then 35 else 0

def openStore : Store where
  disk := fun b =>
    if b = 32 then putDinode openInode.toDinode 64 zeroBlock
    else if b = 33 then fun i => if i < 4 then 255 else if i = 4 then 15 else 0
    else if b = 34 ∨ b = 35 then fun i => (i + b) % 256
    else zeroBlock
  cache := fun _ => none
  log := { start := 2, size := 30, outstanding := 1, lh := [32] }

theorem openInode_noHoles : NoHoles openStore.view openInode.toDinode := by
  intro o _ ho
  have hsize : openInode.size = 1500 := rfl
  have hblocks : ∀ fbn, fbn < 2 →
      fbn < maxFile ∧ blockAt openStore.view openInode.addrs fbn ≠ 0 := by decide
  apply hblocks
  simp only [bsize]
  omega

theorem writei_fits_operation_open : ∃ r s' bs,
    run (writei openDisk openInode (.kernel id 65) 1000 2500) openStore = .ok (r, s') ∧
      Runs (writei openDisk openInode (.kernel id 65) 1000 2500) openStore r s'.view bs ∧
      bs.toFinset.card ≤ maxOpBlocks := by
  have hfits : ∃ r v' bs,
      Runs (writei openDisk openInode (.kernel id 65) 1000 2500) openStore r v' bs ∧
        bs.toFinset.card ≤ maxOpBlocks :=
    writei_fits_operation openInode_noHoles (by decide) (by decide) rfl
  obtain ⟨r, v', bs, hruns, hcard⟩ := hfits
  obtain ⟨s', hrun, rfl⟩ := hruns.returns hcard (by decide)
  exact ⟨r, s', bs, hrun, hruns, hcard⟩

end SyscallSched.Xv6.Fs.Code
