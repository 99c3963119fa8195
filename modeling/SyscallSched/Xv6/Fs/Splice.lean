import SyscallSched.Xv6.Exec
import SyscallSched.Xv6.Fs.Footprint

/-!
# What `writei` writes and `readi` reads

On a file without holes `writei` writes a prefix of its source at the offset, and the
whole of it unless the disk is full.  `readi` reads this content back.  Only the log can
keep `writei` from returning, and not if it has room.
-/

namespace SyscallSched.Xv6.Fs.Code

open SyscallSched.Foundation SyscallSched.Xv6.Fs

/-- The inode, its blocks and what is in them are as before. -/
structure SameFile (v v' : Nat → Block) (d d' : Dinode) : Prop where
  inode : d' = d
  places : ∀ fbn, fbn < maxFile → blockAt v' d.addrs fbn = blockAt v d.addrs fbn
  bytes : ∀ o, o / bsize < maxFile → blockAt v d.addrs (o / bsize) ≠ 0 →
    byteAt v' d.addrs o = byteAt v d.addrs o

def kernelBytes (mem : Nat → Nat) (addr t : Nat) : List Nat :=
  (List.range t).map fun i => mem (addr + i)

/-- The first `t` bytes of the source have been written at `off` to `ip`, which has
become `ip'`. -/
structure SplicedFile (sb : Superblock) (v : Nat → Block) (ip : Inode) (mem : Nat → Nat)
    (addr off n t : Nat) (ip' : Inode) (v' : Nat → Block) : Prop where
  updated : Updated sb v ip ip' v'
  le : t ≤ n
  full : t < n → Full sb v'
  size : ip'.size = max ip.size (off + t)
  reads : ∀ dst o m, m < 2 ^ 32 →
    Reads (readi sb (fun _ _ => true) ip' dst o m) v'
      (ip', Xv6.readi (splice (contentOf v ip.toDinode) off (kernelBytes mem addr t)) o m, true)
  others : ∀ i, i < sb.ninodes → i ≠ ip.inum → (sb.dinodeAt v i).type ≠ 0 →
    SameFile v v' (sb.dinodeAt v i) (sb.dinodeAt v' i)
  noHoles : NoHoles v' ip'.toDinode

/-- `writei` of `n` bytes of kernel memory at `off`, in the state `s`. -/
def WriteiSplices (sb : Superblock) (v : Nat → Block) (ip : Inode) (mem : Nat → Nat)
    (addr off n : Nat) (s : Store) : Prop :=
  ∃ r v' bs, Runs (writei sb ip (.kernel mem addr) off n) s r v' bs ∧
    (r.2 = none ↔ WriteRefused ip off n) ∧
    (r.2 = none → r.1 = ip ∧ v' = v ∧ bs = []) ∧
    (∀ t, r.2 = some t → SplicedFile sb v ip mem addr off n t r.1 v') ∧
    (Log.HasRoomFor s.log (writeBlocks off n) →
      ∃ s', run (writei sb ip (.kernel mem addr) off n) s = .ok (r, s') ∧ s'.view = v')

section

variable {sb : Superblock} {v v' : Nat → Block} {ip ip' : Inode} {d : Nat → Dinode}
  {mem : Nat → Nat} {addr off n t i dst : Nat} {copyout : Nat → Nat → Bool} {s : Store}

theorem readi_content (hcopy : ∀ d m, copyout d m = true) (hholes : NoHoles v ip.toDinode)
    (hn : n < 2 ^ 32) :
    Looks (readi sb copyout ip dst off n) v
      (ip, Xv6.readi (contentOf v ip.toDinode) off n, true) := by
  rw [Xv6.readi, length_contentOf]
  by_cases hwrap : ip.size < off ∨ (off + n) % 2 ^ 32 < off
  · rw [readi, if_pos hwrap, if_pos hwrap]
    exact looks_pure
  · have hpresent : Present v ip.addrs off (min n (ip.size - off)) := by
      intro o _ ho
      exact hholes o (Nat.zero_le o) (by omega)
    have hread : Looks (readi sb copyout ip dst off n) v _ :=
      readi_looks hcopy (by omega) (by omega) hpresent
    rw [bytesFrom_eq (by omega)] at hread
    rw [if_neg hwrap]
    have htake : ((contentOf v ip.toDinode).drop off).take (min n (ip.size - off)) =
        ((contentOf v ip.toDinode).drop off).take n := by
      rw [List.take_eq_take_iff, List.length_drop, length_contentOf]
      omega
    rw [htake] at hread
    exact hread

theorem sameFile (htype : (sb.dinodeAt v i).type ≠ 0)
    (hinode : sb.dinodeAt v' i = sb.dinodeAt v i)
    (h : ∀ x ∈ share v (sb.dinodeAt v) i, v' x = v x) :
    SameFile v v' (sb.dinodeAt v i) (sb.dinodeAt v' i) := by
  rw [share, if_neg htype] at h
  have hblocks : KeepsBlocks v (sb.dinodeAt v i).addrs v' (sb.dinodeAt v i).addrs :=
    KeepsBlocks.of_held h fun _ _ => rfl
  constructor
  case inode => exact hinode
  case places =>
      intro fbn hfbn
      apply blockAt_congr ?_ hfbn
      intro hx k _
      rw [h _ (indirect_mem_held hx)]
  case bytes => exact fun _ hfbn hblock => hblocks.byte hfbn hblock

theorem noHoles_of_overwrites {src : Nat → Nat} (hkeep : KeepsPlaces v ip.addrs v' ip'.addrs)
    (h : Overwrites v ip.addrs v' ip'.addrs off (off + t) src)
    (hholes : NoHoles v ip.toDinode) (hoff : off ≤ ip.size)
    (hsize : ip'.size = max ip.size (off + t)) : NoHoles v' ip'.toDinode := by
  intro o _ ho
  by_cases hin : off ≤ o ∧ o < off + t
  · exact h.present o hin.1 hin.2
  · have hold : o < ip.size := by
      rw [hsize] at ho
      omega
    obtain ⟨hfbn, hblock⟩ := hholes o (Nat.zero_le o) (by omega)
    refine ⟨hfbn, ?_⟩
    rw [hkeep _ hfbn hblock]
    exact hblock

theorem Stored.content {r : Inode × Option Nat} {bs : List Nat}
    (h : Stored sb v ip (.kernel mem addr) off n r v' bs) (hholes : NoHoles v ip.toDinode)
    (hoff : off ≤ ip.size) (ht : r.2 = some t) :
    contentOf v' r.1.toDinode =
        splice (contentOf v ip.toDinode) off (kernelBytes mem addr t) ∧
      NoHoles v' r.1.toDinode := by
  obtain ⟨t', ht', hle, hsize, hkernel⟩ := h.count
  rw [ht] at ht'
  cases ht'
  obtain ⟨hwritten, -⟩ := hkernel mem addr rfl
  have hbytes : kernelBytes mem addr t =
      (List.range t).map fun i => mem (addr + (off + i - off)) := by
    simp [kernelBytes]
  rw [hbytes]
  refine ⟨?_, noHoles_of_overwrites h.places hwritten hholes hoff hsize⟩
  apply contentOf_overwrites hwritten hoff hsize
  intro o ho
  exact hholes o (Nat.zero_le o) (by omega)

theorem Stored.spliced {r : Inode × Option Nat} {bs : List Nat}
    (h : Stored sb v ip (.kernel mem addr) off n r v' bs) (hholes : NoHoles v ip.toDinode)
    (hoff : off ≤ ip.size) (ht : r.2 = some t) :
    SplicedFile sb v ip mem addr off n t r.1 v' := by
  obtain ⟨hcontent, hnone⟩ := h.content hholes hoff ht
  obtain ⟨t', ht', hle, hsize, hkernel⟩ := h.count
  rw [ht] at ht'
  cases ht'
  obtain ⟨-, hfull⟩ := hkernel mem addr rfl
  constructor
  case updated => exact h.updated
  case le => exact hle
  case full => exact fun hlt => (hfull hlt).1
  case size => exact hsize
  case reads =>
      intro dst o m hm
      rw [← hcontent]
      exact (readi_content (fun _ _ => rfl) hnone hm).reads
  case others =>
      intro i hi hne htype
      exact sameFile htype (h.updated.other i hi hne) (h.others i hi hne)
  case noHoles => exact hnone

/-- What `writei` returns and leaves, and that it returns if the log has room. -/
theorem writei_splices (hl : sb.Laid) (hs : Settled sb v) (h : Synced sb v ip)
    (hholes : NoHoles v ip.toDinode) (hoff : off < 2 ^ 32) (hn : n < 2 ^ 32)
    (hview : s.view = v) : WriteiSplices sb v ip mem addr off n s := by
  have hwrite : Performs (writei sb ip (.kernel mem addr) off n) v _ :=
    writei_performs hl hs h hoff hn
  obtain ⟨r, v', bs, ⟨hr, hcard⟩, hruns⟩ := (hwrite.and (writei_logs_any hholes hn)).runs hview
  have hreturns := hruns.returns hcard
  refine ⟨r, v', bs, hruns, ?_⟩
  cases hr with
  | inl hrefused =>
      obtain ⟨hrefused, rfl, rfl, rfl⟩ := hrefused
      refine ⟨iff_of_true rfl hrefused, fun _ => ⟨rfl, rfl, rfl⟩, ?_, hreturns⟩
      intro t ht
      cases ht
  | inr hstored =>
      obtain ⟨haccepted, hstored⟩ := hstored
      obtain ⟨t, ht, -⟩ := hstored.count
      have hsome : r.2 ≠ none := by
        rw [ht]
        simp
      have hsize : off ≤ ip.size := Nat.le_of_not_lt fun hlt => haccepted (Or.inl hlt)
      refine ⟨iff_of_false hsome haccepted, fun hnone => absurd hnone hsome, ?_, hreturns⟩
      intro t ht
      exact hstored.spliced hholes hsize ht

end

theorem openStore_settled : Settled openDisk openStore.view := by
  constructor
  case meta_used =>
    have hmeta : ∀ b, b < 34 → openDisk.used openStore.view b = true := by decide
    intro b hb _
    exact hmeta b hb
  case owned => decide

theorem openInode_fits : openInode.toDinode.Fits := by
  constructor
  case type => decide
  case major => decide
  case minor => decide
  case nlink => decide
  case size => decide
  case addrs =>
    intro j
    dsimp only [openInode]
    split_ifs <;> decide
  case beyond =>
    intro j hj
    simp only [ndirect] at hj
    exact (if_neg (by omega)).trans (if_neg (by omega))

theorem openInode_synced : Synced openDisk openStore.view openInode := by
  constructor
  case inode => exact getDinode_putDinode openInode_fits
  case inum_lt => decide
  case type => decide

/-- The write begins within the first block and goes on past the end of the file. -/
theorem writei_splices_open : ∃ r t s',
    run (writei openDisk openInode (.kernel id 65) 1000 1100) openStore = .ok (r, s') ∧
      r.2 = some t ∧
        SplicedFile openDisk openStore.view openInode id 65 1000 1100 t r.1 s'.view := by
  have hsplices : WriteiSplices openDisk openStore.view openInode id 65 1000 1100 openStore :=
    writei_splices ⟨by decide, by decide⟩ openStore_settled openInode_synced openInode_noHoles
      (by decide) (by decide) rfl
  obtain ⟨r, v', bs, -, hrefused, -, hspliced, hreturns⟩ := hsplices
  obtain ⟨s', hrun, rfl⟩ := hreturns (by decide)
  cases ht : r.2 with
  | none =>
      have haccepted : ¬ WriteRefused openInode 1000 1100 := by
        rw [WriteRefused]
        decide
      exact absurd (hrefused.mp ht) haccepted
  | some t => exact ⟨r, t, s', hrun, ht, hspliced t ht⟩

end SyscallSched.Xv6.Fs.Code
