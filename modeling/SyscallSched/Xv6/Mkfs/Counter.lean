import SyscallSched.Xv6.Mkfs.Files

/-!
# The inode counter

Whatever happens to the blocks, each input file takes one inode number.
-/

namespace SyscallSched.Xv6.Mkfs

open SyscallSched.Foundation SyscallSched.Xv6.Fs

theorem assertThat_unchanged (p : Prop) [Decidable p] :
    Unchanged Image.freeinode (assertThat p) := by
  rw [assertThat]
  split
  · exact Unchanged.of_pure _
  · exact Unchanged.of_throw _

theorem rsect_unchanged (sec : Nat) : Unchanged Image.freeinode (rsect sec) := by
  apply Unchanged.bind Unchanged.of_get
  intro s
  split
  · exact Unchanged.of_pure _
  · exact Unchanged.of_throw _

theorem wsect_unchanged (sec : Nat) (buf : Block) :
    Unchanged Image.freeinode (wsect sec buf) :=
  Unchanged.of_modify fun _ => rfl

theorem winode_unchanged (inum : Nat) (ip : Dinode) :
    Unchanged Image.freeinode (winode inum ip) :=
  Unchanged.bind (rsect_unchanged _) fun _ => wsect_unchanged _ _

theorem rinode_unchanged (inum : Nat) : Unchanged Image.freeinode (rinode inum) :=
  Unchanged.bind (rsect_unchanged _) fun _ => Unchanged.of_pure _

theorem nextBlock_unchanged : Unchanged Image.freeinode nextBlock := by
  intro s a t h
  injection h with hpair
  injection hpair with _ hst
  rw [← hst]

theorem fillAddr_unchanged (din : Dinode) (j : Nat) :
    Unchanged Image.freeinode (fillAddr din j) := by
  rw [fillAddr]
  split
  · exact Unchanged.bind nextBlock_unchanged fun _ => Unchanged.of_pure _
  · exact Unchanged.of_pure _

theorem fillEntry_unchanged (sec : Nat) (indirect : Block) (k : Nat) :
    Unchanged Image.freeinode (fillEntry sec indirect k) := by
  rw [fillEntry]
  split
  · apply Unchanged.bind nextBlock_unchanged
    intro b
    exact Unchanged.bind (wsect_unchanged _ _) fun _ => Unchanged.of_pure _
  · exact Unchanged.of_pure _

theorem fileBlock_unchanged (din : Dinode) (fbn : Nat) :
    Unchanged Image.freeinode (fileBlock din fbn) := by
  rw [fileBlock]
  split
  · exact Unchanged.bind (fillAddr_unchanged _ _) fun _ => Unchanged.of_pure _
  · apply Unchanged.bind (fillAddr_unchanged _ _)
    intro din
    apply Unchanged.bind (rsect_unchanged _)
    intro indirect
    exact Unchanged.bind (fillEntry_unchanged _ _ _) fun _ => Unchanged.of_pure _

theorem appendLoop_unchanged (din : Dinode) (off : Nat) (p : List Nat) :
    Unchanged Image.freeinode (appendLoop din off p) := by
  induction hlen : p.length using Nat.strong_induction_on generalizing din off p with
  | _ n ih =>
    rw [appendLoop]
    split
    · exact Unchanged.of_pure _
    · rename_i hp
      apply Unchanged.bind (assertThat_unchanged _)
      intro _
      apply Unchanged.bind (fileBlock_unchanged _ _)
      intro r
      apply Unchanged.bind (rsect_unchanged _)
      intro buf
      apply Unchanged.bind (wsect_unchanged _ _)
      intro _
      have hpos := List.length_pos_iff.mpr hp
      have hchunk := chunk_pos hpos off
      apply ih _ _ _ _ _ rfl
      rw [List.length_drop]
      omega

theorem iappend_unchanged (inum : Nat) (p : List Nat) :
    Unchanged Image.freeinode (iappend inum p) := by
  apply Unchanged.bind (rinode_unchanged inum)
  intro din
  apply Unchanged.bind (appendLoop_unchanged _ _ _)
  intro r
  exact winode_unchanged _ _

theorem appendReads_unchanged (inum : Nat) (reads : List (List Nat)) :
    Unchanged Image.freeinode (appendReads inum reads) := by
  induction reads with
  | nil => exact Unchanged.of_pure _
  | cons buf reads ih =>
      rw [appendReads]
      split
      · exact Unchanged.of_pure _
      · exact Unchanged.bind (iappend_unchanged _ _) fun _ => ih

theorem openFile_unchanged (f : Input) : Unchanged Image.freeinode (openFile f) := by
  rw [openFile]
  split
  · exact Unchanged.of_throw _
  · exact Unchanged.of_pure _

theorem ialloc_freeinode {s s' : Image} {type inum : Nat} (h : ialloc type s = .ok (inum, s')) :
    s'.freeinode = s.freeinode + 1 := by
  obtain ⟨a, t, hnext, h⟩ := bind_ok h
  have ht : t.freeinode = s.freeinode + 1 := by
    injection hnext with hpair
    injection hpair with _ hst
    rw [← hst]
  have hrest : Unchanged Image.freeinode (do
      winode a { type := type, nlink := 1, size := 0 }
      pure a : MkfsM Nat) :=
    Unchanged.bind (winode_unchanged _ _) fun _ => Unchanged.of_pure _
  rw [hrest _ _ _ h, ht]

theorem addFile_freeinode {s s' : Image} {f : Input} (h : addFile f s = .ok ((), s')) :
    s'.freeinode = s.freeinode + 1 := by
  obtain ⟨_, s₁, hslash, h⟩ := bind_ok h
  obtain ⟨reads, s₂, hopen, h⟩ := bind_ok h
  obtain ⟨_, s₃, hname, h⟩ := bind_ok h
  obtain ⟨inum, s₄, hialloc, h⟩ := bind_ok h
  obtain ⟨_, s₅, hentry, hreads⟩ := bind_ok h
  rw [appendReads_unchanged _ _ _ _ _ hreads, iappend_unchanged _ _ _ _ _ hentry,
    ialloc_freeinode hialloc, assertThat_unchanged _ _ _ _ hname,
    openFile_unchanged _ _ _ _ hopen, assertThat_unchanged _ _ _ _ hslash]

theorem addFiles_freeinode {s s' : Image} {files : List Input}
    (h : addFiles files s = .ok ((), s')) : s'.freeinode = s.freeinode + files.length := by
  induction files generalizing s with
  | nil =>
      injection h with hpair
      injection hpair with _ hst
      rw [← hst]
      rfl
  | cons f files ih =>
      obtain ⟨_, s₁, hfirst, hrest⟩ := bind_ok h
      rw [ih hrest, addFile_freeinode hfirst, List.length_cons]
      omega

theorem balloc_unchanged (used : Nat) : Unchanged Image.freeinode (balloc used) :=
  Unchanged.bind (assertThat_unchanged _) fun _ => wsect_unchanged _ _

theorem fixRootSize_unchanged : Unchanged Image.freeinode fixRootSize :=
  Unchanged.bind (rinode_unchanged _) fun _ => winode_unchanged _ _

end SyscallSched.Xv6.Mkfs
