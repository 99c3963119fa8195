import SyscallSched.Xv6.Links.Walk

/-!
# Files and processes

`chdir`, `close`, `exit` and `fork`, and `open` once the inode is found, add and remove no
names: they `Keep` the inodes but for those they free.
-/

namespace SyscallSched.Xv6.Links

open SyscallSched.Foundation

variable {α β : Type} {s t : State} {p f i cwd : Nat} {proc : Proc} {path : List Nat}

/-- `x` frees inodes without links, and does nothing else to inodes. -/
def Keeps (x : KernelM α) : Prop := ∀ s, Cached s → Ensures Fine x s fun _ t => Freeing s t

namespace Keeps

theorem pure (a : α) : Keeps (Pure.pure a) := fun _ hs => Ensures.pure (Freeing.refl hs)

theorem bind {x : KernelM α} {g : α → KernelM β} (hx : Keeps x) (hg : ∀ a, Keeps (g a)) :
    Keeps (x >>= g) := by
  intro s hs
  apply (hx s hs).bind
  intro a t hst
  exact (hg a t hst.cached).imp fun _ _ htu => hst.trans htu

theorem ite {c : Prop} [Decidable c] {x y : KernelM α} (hx : Keeps x) (hy : Keeps y) :
    Keeps (if c then x else y) := by
  split
  · exact hx
  · exact hy

end Keeps

theorem get_keeps : Keeps get := fun _ hs => Ensures.of_eq rfl (Freeing.refl hs)

theorem getInode_keeps (i : Nat) : Keeps (getInode i) := fun _ hs =>
  Ensures.of_eq (getInode_eq _ i) (Freeing.refl hs)

theorem idup_keeps (i : Nat) : Keeps (idup i) := fun _ hs =>
  (idup_reads hs i).imp fun _ _ h => h.freeing

theorem ilock_keeps (i : Nat) : Keeps (ilock i) := fun _ hs =>
  (ilock_reads hs i).imp fun _ _ h => h.1.freeing

theorem iput_keeps (i : Nat) : Keeps (iput i) := fun _ hs => iput_frees hs i

theorem namei_keeps (cwd : Nat) (path : List Nat) : Keeps (namei cwd path) := fun _ hs =>
  (namei_frees hs).imp fun _ _ h => h.1

theorem setFile_keeps (f : Nat) (file : File) : Keeps (setFile f file) := fun s hs =>
  Ensures.of_eq rfl ⟨hs, Freed.refl s.inode⟩

theorem setProc_keeps (p : Nat) (proc : Option Proc) : Keeps (setProc p proc) := fun s hs =>
  Ensures.of_eq rfl ⟨hs, Freed.refl s.inode⟩

/-! ## Files -/

theorem filealloc_keeps : Keeps filealloc := by
  rw [filealloc]
  apply get_keeps.bind
  intro s
  split
  · exact Keeps.pure none
  · exact (setFile_keeps _ _).bind fun _ => Keeps.pure _

theorem fileclose_keeps (f : Nat) : Keeps (fileclose f) := by
  rw [fileclose]
  apply get_keeps.bind
  intro s
  dsimp only
  apply Keeps.ite
  · exact fun _ _ => Ensures.of_error rfl ⟨by decide, by decide⟩
  apply Keeps.ite
  · exact setFile_keeps f _
  · apply (setFile_keeps f _).bind
    intro _
    split
    · exact Keeps.pure ()
    · exact iput_keeps _

theorem openFailed_keeps (ip : Nat) : Keeps (openFailed ip) :=
  (iput_keeps ip).bind fun _ => Keeps.pure (-1)

theorem openInode_keeps (p : Nat) (proc : Proc) (ip : Nat) : Keeps (openInode p proc ip) := by
  rw [openInode]
  apply (getInode_keeps ip).bind
  intro inode
  apply Keeps.ite
  · exact openFailed_keeps ip
  apply filealloc_keeps.bind
  intro file
  cases file with
  | none => exact openFailed_keeps ip
  | some f =>
      dsimp only
      split
      · exact (fileclose_keeps f).bind fun _ => openFailed_keeps ip
      · apply (setFile_keeps f _).bind
        intro _
        exact (setProc_keeps p _).bind fun _ => Keeps.pure _

/-! ## Processes -/

theorem sysChdir_keeps (p : Nat) (proc : Proc) (path : List Nat) :
    Keeps (sysChdir p proc path) := by
  rw [sysChdir]
  apply (namei_keeps proc.cwd path).bind
  intro found
  cases found with
  | none => exact Keeps.pure (-1)
  | some ip =>
      apply (ilock_keeps ip).bind
      intro _
      apply (getInode_keeps ip).bind
      intro inode
      apply Keeps.ite
      · exact openFailed_keeps ip
      apply (iput_keeps proc.cwd).bind
      intro _
      exact (setProc_keeps p _).bind fun _ => Keeps.pure 0

theorem sysClose_keeps (p : Nat) (proc : Proc) (fd : Nat) : Keeps (sysClose p proc fd) := by
  rw [sysClose]
  split
  · exact Keeps.pure (-1)
  · apply (setProc_keeps p _).bind
    intro _
    exact (fileclose_keeps _).bind fun _ => Keeps.pure 0

theorem closeAll_keeps (proc : Proc) (fds : List Nat) : Keeps (closeAll proc fds) := by
  induction fds with
  | nil => exact Keeps.pure ()
  | cons fd fds ih =>
      rw [closeAll]
      split
      · exact (Keeps.pure ()).bind fun _ => ih
      · exact (fileclose_keeps _).bind fun _ => ih

theorem exit_keeps (p : Nat) (proc : Proc) : Keeps (exit p proc) := by
  rw [exit]
  apply (closeAll_keeps proc _).bind
  intro _
  apply (iput_keeps proc.cwd).bind
  intro _
  exact (setProc_keeps p none).bind fun _ => Keeps.pure 0

theorem dupAll_keeps (proc : Proc) (fds : List Nat) : Keeps (dupAll proc fds) := by
  induction fds with
  | nil => exact Keeps.pure ()
  | cons fd fds ih =>
      rw [dupAll]
      split
      · exact (Keeps.pure ()).bind fun _ => ih
      · apply get_keeps.bind
        intro s
        exact (setFile_keeps _ _).bind fun _ => ih

theorem fork_keeps (q : Nat) (proc : Proc) : Keeps (fork q proc) := by
  rw [fork]
  apply get_keeps.bind
  intro s
  split
  · exact Keeps.pure (-1)
  · apply (dupAll_keeps proc _).bind
    intro _
    apply (idup_keeps proc.cwd).bind
    intro _
    exact (setProc_keeps q _).bind fun _ => Keeps.pure _

end SyscallSched.Xv6.Links
