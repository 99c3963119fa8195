import SyscallSched.Xv6.Files.Effects

/-!
# The system calls on files keep the counts

Each call starts and ends in a state where the kernel itself holds no reference.  A
call that fails gives back what it has taken, down to the descriptors.
-/

namespace SyscallSched.Xv6

open SyscallSched.Foundation
open SyscallSched.Xv6.Family

variable [Image]

def FilesOk (pool : Multiset Nat) (k : Kernel) : Prop := FilesInv pool 0 k.fileTables.ofile k

def Returned (pool : Multiset Nat) (k : Kernel) (r : Int) (k' : Kernel) : Prop :=
  FilesOk pool k' ∧ (r = -1 → k'.fileTables.ofile = k.fileTables.ofile)

section

variable {pool extra : Multiset Nat} {ofile : Nat → Nat → Option Nat} {k k' : Kernel}
  {p fd f : Nat}

/-! ## `dup` and `close` -/

omit [Image] in
theorem argfd_spec (p : Nat) (fd : Int) (k : Kernel) :
    Total (argfd p fd) k fun r k' => k' = k ∧
      ∀ i f, r = some (i, f) → k.fileTables.ofile p i = some f := by
  rw [argfd]
  apply Total.bind_eq (a := k.proc p) (t := k) rfl
  by_cases hout : fd < 0 ∨ nofile ≤ fd
  · rw [if_pos hout]
    exact Total.pure ⟨rfl, nofun⟩
  · rw [if_neg hout]
    apply Total.pure
    refine ⟨rfl, ?_⟩
    intro i f hsome
    obtain ⟨g, hopen, hpair⟩ := Option.map_eq_some_iff.mp hsome
    injection hpair with hi hg
    rw [← hi, ← hg]
    exact hopen

theorem filedup_spec (h : FilesInv pool extra ofile k) (hf : f < nfile)
    (hpos : 0 < (k.file f).ref) :
    Total (filedup f) k fun _ k' => FilesInv pool (f ::ₘ extra) ofile k' ∧
      k' = k.setFile f { k.file f with ref := (k.file f).ref + 1 } := by
  have hrun : filedup f k = (do
      setFile f fun file => { file with ref := file.ref + 1 }
      pure f : KernelM Nat) k := by
    rw [filedup, Total.run_bind (a := k) (t := k) rfl, if_neg (Nat.not_lt.mpr hpos)]
    rfl
  apply Total.congr hrun
  apply Total.bind_eq (setFile_run f _ k)
  apply Total.pure
  refine ⟨h.set_file ?_ ?_, rfl⟩
  · exact h.refs.dup_file hf rfl
  · exact h.ends.set_ref hpos (Nat.succ_pos _)

omit [Image] in
theorem ofile_filesUnder (h : k'.fileTables = k.filesUnder ofile) :
    k'.fileTables.ofile = ofile ∧ k'.file = k.file ∧ k'.pipe = k.pipe :=
  ⟨congrArg FileTables.ofile h, congrArg FileTables.file h, congrArg FileTables.pipe h⟩

theorem FilesInv.ok (h : FilesInv pool 0 ofile k) (hofile : k.fileTables.ofile = ofile) :
    FilesOk pool k := by
  rw [FilesOk, hofile]
  exact h

theorem fdalloc_files (h : FilesInv pool (f ::ₘ extra) ofile k) (hl : k.live p)
    (hofile : k.fileTables.ofile = ofile) :
    Total (fdalloc p f) k fun result k' => match result with
      | none => k' = k
      | some fd => FilesInv pool extra (withFd ofile p fd (some f)) k' ∧
          k'.fileTables.ofile = withFd ofile p fd (some f) ∧ ofile p fd = none ∧
          Steady p k k' ∧ k'.file = k.file := by
  apply (fdalloc_spec p f k).mono
  intro r k' hk'
  cases r with
  | none => exact hk'
  | some fd =>
      obtain ⟨hfd, hfree, hclosed, htables⟩ := hk'
      obtain ⟨hofile', hfile, hpipe⟩ := ofile_filesUnder htables
      rw [hofile] at hfree hofile'
      have hinv := h.open_fd hl.1 hfd hfree (live_alive hl)
      exact ⟨hinv.congr hclosed hfile hpipe, hofile', hfree, steady_of_closed hclosed p, hfile⟩

theorem clearFd_files (h : FilesInv pool extra ofile k) (hofile : k.fileTables.ofile = ofile)
    (hopen : ofile p fd = some f) :
    Total (setFd p fd none) k fun _ k' =>
      FilesInv pool (f ::ₘ extra) (withFd ofile p fd none) k' ∧
        k'.fileTables.ofile = withFd ofile p fd none := by
  obtain ⟨k', hrun, hclosed, htables⟩ := setFd_run p fd none k
  obtain ⟨hofile', hfile, hpipe⟩ := ofile_filesUnder htables
  rw [hofile] at hofile'
  exact Total.of_eq hrun ⟨(h.close_fd hopen).congr hclosed hfile hpipe, hofile'⟩

theorem sysDup_spec {fd : Int} (h : FilesOk pool k) (hl : k.live p) :
    Total (sysDup p fd) k (Returned pool k) := by
  rw [sysDup]
  apply Total.bind (argfd_spec p fd k)
  intro r k₀ hk₀
  obtain ⟨hsame, hopen⟩ := hk₀
  rw [hsame]
  cases r with
  | none => exact Total.pure ⟨h, fun _ => rfl⟩
  | some found =>
      obtain ⟨i, f⟩ := found
      have hinside := h.refs.inside p i f (hopen i f rfl)
      have hpos := h.refs.referred p i hinside.2.1 f (hopen i f rfl)
      apply Total.bind (fdalloc_spec p f _)
      intro r k₁ hk₁
      cases r with
      | none =>
          rw [hk₁]
          exact Total.pure ⟨h, fun _ => rfl⟩
      | some fd =>
          obtain ⟨hfd, hfree, hclosed, htables⟩ := hk₁
          obtain ⟨hofile, hfile, hpipe⟩ := ofile_filesUnder htables
          have h₁ := h.congr hclosed hfile hpipe
          have hpos₁ : 0 < (k₁.file f).ref := by
            rw [hfile]
            exact hpos
          have hsteady := steady_of_closed hclosed p
          apply Total.bind (filedup_spec h₁ hinside.2.2 hpos₁)
          intro _ k₂ hk₂
          obtain ⟨h₂, he⟩ := hk₂
          have halive : (k₂.table.entry p).stage = .alive := by
            rw [he]
            exact live_alive (hsteady.live hl)
          have hofile₂ : k₂.fileTables.ofile =
              withFd k.fileTables.ofile p fd (some f) := by
            rw [he]
            exact hofile
          apply Total.pure
          refine ⟨(h₂.open_fd hl.1 hfd hfree halive).ok hofile₂, ?_⟩
          exact fun hfail => absurd hfail (by omega)

theorem sysClose_spec {fd : Int} (h : FilesOk pool k) :
    Total (sysClose p fd) k (Returned pool k) := by
  rw [sysClose]
  apply Total.bind (argfd_spec p fd k)
  intro r k₀ hk₀
  obtain ⟨hsame, hopen⟩ := hk₀
  rw [hsame]
  cases r with
  | none => exact Total.pure ⟨h, fun _ => rfl⟩
  | some found =>
      obtain ⟨i, f⟩ := found
      apply Total.bind (clearFd_files h rfl (hopen i f rfl))
      rintro _ k₁ ⟨h₁, hofile⟩
      apply Total.bind (fileclose_spec h₁)
      rintro _ k₂ ⟨h₂, -, hofile₂⟩
      apply Total.pure
      exact ⟨h₂.ok (hofile₂.trans hofile), fun hfail => absurd hfail (by decide)⟩

/-! ## `open` -/

theorem FilesInv.inodes {ref : Nat → Nat} {n : Nat} (h : FilesInv pool extra ofile k) :
    FilesInv pool extra ofile { k with inodeRef := ref, outstanding := n } :=
  h.transfer rfl rfl rfl (h.pages.keep (fun _ => Keeps.refl _) rfl)

theorem openFailed_spec {inode : Inode} (h : FilesInv pool extra ofile k) :
    Total (openFailed inode) k fun r k' => r = -1 ∧ FilesInv pool extra ofile k' ∧
      k'.fileTables.ofile = k.fileTables.ofile := by
  apply Total.of_eq (a := (-1 : Int)) rfl
  exact ⟨rfl, h.inodes, rfl⟩

theorem openInode_spec {omode : Nat} {inode : Inode} (h : FilesOk pool k) (hl : k.live p) :
    Total (openInode p omode inode) k (Returned pool k) := by
  rw [openInode]
  apply Total.bind (filealloc_spec h)
  intro r k₁ hk₁
  cases r with
  | none =>
      rw [hk₁]
      apply (openFailed_spec h).mono
      rintro _ k₂ ⟨-, h₂, hofile⟩
      exact ⟨h₂.ok hofile, fun _ => hofile⟩
  | some f =>
      obtain ⟨h₁, hzero, rfl⟩ := hk₁
      apply Total.bind (fdalloc_files h₁ hl rfl)
      intro r k₂ hk₂
      cases r with
      | none =>
          rw [hk₂]
          apply Total.bind (fileclose_spec h₁)
          rintro _ k₃ ⟨h₃, -, hofile₃⟩
          apply (openFailed_spec h₃).mono
          rintro _ k₄ ⟨-, h₄, hofile₄⟩
          have hofile := hofile₄.trans hofile₃
          exact ⟨h₄.ok hofile, fun _ => hofile⟩
      | some fd =>
          obtain ⟨hinv, hofile, -, -, hfile⟩ := hk₂
          have hnew : k₂.file f = { k.file f with ref := 1 } := by
            rw [hfile]
            exact Function.update_self _ _ _
          have htype : (k₂.file f).type ≠ .pipe := by
            have hnone : (k.file f).type = .none := h.refs.free f hzero
            rw [hnew]
            change (k.file f).type ≠ .pipe
            rw [hnone]
            exact nofun
          apply Total.bind_eq (setFile_run f _ k₂)
          apply Total.of_eq (a := (fd : Int)) rfl
          refine ⟨?_, fun hfail => absurd hfail (by omega)⟩
          have hopened : FilesInv pool 0 (withFd k.fileTables.ofile p fd (some f))
              (k₂.setFile f ((k₂.file f).opened inode omode)) := by
            apply hinv.set_file
            · apply hinv.refs.describe
              · rfl
              · change 0 < (k₂.file f).ref
                rw [hnew]
                exact Nat.one_pos
            · apply hinv.ends.set_other htype
              rw [File.opened]
              dsimp only
              split
              · exact nofun
              · exact nofun
          exact hopened.inodes.ok hofile

theorem sysOpen_spec {omode : Nat} {path : Lookup} (h : FilesOk pool k) (hl : k.live p) :
    Total (sysOpen p omode path) k (Returned pool k) := by
  have h₁ : ∀ ref n, FilesOk pool { k with inodeRef := ref, outstanding := n } :=
    fun _ _ => FilesInv.inodes h
  cases path with
  | unreadable => exact Total.pure ⟨h, fun _ => rfl⟩
  | missing =>
      apply Total.of_eq (a := (-1 : Int)) rfl
      exact ⟨h₁ _ _, fun _ => rfl⟩
  | found inode =>
      rw [sysOpen]
      apply Total.bind_eq (a := ()) rfl
      apply Total.bind_eq (a := inode.ip) rfl
      by_cases hrefused : inode.refuses omode
      · rw [if_pos hrefused]
        apply (openFailed_spec (h₁ _ _)).mono
        rintro _ k₂ ⟨-, h₂, hofile⟩
        exact ⟨h₂.ok hofile, fun _ => hofile⟩
      · rw [if_neg hrefused]
        exact openInode_spec (h₁ _ _) hl

/-! ## `pipe` -/

theorem closeSome_spec {file : Option Nat} {rest : Multiset Nat}
    (h : FilesInv pool extra ofile k)
    (hextra : extra = (match file with | none => rest | some f => f ::ₘ rest)) :
    Total (closeSome p file) k fun _ k' => FilesInv pool rest ofile k' ∧ Steady p k k' ∧
      k'.fileTables.ofile = k.fileTables.ofile := by
  cases file with
  | none =>
      rw [hextra] at h
      exact Total.pure ⟨h, Steady.refl p k, rfl⟩
  | some f =>
      rw [hextra] at h
      exact fileclose_spec h

def PipeAllocated (pool : Multiset Nat) (ofile : Nat → Nat → Option Nat) (k : Kernel) :
    Option (Nat × Nat) → Prop
  | none => FilesInv pool 0 ofile k
  | some (rf, wf) => FilesInv pool {rf, wf} ofile k

theorem pipeallocBad_spec {f0 f1 : Option Nat} {rest : Multiset Nat}
    (h : FilesInv pool extra ofile k)
    (hextra : extra = (match f0 with | none => rest | some f => f ::ₘ rest))
    (hrest : rest = (match f1 with | none => 0 | some f => f ::ₘ 0)) :
    Total (pipeallocBad p f0 f1) k fun r k' => PipeAllocated pool ofile k' r ∧ Steady p k k' ∧
      k'.fileTables.ofile = k.fileTables.ofile := by
  rw [pipeallocBad]
  apply Total.bind (closeSome_spec h hextra)
  rintro _ k₁ ⟨h₁, hsteady₁, hofile₁⟩
  apply Total.bind (closeSome_spec h₁ hrest)
  rintro _ k₂ ⟨h₂, hsteady₂, hofile₂⟩
  exact Total.pure ⟨h₂, hsteady₁.trans hsteady₂, hofile₂.trans hofile₁⟩

omit [Image] in
theorem setPipe_run (pi : Nat) (pipe : Pipe) (k : Kernel) :
    setPipe pi pipe k = .ok ((), k.setPipe pi pipe) := by
  have hpipe : (fun i => if i = pi then pipe else k.pipe i) = Function.update k.pipe pi pipe :=
    funext fun i => (Function.update_apply k.pipe pi pipe i).symm
  rw [Kernel.setPipe, ← hpipe]
  rfl

theorem FilesInv.new_pipe {f0 f1 pi : Nat} {mem : Mem} (h : FilesInv pool extra ofile k)
    (hne : f1 ≠ f0) (h0 : (k.file f0).type ≠ .pipe) (h1 : (k.file f1).type ≠ .pipe)
    (hr0 : 0 < (k.file f0).ref) (hr1 : 0 < (k.file f1).ref)
    (hclosed : ∀ writable, (k.pipe pi).isOpen writable = false)
    (hpages : PagesInv pool { k with mem }
      (Function.update k.pipe pi { readopen := true, writeopen := true })) :
    FilesInv pool extra ofile ((({ k with mem }.setPipe pi
      { readopen := true, writeopen := true }).setFile f0
        ((k.file f0).pipeEnd pi false)).setFile f1 ((k.file f1).pipeEnd pi true)) := by
  constructor
  case refs =>
      have hfirst : RefsInv extra ((k.filesUnder ofile).setFile f0
          ((k.file f0).pipeEnd pi false)) := h.refs.describe rfl hr0
      have hsecond : RefsInv extra (((k.filesUnder ofile).setFile f0
          ((k.file f0).pipeEnd pi false)).setFile f1 ((k.file f1).pipeEnd pi true)) := by
        refine hfirst.describe ?_ hr1
        rw [setFile_file_ne hne]
        rfl
      exact ⟨hsecond.refs, hsecond.small, hsecond.inside, hsecond.free⟩
  case ends => exact h.ends.new_pipe hne h0 h1 hr0 hr1 hclosed
  case pages => exact hpages.congr rfl
  case idle => exact h.idle

theorem pipealloc_spec (h : FilesInv pool 0 ofile k) :
    Total (pipealloc p) k fun r k' => PipeAllocated pool ofile k' r ∧ Steady p k k' ∧
      k'.fileTables.ofile = k.fileTables.ofile := by
  rw [pipealloc]
  apply Total.bind (filealloc_spec h)
  intro r k₁ hk₁
  cases r with
  | none =>
      rw [hk₁]
      exact pipeallocBad_spec h rfl rfl
  | some f0 =>
      obtain ⟨h₁, hzero₀, hk₁⟩ := hk₁
      have hsteady₁ : Steady p k k₁ := by
        rw [hk₁]
        exact ⟨rfl, rfl⟩
      have hofile₁ : k₁.fileTables.ofile = k.fileTables.ofile := by
        rw [hk₁]
        rfl
      have hfile₀ : k₁.file f0 = { k.file f0 with ref := 1 } := by
        rw [hk₁]
        exact Function.update_self _ _ _
      apply Total.bind (filealloc_spec h₁)
      intro r k₂ hk₂
      cases r with
      | none =>
          rw [hk₂]
          apply (pipeallocBad_spec h₁ rfl rfl).mono
          rintro _ k' ⟨hr, hsteady, hofile⟩
          exact ⟨hr, hsteady₁.trans hsteady, hofile.trans hofile₁⟩
      | some f1 =>
          obtain ⟨h₂, hzero₁, hk₂⟩ := hk₂
          have hne : f1 ≠ f0 := by
            rintro rfl
            rw [hfile₀] at hzero₁
            cases hzero₁
          have hsteady₂ : Steady p k k₂ := by
            rw [hk₂]
            exact ⟨hsteady₁.table, hsteady₁.state⟩
          have hofile₂ : k₂.fileTables.ofile = k.fileTables.ofile := by
            rw [hk₂]
            exact hofile₁
          rw [Multiset.cons_swap] at h₂
          apply Total.bind h₂.pages.kalloc_spec
          intro r k₃ hk₃
          cases r with
          | none =>
              rw [hk₃]
              apply (pipeallocBad_spec h₂ rfl rfl).mono
              rintro _ k' ⟨hr, hsteady, hofile⟩
              exact ⟨hr, hsteady₂.trans hsteady, hofile.trans hofile₂⟩
          | some pi =>
              obtain ⟨mem, rfl, hclosed, hpages⟩ := hk₃
              have hnew₀ : k₂.file f0 = { k.file f0 with ref := 1 } := by
                rw [hk₂, ← hfile₀]
                exact Function.update_of_ne hne.symm _ _
              have hnew₁ : k₂.file f1 = { k₁.file f1 with ref := 1 } := by
                rw [hk₂]
                exact Function.update_self _ _ _
              have htype₀ : (k₂.file f0).type = .none := by
                rw [hnew₀]
                exact h.refs.free f0 hzero₀
              have htype₁ : (k₂.file f1).type = .none := by
                rw [hnew₁]
                exact h₁.refs.free f1 hzero₁
              obtain ⟨k₄, hk₄⟩ : ∃ k₄, k₄ = ({ k₂ with mem }.setPipe pi
                { readopen := true, writeopen := true }).setFile f0
                  ((k₂.file f0).pipeEnd pi false) := ⟨_, rfl⟩
              have hlast : k₄.file f1 = k₂.file f1 := by
                rw [hk₄]
                exact Function.update_of_ne hne _ _
              apply Total.bind_eq (setPipe_run pi _ _)
              apply Total.bind_eq (setFile_run f0 _ _)
              change Total _ (({ k₂ with mem }.setPipe pi
                { readopen := true, writeopen := true }).setFile f0
                  ((k₂.file f0).pipeEnd pi false)) _
              rw [← hk₄]
              apply Total.bind_eq (setFile_run f1 _ k₄)
              rw [hlast, hk₄]
              apply Total.pure
              refine ⟨h₂.new_pipe hne ?_ ?_ ?_ ?_ hclosed hpages, ?_, ?_⟩
              · rw [htype₀]
                exact nofun
              · rw [htype₁]
                exact nofun
              · rw [hnew₀]
                exact Nat.one_pos
              · rw [hnew₁]
                exact Nat.one_pos
              · exact ⟨hsteady₂.table, hsteady₂.state⟩
              · exact hofile₂

theorem copyout_files {addr : Nat} {src : List Nat} (h : FilesInv pool extra ofile k)
    (hl : k.live p) :
    Total (inMem (copyout (k.proc p).pagetable addr src)) k fun _ k' =>
      FilesInv pool extra ofile k' ∧ ∃ mem, k' = { k with mem } := by
  obtain ⟨X, P, hinv, hsum, hopen⟩ := h.pages.parts
  have hholds : Holds k.fileTables k k.closed := ⟨rfl, rfl⟩
  have hcopy : Total (inMem (copyout (k.proc p).pagetable addr src)) k.closed fun _ k₀ =>
      Inv X k₀ ∧ ∃ mem, k₀ = { k.closed with mem } := copyout_inv hinv hl
  obtain ⟨a, k', hrun, a₀, k₀, ⟨hinv', -⟩, -, hholds'⟩ := (hholds.mirrors_inMem _).total hcopy
  obtain ⟨mem, hk'⟩ := inMem_ok hrun
  refine ⟨a, k', hrun, ?_, mem, hk'⟩
  rw [← hholds'.closed] at hinv'
  have hpages : PagesInv pool k' k.pipe := ⟨h.pages.nodup, h.pages.valid, X, P, hinv', hsum, hopen⟩
  rw [hk'] at hpages ⊢
  exact h.transfer rfl rfl rfl hpages

theorem copyoutFds_spec {fdarray fd0 fd1 : Nat} (h : FilesInv pool extra ofile k)
    (hl : k.live p) :
    Total (copyoutFds (k.proc p).pagetable fdarray fd0 fd1) k fun _ k' =>
      FilesInv pool extra ofile k' ∧ ∃ mem, k' = { k with mem } := by
  rw [copyoutFds]
  apply Total.bind (copyout_files h hl)
  rintro copied _ ⟨h₁, mem, rfl⟩
  cases copied with
  | true =>
      have hl₁ : { k with mem }.live p := hl
      apply (copyout_files h₁ hl₁).mono
      rintro _ _ ⟨h₂, mem', rfl⟩
      exact ⟨h₂, mem', rfl⟩
  | false => exact Total.pure ⟨h₁, mem, rfl⟩

omit [Image] in
theorem withFd_undo {file : Option Nat} (h : ofile p fd = none) :
    withFd (withFd ofile p fd file) p fd none = ofile := by
  funext q i
  by_cases hi : i = fd
  · by_cases hq : q = p
    · subst hi
      subst hq
      rw [withFd_self, h]
    · rw [withFd_ne hq, withFd_ne hq]
  · rw [withFd_fd hi, withFd_fd hi]

omit [Image] in
theorem withFd_comm {fd0 fd1 : Nat} {x y : Option Nat} (h : fd1 ≠ fd0) :
    withFd (withFd ofile p fd0 x) p fd1 y = withFd (withFd ofile p fd1 y) p fd0 x := by
  rw [withFd, withFd, withFd, withFd, Function.update_self, Function.update_self,
    Function.update_idem, Function.update_idem, Function.update_comm h]

def PipeRefused (pool : Multiset Nat) (ofile : Nat → Nat → Option Nat) (r : Int) (k : Kernel) :
    Prop :=
  r = -1 ∧ FilesInv pool 0 ofile k ∧ k.fileTables.ofile = ofile

theorem pipeFailed_spec {rf wf : Nat} (h : FilesInv pool {rf, wf} ofile k)
    (hofile : k.fileTables.ofile = ofile) :
    Total (pipeFailed p rf wf) k (PipeRefused pool ofile) := by
  rw [pipeFailed]
  apply Total.bind (fileclose_spec h)
  rintro _ k₁ ⟨h₁, -, hofile₁⟩
  apply Total.bind (fileclose_spec h₁)
  rintro _ k₂ ⟨h₂, -, hofile₂⟩
  exact Total.pure ⟨rfl, h₂, hofile₂.trans (hofile₁.trans hofile)⟩

theorem pipeFailed_one {rf wf fd0 : Nat}
    (h : FilesInv pool {wf} (withFd ofile p fd0 (some rf)) k)
    (hofile : k.fileTables.ofile = withFd ofile p fd0 (some rf)) (hfree : ofile p fd0 = none) :
    Total (do setFd p fd0 none; pipeFailed p rf wf) k (PipeRefused pool ofile) := by
  apply Total.bind (clearFd_files h hofile withFd_self)
  rintro _ k₁ ⟨h₁, hofile₁⟩
  rw [withFd_undo hfree] at h₁ hofile₁
  exact pipeFailed_spec h₁ hofile₁

theorem pipeFailed_both {rf wf fd0 fd1 : Nat}
    (h : FilesInv pool 0 (withFd (withFd ofile p fd0 (some rf)) p fd1 (some wf)) k)
    (hofile : k.fileTables.ofile = withFd (withFd ofile p fd0 (some rf)) p fd1 (some wf))
    (hfree0 : ofile p fd0 = none) (hfree1 : withFd ofile p fd0 (some rf) p fd1 = none) :
    Total (do setFd p fd0 none; setFd p fd1 none; pipeFailed p rf wf) k
      (PipeRefused pool ofile) := by
  have hne : fd1 ≠ fd0 := by
    rintro rfl
    rw [withFd_self] at hfree1
    cases hfree1
  rw [withFd_fd hne] at hfree1
  rw [withFd_comm hne] at h hofile
  apply Total.bind (clearFd_files h hofile withFd_self)
  rintro _ k₁ ⟨h₁, hofile₁⟩
  have hfree0' : withFd ofile p fd1 (some wf) p fd0 = none := by
    rw [withFd_fd hne.symm]
    exact hfree0
  rw [withFd_undo hfree0'] at h₁ hofile₁
  apply Total.bind (clearFd_files h₁ hofile₁ withFd_self)
  rintro _ k₂ ⟨h₂, hofile₂⟩
  rw [withFd_undo hfree1] at h₂ hofile₂
  rw [Multiset.cons_swap] at h₂
  exact pipeFailed_spec h₂ hofile₂

theorem sysPipe_spec {fdarray : Nat} (h : FilesOk pool k) (hl : k.live p) :
    Total (sysPipe p fdarray) k (Returned pool k) := by
  obtain ⟨ofile, hofile⟩ : ∃ ofile, k.fileTables.ofile = ofile := ⟨_, rfl⟩
  have hrefused : ∀ r k', PipeRefused pool ofile r k' → Returned pool k r k' := by
    rintro r k' ⟨-, hinv, hsame⟩
    exact ⟨hinv.ok hsame, fun _ => hsame.trans hofile.symm⟩
  rw [FilesOk, hofile] at h
  rw [sysPipe]
  apply Total.bind (pipealloc_spec h)
  rintro r k₁ ⟨h₁, hsteady₁, hofile₁⟩
  have hl₁ := hsteady₁.live hl
  rw [hofile] at hofile₁
  cases r with
  | none => exact Total.pure (hrefused _ _ ⟨rfl, h₁, hofile₁⟩)
  | some ends =>
      obtain ⟨rf, wf⟩ := ends
      apply Total.bind (fdalloc_files h₁ hl₁ hofile₁)
      intro r k₂ hk₂
      cases r with
      | none =>
          rw [hk₂]
          exact (pipeFailed_spec h₁ hofile₁).mono hrefused
      | some fd0 =>
          obtain ⟨h₂, hofile₂, hfree0, hsteady₂, -⟩ := hk₂
          have hl₂ := hsteady₂.live hl₁
          apply Total.bind (fdalloc_files h₂ hl₂ hofile₂)
          intro r k₃ hk₃
          cases r with
          | none =>
              rw [hk₃]
              exact (pipeFailed_one h₂ hofile₂ hfree0).mono hrefused
          | some fd1 =>
              obtain ⟨h₃, hofile₃, hfree1, hsteady₃, -⟩ := hk₃
              apply Total.bind_eq (a := k₃.proc p) (t := k₃) rfl
              apply Total.bind (copyoutFds_spec h₃ (hsteady₃.live hl₂))
              rintro copied _ ⟨h₄, mem, rfl⟩
              cases copied with
              | true =>
                  apply Total.pure
                  exact ⟨h₄.ok hofile₃, fun hfail => absurd hfail (by decide)⟩
              | false => exact (pipeFailed_both h₄ hofile₃ hfree0 hfree1).mono hrefused

end

end SyscallSched.Xv6
