import SyscallSched.Xv6.Files.Pages

/-!
# What the functions on files do

`FilesInv pool extra ofile k` holds of the counts under the descriptors `ofile` while
the kernel itself has the references `extra`.  Each of `filealloc`, `fdalloc` and
`fileclose` moves references between the kernel, the descriptors and the counts, and
`fileclose` gives pipes and their pages back.
-/

namespace SyscallSched.Xv6

open SyscallSched.Foundation
open SyscallSched.Xv6.Family

def Kernel.filesUnder (k : Kernel) (ofile : Nat → Nat → Option Nat) : FileTables where
  ofile := ofile
  file := k.file
  pipe := k.pipe

def Kernel.setFile (k : Kernel) (f : Nat) (file : File) : Kernel :=
  { k with file := Function.update k.file f file }

def Kernel.setPipe (k : Kernel) (pi : Nat) (pipe : Pipe) : Kernel :=
  { k with pipe := Function.update k.pipe pi pipe }

def withFd (ofile : Nat → Nat → Option Nat) (p fd : Nat) (file : Option Nat) :
    Nat → Nat → Option Nat :=
  Function.update ofile p (Function.update (ofile p) fd file)

structure Steady (p : Nat) (k k' : Kernel) : Prop where
  table : k'.table = k.table
  state : (k'.proc p).state = (k.proc p).state

variable [Image]

structure FilesInv (pool extra : Multiset Nat) (ofile : Nat → Nat → Option Nat)
    (k : Kernel) : Prop where
  refs : RefsInv extra (k.filesUnder ofile)
  ends : EndsInv (k.filesUnder ofile)
  pages : PagesInv pool k k.pipe
  /-- a slot without a running process has no open files -/
  idle : ∀ p, (k.table.entry p).stage ≠ .alive → ∀ fd, ofile p fd = none

section

variable {pool extra extra' : Multiset Nat} {ofile : Nat → Nat → Option Nat} {k k' k'' : Kernel}
  {p fd f pi : Nat} {ff : File}

omit [Image] in
theorem Steady.refl (p : Nat) (k : Kernel) : Steady p k k := ⟨rfl, rfl⟩

omit [Image] in
theorem Steady.trans (h : Steady p k k') (h' : Steady p k' k'') : Steady p k k'' :=
  ⟨h'.table.trans h.table, h'.state.trans h.state⟩

omit [Image] in
theorem Steady.live (h : Steady p k k') (hl : k.live p) : k'.live p := by
  refine ⟨hl.1, ?_⟩
  rw [h.state]
  exact hl.2

omit [Image] in
theorem live_alive (hl : k.live p) : (k.table.entry p).stage = .alive := by
  cases hl.2 with
  | inl hs => simp [Kernel.table, Proc.entry, ProcState.stage, hs]
  | inr hs => simp [Kernel.table, Proc.entry, ProcState.stage, hs]

omit [Image] in
theorem steady_of_closed (h : k'.closed = k.closed) (p : Nat) : Steady p k k' := by
  constructor
  case table => rw [← closed_table, h, closed_table]
  case state =>
      change (k'.closed.proc p).state = (k.closed.proc p).state
      rw [h]

/-! ## Changing a file -/

theorem FilesInv.set_file (h : FilesInv pool extra ofile k)
    (hrefs : RefsInv extra' ((k.filesUnder ofile).setFile f ff))
    (hends : EndsInv ((k.filesUnder ofile).setFile f ff)) :
    FilesInv pool extra' ofile (k.setFile f ff) :=
  ⟨hrefs, hends, h.pages.congr rfl, h.idle⟩

theorem FilesInv.transfer (h : FilesInv pool extra ofile k) (hfile : k'.file = k.file)
    (hpipe : k'.pipe = k.pipe) (htable : k'.table = k.table)
    (hpages : PagesInv pool k' k.pipe) : FilesInv pool extra ofile k' := by
  have hsame : k'.filesUnder ofile = k.filesUnder ofile := by
    rw [Kernel.filesUnder, hfile, hpipe]
    rfl
  constructor
  case refs =>
      rw [hsame]
      exact h.refs
  case ends =>
      rw [hsame]
      exact h.ends
  case pages =>
      rw [hpipe]
      exact hpages
  case idle =>
      rw [htable]
      exact h.idle

theorem FilesInv.congr (h : FilesInv pool extra ofile k) (hclosed : k'.closed = k.closed)
    (hfile : k'.file = k.file) (hpipe : k'.pipe = k.pipe) : FilesInv pool extra ofile k' :=
  h.transfer hfile hpipe (steady_of_closed hclosed 0).table (h.pages.congr hclosed)

omit [Image] in
theorem setFile_run (f : Nat) (g : File → File) (k : Kernel) :
    setFile f g k = .ok ((), k.setFile f (g (k.file f))) := by
  have hfile : (fun i => if i = f then g (k.file i) else k.file i) =
      Function.update k.file f (g (k.file f)) := by
    funext i
    by_cases hi : i = f
    · subst hi
      simp
    · simp [hi]
  rw [Kernel.setFile, ← hfile]
  rfl

omit [Image] in
theorem set_setFile (k : Kernel) (f : Nat) (ff : File) :
    (set { k with file := fun g => if g = f then ff else k.file g } : KernelM Unit) k =
      .ok ((), k.setFile f ff) := by
  have hfile : (fun g => if g = f then ff else k.file g) = Function.update k.file f ff :=
    funext fun g => (Function.update_apply k.file f ff g).symm
  rw [Kernel.setFile, ← hfile]
  rfl

/-! ## Descriptors -/

omit [Image] in
theorem setFd_run (p fd : Nat) (file : Option Nat) (k : Kernel) :
    ∃ k', setFd p fd file k = .ok ((), k') ∧ k'.closed = k.closed ∧
      k'.fileTables = k.filesUnder (withFd k.fileTables.ofile p fd file) := by
  obtain ⟨g, hg⟩ : ∃ g : Proc → Proc, g = fun q =>
    { q with ofile := fun j => if j = fd then file else q.ofile j } := ⟨_, rfl⟩
  refine ⟨k.setProc p g, ?_, ?_, ?_⟩
  · rw [hg]
    rfl
  · have hproc : ∀ i, ((k.setProc p g).proc i).closed = (k.proc i).closed := by
      intro i
      change (if i = p then g (k.proc i) else k.proc i).closed = _
      by_cases hi : i = p
      · rw [if_pos hi, hg]
        rfl
      · rw [if_neg hi]
    rw [Kernel.closed, Kernel.closed, Kernel.mk.injEq]
    exact ⟨rfl, funext hproc, rfl, rfl, rfl, rfl, rfl, rfl⟩
  · have hofile : ∀ i, ((k.setProc p g).proc i).ofile =
        withFd k.fileTables.ofile p fd file i := by
      intro i
      change (if i = p then g (k.proc i) else k.proc i).ofile = _
      by_cases hi : i = p
      · subst hi
        rw [if_pos rfl, hg, withFd, Function.update_self]
        exact funext fun j => (Function.update_apply (k.proc i).ofile fd file j).symm
      · rw [if_neg hi, withFd, Function.update_of_ne hi]
        rfl
    rw [Kernel.fileTables, Kernel.filesUnder, FileTables.mk.injEq]
    exact ⟨funext hofile, rfl, rfl⟩

omit [Image] in
theorem withFd_ne {q : Nat} {file : Option Nat} (h : q ≠ p) :
    withFd ofile p fd file q = ofile q :=
  Function.update_of_ne h _ _

omit [Image] in
theorem withFd_fd {q i : Nat} {file : Option Nat} (h : i ≠ fd) :
    withFd ofile p fd file q i = ofile q i := by
  by_cases hq : q = p
  · subst hq
    simp [withFd, h]
  · rw [withFd_ne hq]

omit [Image] in
theorem withFd_self {file : Option Nat} : withFd ofile p fd file p fd = file := by
  simp [withFd]

theorem FilesInv.open_fd (h : FilesInv pool (f ::ₘ extra) ofile k) (hp : p < nproc)
    (hfd : fd < nofile) (hfree : ofile p fd = none)
    (halive : (k.table.entry p).stage = .alive) :
    FilesInv pool extra (withFd ofile p fd (some f)) k := by
  constructor
  case refs => exact h.refs.open_fd hp hfd hfree
  case ends => exact ⟨h.ends.ends, h.ends.unique⟩
  case pages => exact h.pages
  case idle =>
      intro q hq i
      have hqp : q ≠ p := by
        rintro rfl
        exact hq halive
      rw [withFd_ne hqp]
      exact h.idle q hq i

theorem FilesInv.close_fd (h : FilesInv pool extra ofile k) (hopen : ofile p fd = some f) :
    FilesInv pool (f ::ₘ extra) (withFd ofile p fd none) k := by
  constructor
  case refs => exact h.refs.close_fd hopen
  case ends => exact ⟨h.ends.ends, h.ends.unique⟩
  case pages => exact h.pages
  case idle =>
      intro q hq i
      by_cases hi : i = fd
      · by_cases hqp : q = p
        · subst hi
          subst hqp
          exact withFd_self
        · rw [withFd_ne hqp]
          exact h.idle q hq i
      · rw [withFd_fd hi]
        exact h.idle q hq i

theorem filealloc_spec (h : FilesInv pool extra ofile k) :
    Total filealloc k fun result k' => match result with
      | none => k' = k
      | some f => FilesInv pool (f ::ₘ extra) ofile k' ∧ (k.file f).ref = 0 ∧
          k' = k.setFile f { k.file f with ref := 1 } := by
  rw [filealloc]
  apply Total.bind_eq (a := k) (t := k) rfl
  cases hfound : k.freeFile with
  | none => exact Total.pure rfl
  | some f =>
      have hlt : f < nfile := List.mem_range.mp (List.mem_of_find?_eq_some hfound)
      have hzero : (k.file f).ref = 0 := by
        have hfirst := List.find?_some hfound
        exact of_decide_eq_true hfirst
      have htype : (k.file f).type ≠ .pipe := by
        have hnone : (k.file f).type = .none := h.refs.free f hzero
        rw [hnone]
        exact nofun
      apply Total.bind_eq (setFile_run f _ k)
      apply Total.pure
      refine ⟨h.set_file ?_ ?_, hzero, rfl⟩
      · exact h.refs.take hlt hzero rfl
      · exact h.ends.set_other htype htype

omit [Image] in
theorem fdalloc_spec (p f : Nat) (k : Kernel) :
    Total (fdalloc p f) k fun result k' => match result with
      | none => k' = k
      | some fd => fd < nofile ∧ k.fileTables.ofile p fd = none ∧ k'.closed = k.closed ∧
          k'.fileTables = k.filesUnder (withFd k.fileTables.ofile p fd (some f)) := by
  rw [fdalloc]
  apply Total.bind_eq (a := k.proc p) (t := k) rfl
  cases hfound : (k.proc p).freeFd with
  | none => exact Total.pure rfl
  | some fd =>
      have hlt : fd < nofile := List.mem_range.mp (List.mem_of_find?_eq_some hfound)
      have hfree : (k.proc p).ofile fd = none := by
        have hfirst := List.find?_some hfound
        exact of_decide_eq_true hfirst
      obtain ⟨k', hrun, hclosed, htables⟩ := setFd_run p fd (some f) k
      apply Total.bind_eq hrun
      exact Total.pure ⟨hlt, hfree, hclosed, htables⟩

/-! ## `fileclose` -/

omit [Image] in
theorem wakeup_steady (p : Nat) (chan : Option Chan) (k : Kernel) :
    Total (wakeup p chan) k fun _ k' => Quiet k k' ∧ Steady p k k' ∧
      k'.file = k.file ∧ k'.pipe = k.pipe := by
  have hrest : Total (wakeup p chan) k fun _ k' =>
      (k'.proc p).state = (k.proc p).state ∧ k'.file = k.file ∧ k'.pipe = k.pipe := by
    apply Total.of_eq (a := ()) rfl
    refine ⟨?_, rfl, rfl⟩
    change (if p ≠ p ∧ _ then _ else k.proc p : Proc).state = _
    rw [if_neg fun hself => hself.1 rfl]
  obtain ⟨a, k', hrun, hquiet, hstate, hfile, hpipe⟩ := (wakeup_quiet p chan).and hrest
  exact ⟨a, k', hrun, hquiet, ⟨table_wakeup k a k' hrun, hstate⟩, hfile, hpipe⟩

omit [Image] in
theorem ofile_of_quiet (h : Quiet k k') : k'.fileTables.ofile = k.fileTables.ofile :=
  funext fun i => (h.keeps i).ofile

/-- `pipeclose` shuts one end, wakes the other one up, and frees the page of a pipe
that has both ends shut. -/
theorem pipeclose_eq {writable : Bool} {u : Kernel}
    (hu : u = k.setPipe pi ((k.pipe pi).shut writable)) : pipeclose p pi writable k = (do
      wakeup p (some (if writable then .nread pi else .nwrite pi))
      let k ← get
      if (k.pipe pi).readopen = false ∧ (k.pipe pi).writeopen = false then
        inMem (kfree pi)
      else
        pure () : KernelM Unit) u := by
  have hpipe : ∀ g : Pipe → Pipe, (fun q => if q = pi then g (k.pipe q) else k.pipe q) =
      Function.update k.pipe pi (g (k.pipe pi)) := by
    intro g
    funext q
    by_cases hq : q = pi
    · subst hq
      simp
    · simp [hq]
  cases writable with
  | true =>
      have hshut := hpipe fun pipe => { pipe with writeopen := false }
      rw [hu, Kernel.setPipe, Pipe.shut, ← hshut]
      rfl
  | false =>
      have hshut := hpipe fun pipe => { pipe with readopen := false }
      rw [hu, Kernel.setPipe, Pipe.shut, ← hshut]
      rfl

omit [Image] in
theorem isOpen_eq_false_iff (pipe : Pipe) : (∀ writable, pipe.isOpen writable = false) ↔
    pipe.readopen = false ∧ pipe.writeopen = false :=
  ⟨fun h => ⟨h false, h true⟩, fun h writable => by cases writable <;> simp [Pipe.isOpen, h]⟩

theorem pipeclose_spec {writable : Bool} (h : FilesInv pool (f ::ₘ extra) ofile k)
    (hend : (k.filesUnder ofile).IsEnd f pi writable) (hlast : (k.file f).ref = 1)
    (href : ff.ref = 0) (htype : ff.type = .none) :
    Total (pipeclose p pi writable) (k.setFile f ff) fun _ k' =>
      FilesInv pool extra ofile k' ∧ Steady p k k' ∧
        k'.fileTables.ofile = k.fileTables.ofile := by
  obtain ⟨shut, hshut⟩ : ∃ shut, shut = (k.pipe pi).shut writable := ⟨_, rfl⟩
  obtain ⟨u, hu⟩ : ∃ u, u = (k.setFile f ff).setPipe pi shut := ⟨_, rfl⟩
  have hopen : (k.pipe pi).isOpen writable = true := (h.ends.ends pi writable).mpr ⟨f, hend⟩
  have hrefs : RefsInv extra (u.filesUnder ofile) := by
    have hdrop : RefsInv extra ((k.filesUnder ofile).setFile f ff) := by
      apply h.refs.drop
      · change ff.ref + 1 = (k.file f).ref
        rw [href, hlast]
      · exact fun _ => htype
    rw [hu]
    exact ⟨hdrop.refs, hdrop.small, hdrop.inside, hdrop.free⟩
  have hends : EndsInv (u.filesUnder ofile) := by
    rw [hu, hshut]
    apply h.ends.shut hend
    rw [htype]
    exact nofun
  have hpipe : u.pipe = Function.update k.pipe pi shut := by
    rw [hu]
    rfl
  have hpages : PagesInv pool u k.pipe := by
    rw [hu]
    exact h.pages.congr rfl
  have hsteady : Steady p k u := by
    rw [hu]
    exact ⟨rfl, rfl⟩
  have hofile : u.fileTables.ofile = k.fileTables.ofile := by
    rw [hu]
    rfl
  rw [hshut] at hu
  apply Total.congr (pipeclose_eq hu)
  apply Total.bind (wakeup_steady p _ u)
  intro _ t ht
  obtain ⟨hquiet, hwoken, htfile, htpipe⟩ := ht
  have hunder : t.filesUnder ofile = u.filesUnder ofile := by
    rw [Kernel.filesUnder, htfile, htpipe]
    rfl
  have htpages : PagesInv pool t k.pipe := hpages.keep hquiet.keeps hquiet.mem
  have hall : ∀ k', k'.filesUnder ofile = t.filesUnder ofile → k'.table = t.table →
      PagesInv pool k' (Function.update k.pipe pi shut) → FilesInv pool extra ofile k' := by
    intro k' hfiles htable hpages'
    have hpipe' : k'.pipe = Function.update k.pipe pi shut :=
      (congrArg FileTables.pipe (hfiles.trans hunder)).trans hpipe
    constructor
    case refs =>
        rw [hfiles, hunder]
        exact hrefs
    case ends =>
        rw [hfiles, hunder]
        exact hends
    case pages =>
        rw [hpipe']
        exact hpages'
    case idle =>
        rw [htable, hwoken.table, hsteady.table]
        exact h.idle
  have hself : t.pipe pi = shut := by
    rw [htpipe, hpipe, Function.update_self]
  apply Total.bind_eq (a := t) (t := t) rfl
  rw [hself]
  by_cases hclosed : shut.readopen = false ∧ shut.writeopen = false
  · rw [if_pos hclosed]
    apply (htpages.kfree_spec hopen ((isOpen_eq_false_iff shut).mpr hclosed)).mono
    rintro _ _ ⟨m, rfl, hfreed⟩
    refine ⟨hall _ rfl rfl hfreed, hsteady.trans ?_, (ofile_of_quiet hquiet).trans hofile⟩
    exact ⟨hwoken.table, hwoken.state⟩
  · rw [if_neg hclosed]
    have hstill : ∃ other, shut.isOpen other = true := by
      rw [← isOpen_eq_false_iff, not_forall] at hclosed
      obtain ⟨other, hother⟩ := hclosed
      exact ⟨other, eq_true_of_ne_false hother⟩
    apply Total.pure
    exact ⟨hall t rfl rfl (htpages.shut_one hopen hstill), hsteady.trans hwoken,
      (ofile_of_quiet hquiet).trans hofile⟩

theorem fileclose_spec (h : FilesInv pool (f ::ₘ extra) ofile k) :
    Total (fileclose p f) k fun _ k' => FilesInv pool extra ofile k' ∧ Steady p k k' ∧
      k'.fileTables.ofile = k.fileTables.ofile := by
  have hpos : 0 < (k.file f).ref := h.refs.ref_pos
  rw [fileclose]
  apply Total.bind_eq (a := k) (t := k) rfl
  dsimp only
  rw [if_neg (Nat.not_lt.mpr hpos)]
  by_cases hmore : 1 < (k.file f).ref
  · rw [if_pos hmore]
    apply Total.of_eq (set_setFile k f _)
    refine ⟨h.set_file ?_ ?_, ⟨rfl, rfl⟩, rfl⟩
    · apply h.refs.drop
      · exact Nat.sub_add_cancel hpos
      · intro hzero
        exact absurd hzero (Nat.sub_ne_zero_of_lt hmore)
    · exact h.ends.set_ref hpos (Nat.sub_pos_of_lt hmore)
  · have hlast : (k.file f).ref = 1 := by omega
    rw [if_neg hmore]
    apply Total.bind_eq (set_setFile k f _)
    -- without a pipe only the count of the file and the inode change
    have hother : (k.file f).type ≠ .pipe →
        FilesInv pool extra ofile (k.setFile f { k.file f with ref := 0, type := .none }) := by
      intro htype
      apply h.set_file
      · apply h.refs.drop
        · exact hlast.symm
        · exact fun _ => rfl
      · exact h.ends.set_other htype (by simp)
    cases htype : (k.file f).type with
    | none =>
        apply Total.pure
        exact ⟨hother (by simp [htype]), ⟨rfl, rfl⟩, rfl⟩
    | pipe => exact pipeclose_spec h ⟨hpos, htype, rfl, rfl⟩ hlast rfl rfl
    | inode =>
        have hinv := hother (by simp [htype])
        apply Total.of_eq (a := ()) rfl
        refine ⟨hinv.transfer rfl rfl rfl ?_, ⟨rfl, rfl⟩, rfl⟩
        exact hinv.pages.keep (fun _ => Keeps.refl _) rfl
    | device =>
        have hinv := hother (by simp [htype])
        apply Total.of_eq (a := ()) rfl
        refine ⟨hinv.transfer rfl rfl rfl ?_, ⟨rfl, rfl⟩, rfl⟩
        exact hinv.pages.keep (fun _ => Keeps.refl _) rfl

end

end SyscallSched.Xv6
