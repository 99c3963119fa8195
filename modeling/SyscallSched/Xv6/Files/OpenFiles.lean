import SyscallSched.Xv6.Files.Syscalls

/-!
# Open files over a whole run

Between two calls the count of every file is the number of descriptors that hold it,
a pipe has an end open while a file for that end is in use, and its page belongs to it
until both ends are closed.  A call that fails leaves descriptors and counts alone.
-/

namespace SyscallSched.Xv6

open SyscallSched.Foundation
open SyscallSched.Xv6.Family

section

variable [Image] {pool : Multiset Nat} {k k' : Kernel} {p : Nat}

/-! ## `fork` -/

omit [Image] in
theorem forkCopy_alive {r : Option Nat} {q : Nat} (h : Taken k k' r)
    (hq : (k.table.entry q).stage = .alive) :
    (k'.table.entry q).stage = .alive := by
  have hother : ∀ np, (k.proc np).state = .unused → q ≠ np := by
    rintro np hunused rfl
    simp [Kernel.table, Proc.entry, ProcState.stage, hunused] at hq
  cases r with
  | some np =>
      obtain ⟨-, hunused, htable⟩ := h
      rw [htable, Table.take]
      dsimp only
      rw [Table.set_entry_ne _ _ (hother np hunused)]
      exact hq
  | none =>
      cases h with
      | inl hsame =>
          rw [hsame]
          exact hq
      | inr hgiven =>
          obtain ⟨np, -, hunused, htable⟩ := hgiven
          rw [htable, Table.clear, Table.set_entry_ne _ _ (hother np hunused), Table.take]
          dsimp only
          rw [Table.set_entry_ne _ _ (hother np hunused)]
          exact hq

theorem fork_alive {pid : Int} {q : Nat} (h : fork p k = .ok (pid, k'))
    (hq : (k.table.entry q).stage = .alive) : (k'.table.entry q).stage = .alive := by
  obtain ⟨r, k₁, hcopy, hrest⟩ := fork_parts h
  have halive := forkCopy_alive (forkCopy_taken hcopy) hq
  cases r with
  | none =>
      rw [hrest.2]
      exact halive
  | some np =>
      obtain ⟨-, hstart⟩ := hrest
      cases hstart
      rw [table_setProc, table_setProc]
      by_cases hnp : q = np
      · rw [hnp, Table.set_entry_self]
        rfl
      · rw [Table.set_entry_ne _ _ hnp, Table.set_entry_ne _ _ hnp]
        exact halive

theorem FilesOk.same_files (h : FilesOk pool k) (hfiles : k'.fileTables = k.fileTables)
    (hpages : PagesInv pool k' k.pipe)
    (hidle : ∀ q, (k'.table.entry q).stage ≠ .alive → ∀ fd, k.fileTables.ofile q fd = none) :
    FilesOk pool k' := by
  have hunder : k'.filesUnder k'.fileTables.ofile = k.fileTables := hfiles
  constructor
  case refs =>
      rw [hunder]
      exact h.refs
  case ends =>
      rw [hunder]
      exact h.ends
  case pages =>
      have hpipe : k'.pipe = k.pipe := congrArg FileTables.pipe hfiles
      rw [hpipe]
      exact hpages
  case idle =>
      rw [hfiles]
      exact hidle

theorem fork_files (h : FilesOk pool k) (hl : k.live p) :
    Total (fork p) k (Returned pool k) := by
  obtain ⟨X, P, hinv, hsum, hopen⟩ := h.pages.parts
  have hl₀ : k.closed.live p := hl
  have hholds : Holds k.fileTables k k.closed := ⟨rfl, rfl⟩
  have hmirror := hholds.mirrors_fork (live_state hl).1 (h.refs.referred p)
  obtain ⟨pid, k', hrun, pid₀, k₀, ⟨hinv', hforked⟩, rfl, hresult⟩ :=
    hmirror.total (fork_spec hinv hl₀)
  refine ⟨pid₀, k', hrun, ?_⟩
  cases hresult with
  | inl hfail =>
      obtain ⟨-, hholds'⟩ := hfail
      rw [← hholds'.closed] at hinv'
      refine ⟨h.same_files hholds'.files ?_ ?_, fun _ => congrArg FileTables.ofile hholds'.files⟩
      · exact ⟨h.pages.nodup, h.pages.valid, X, P, hinv', hsum, hopen⟩
      · intro q hq
        apply h.idle q
        exact fun halive => hq (fork_alive hrun halive)
  | inr hchild =>
      obtain ⟨hpid, np, hslot, hholds'⟩ := hchild
      refine ⟨?_, fun hfail => absurd hfail hpid⟩
      obtain ⟨hnp, hunused⟩ := unusedSlot_some hslot
      have hempty : ∀ fd, k.fileTables.ofile np fd = none := by
        apply h.idle np
        simp [Kernel.table, Proc.entry, ProcState.stage, hunused]
      have hstarted : (k'.table.entry np).stage = .alive := by
        cases hforked with
        | inl hfail => exact absurd hfail hpid
        | inr hforked =>
            obtain ⟨np', hforked⟩ := hforked
            have hsame : some np' = some np := hforked.slot.symm.trans hslot
            injection hsame with heq
            subst heq
            rw [← closed_table, hholds'.closed]
            have hstate : (k₀.proc np').state = .runnable := congrArg Proc.state hforked.proc
            simp [Kernel.table, Proc.entry, ProcState.stage, hstate]
      have htables : k'.filesUnder k'.fileTables.ofile = k.fileTables.dup p np nofile :=
        hholds'.files
      rw [← hholds'.closed] at hinv'
      constructor
      case refs =>
          rw [htables]
          exact RefsInv.forked h.refs hnp hempty
      case ends =>
          rw [htables]
          exact EndsInv.forked h.ends h.refs
      case pages =>
          have hpipe : k'.pipe = k.pipe := congrArg FileTables.pipe hholds'.files
          rw [hpipe]
          exact ⟨h.pages.nodup, h.pages.valid, X, P, hinv', hsum, hopen⟩
      case idle =>
          intro q hq fd
          have hne : q ≠ np := by
            rintro rfl
            exact hq hstarted
          rw [hholds'.files, dup_ofile_ne hne]
          apply h.idle q
          exact fun halive => hq (fork_alive hrun halive)

/-! ## `exit` and `wait` -/

theorem closeFiles_files (h : FilesOk pool k) :
    Total (closeFiles p) k fun _ k' => FilesOk pool k' ∧ Steady p k k' ∧
      ∀ fd, k'.fileTables.ofile p fd = none := by
  have hloop : Total (closeFiles p) k fun _ k' => FilesOk pool k' ∧ Steady p k k' ∧
      ∀ fd < nofile, k'.fileTables.ofile p fd = none := by
    apply Total.forRange (I := fun n k' => FilesOk pool k' ∧ Steady p k k' ∧
      ∀ fd < n, k'.fileTables.ofile p fd = none)
    · exact ⟨h, Steady.refl p k, fun fd hfd => absurd hfd (Nat.not_lt_zero fd)⟩
    · rintro i t - ⟨ht, hsteady, hdone⟩
      apply Total.bind_eq (a := t.proc p) (t := t) rfl
      cases hopen : (t.proc p).ofile i with
      | none =>
          apply Total.pure
          refine ⟨ht, hsteady, ?_⟩
          intro fd hfd
          cases Nat.lt_succ_iff_lt_or_eq.mp hfd with
          | inl hlt => exact hdone fd hlt
          | inr heq =>
              rw [heq]
              exact hopen
      | some f =>
          -- the count drops while the descriptor is still there
          have hheld := FilesInv.close_fd ht hopen
          apply Total.bind (fileclose_spec hheld)
          rintro _ t₁ ⟨h₁, hsteady₁, hofile₁⟩
          obtain ⟨t₂, hrun, hclosed, htables⟩ := setFd_run p i none t₁
          obtain ⟨hofile₂, hfile₂, hpipe₂⟩ := ofile_filesUnder htables
          rw [hofile₁] at hofile₂
          apply Total.of_eq hrun
          refine ⟨(h₁.congr hclosed hfile₂ hpipe₂).ok hofile₂, ?_, ?_⟩
          · exact (hsteady.trans hsteady₁).trans (steady_of_closed hclosed p)
          · intro fd hfd
            rw [hofile₂]
            by_cases hi : fd = i
            · rw [hi]
              exact withFd_self
            · rw [withFd_fd hi]
              exact hdone fd (Nat.lt_of_le_of_ne (Nat.le_of_lt_succ hfd) hi)
  apply hloop.mono
  rintro _ k' ⟨hok, hsteady, hnone⟩
  refine ⟨hok, hsteady, ?_⟩
  intro fd
  cases hopen : k'.fileTables.ofile p fd with
  | none => rfl
  | some f =>
      have hinside := hok.refs.inside p fd f hopen
      rw [hnone fd hinside.2.1] at hopen
      cases hopen

theorem exit_closed {status : Int} {k₁ : Kernel} {a : Unit}
    (hclose : closeFiles p k = .ok (a, k₁)) (hinit : k.initproc ≠ some p)
    (hinit₁ : k₁.initproc = k.initproc) (hnone : ∀ fd, (k₁.proc p).ofile fd = none) :
    exit p status k = exit p status k₁ := by
  obtain ⟨_, k₂, hagain, hsame⟩ := closeFiles_none hnone
  rw [hsame] at hagain
  have hskip : k₁.initproc ≠ some p := by
    rw [hinit₁]
    exact hinit
  rw [exit, Total.run_bind (a := k) (t := k) rfl, Total.run_bind (a := k₁) (t := k₁) rfl,
    if_neg hinit, if_neg hskip, Total.run_bind hclose, Total.run_bind hagain]

theorem exit_files {status : Int} (h : FilesOk pool k) (hl : k.live p)
    (hinit : k.initproc ≠ some p) : Total (exit p status) k fun _ k' => FilesOk pool k' := by
  obtain ⟨_, k₁, hclose, h₁, hsteady, hnone⟩ := closeFiles_files (p := p) h
  have hinit₁ : k₁.initproc = k.initproc := congrArg Table.init hsteady.table
  have hskip : k₁.initproc ≠ some p := by
    rw [hinit₁]
    exact hinit
  apply Total.congr (exit_closed hclose hinit hinit₁ hnone)
  obtain ⟨X, P, hinv, hsum, hopen⟩ := h₁.pages.parts
  have hl₁ : k₁.closed.live p := hsteady.live hl
  have hholds : Holds k₁.fileTables k₁ k₁.closed := ⟨rfl, rfl⟩
  have hspec : Total (exit p status) k₁.closed fun _ k₀ => Inv X k₀ := exit_inv hinv hl₁ hskip
  obtain ⟨_, k', hrun, _, k₀, hinv', -, hholds'⟩ := (hholds.mirrors_exit hnone).total hspec
  rw [← hholds'.closed] at hinv'
  refine ⟨(), k', hrun, h₁.same_files hholds'.files ?_ ?_⟩
  · exact ⟨h₁.pages.nodup, h₁.pages.valid, X, P, hinv', hsum, hopen⟩
  · intro q hq
    by_cases hqp : q = p
    · rw [hqp]
      exact hnone
    · apply h₁.idle q
      obtain ⟨-, htable⟩ := exit_table hrun
      rw [htable, Table.bury, Table.set_entry_ne _ _ hqp, reparent_entry] at hq
      split at hq
      · exact hq
      · exact hq

theorem wait_files {addr : Nat} (h : FilesOk pool k) (hl : k.live p) :
    Total (wait p addr) k fun _ k' => FilesOk pool k' ∧
      k'.fileTables.ofile = k.fileTables.ofile := by
  obtain ⟨X, P, hinv, hsum, hopen⟩ := h.pages.parts
  have hl₀ : k.closed.live p := hl
  have hholds : Holds k.fileTables k k.closed := ⟨rfl, rfl⟩
  have hspec : Total (wait p addr) k.closed fun _ k₀ => Inv X k₀ := wait_inv hinv hl₀
  obtain ⟨r, k', hrun, _, k₀, hinv', -, hholds'⟩ := hholds.mirrors_wait.total hspec
  rw [← hholds'.closed] at hinv'
  refine ⟨r, k', hrun, h.same_files hholds'.files ?_ ?_, congrArg FileTables.ofile hholds'.files⟩
  · exact ⟨h.pages.nodup, h.pages.valid, X, P, hinv', hsum, hopen⟩
  · intro q hq
    apply h.idle q
    cases wait_waited hl hrun with
    | inl hreaped =>
        obtain ⟨c, hzombie, -, htable, -⟩ := hreaped
        by_cases hqc : q = c
        · have hstate := (zombieChild_some hzombie).2.2
          rw [hqc]
          simp [Kernel.table, Proc.entry, ProcState.stage, hstate]
        · rw [htable, Table.clear, Table.set_entry_ne _ _ hqc] at hq
          exact hq
    | inr hsame =>
        rw [hsame.2] at hq
        exact hq

end

/-! ## One call -/

section

variable [Image] {pool : Multiset Nat} {k k' : Kernel} {p : Nat}

def CallReturned (pool : Multiset Nat) (k : Kernel) (r : Option Int) (k' : Kernel) : Prop :=
  FilesOk pool k' ∧ (r = some (-1) → k'.fileTables.ofile = k.fileTables.ofile)

theorem returned_map {x : KernelM Int} (h : Total x k (Returned pool k)) :
    Total (some <$> x) k (CallReturned pool k) := by
  rw [map_eq_pure_bind]
  apply Total.bind h
  intro r k' hr
  apply Total.pure
  refine ⟨hr.1, ?_⟩
  intro hfail
  injection hfail with hneg
  exact hr.2 hneg

/-- A call of a live process, other than `exit` of `init`. -/
theorem call_files {call : FileCall} (h : FilesOk pool k) (hl : k.live p)
    (hinit : ∀ status, call = .exit status → k.initproc ≠ some p) :
    Total (call.run p) k (CallReturned pool k) := by
  cases call with
  | «open» path omode => exact returned_map (sysOpen_spec h hl)
  | dup fd => exact returned_map (sysDup_spec h hl)
  | close fd => exact returned_map (sysClose_spec h)
  | pipe fdarray => exact returned_map (sysPipe_spec h hl)
  | fork => exact returned_map (fork_files h hl)
  | exit status =>
      apply Total.bind (exit_files h hl (hinit status rfl))
      intro _ k' hk'
      exact Total.pure ⟨hk', nofun⟩
  | wait addr =>
      apply (wait_files h hl).mono
      intro r k' hk'
      exact ⟨hk'.1, fun _ => hk'.2⟩

theorem exit_init_error {status : Int} (h : k.initproc = some p) :
    (FileCall.exit status).run p k = .error .initExiting := by
  have hrun : exit p status k = .error .initExiting := by
    rw [exit, Total.run_bind (a := k) (t := k) rfl, if_pos h]
    rfl
  change (exit p status k >>= fun r => (pure none : KernelM (Option Int)) r.2) = _
  rw [hrun]
  rfl

theorem fileStep_files (h : FilesOk pool k) (s : Nat × FileCall) :
    (∃ k', fileStep k s = .ok k' ∧ FilesOk pool k') ∨ fileStep k s = .error .initExiting := by
  obtain ⟨p, call⟩ := s
  rw [fileStep]
  by_cases hl : k.live p
  · rw [if_pos hl]
    dsimp only
    by_cases hinit : ∃ status, call = .exit status ∧ k.initproc = some p
    · obtain ⟨status, rfl, hp⟩ := hinit
      right
      rw [exit_init_error hp]
    · left
      have hcall : Total (call.run p) k (CallReturned pool k) := by
        apply call_files h hl
        intro status hcall hp
        exact hinit ⟨status, hcall, hp⟩
      obtain ⟨r, k', hrun, hr⟩ := hcall
      refine ⟨k', ?_, hr.1⟩
      rw [hrun]
  · left
    rw [if_neg hl]
    exact ⟨k, rfl, h⟩

/-! ## Whole runs -/

theorem fileRun_files {calls : List (Nat × FileCall)} (h : FilesOk pool k) :
    (∃ k', calls.foldlM fileStep k = .ok k' ∧ FilesOk pool k') ∨
      calls.foldlM fileStep k = .error .initExiting := by
  induction calls generalizing k with
  | nil => exact Or.inl ⟨k, rfl, h⟩
  | cons s calls ih =>
      cases fileStep_files h s with
      | inl hok =>
          obtain ⟨k₁, hstep, h₁⟩ := hok
          rw [List.foldlM_cons, hstep]
          exact ih h₁
      | inr herror =>
          right
          rw [List.foldlM_cons, herror]
          rfl

theorem FileBoot.closed_kernel (b : FileBoot) : b.kernel.closed = b.kernel := by
  have hproc : b.kernel.closed.proc = b.kernel.proc := by
    funext p
    change (b.kernel.proc p).closed = b.kernel.proc p
    rw [b.procs p]
    rfl
  have hfile : b.kernel.closed.file = b.kernel.file := funext fun f => (b.files f).symm
  have hpipe : b.kernel.closed.pipe = b.kernel.pipe := funext fun pi => (b.pipes pi).symm
  rw [Kernel.closed] at hproc hfile hpipe ⊢
  dsimp only at hproc hfile hpipe
  rw [hproc, hfile, hpipe]

theorem FileBoot.start_files (b : FileBoot) :
    Total (userinit b.root) b.kernel fun _ k => FilesOk ↑b.kernel.mem.freelist k := by
  have hholds : Holds b.kernel.fileTables b.kernel b.kernel := ⟨b.closed_kernel, rfl⟩
  have hspec : Total (userinit b.root) b.kernel fun _ k₀ => Inv ↑b.kernel.mem.freelist k₀ :=
    (userinit_spec b.toBoot).mono fun _ _ h => h.1
  obtain ⟨_, k, hrun, _, k₀, hinv, -, hholds'⟩ := (hholds.mirrors_userinit b.root).total hspec
  refine ⟨(), k, hrun, ?_⟩
  rw [← hholds'.closed] at hinv
  have hofile : ∀ p fd, k.fileTables.ofile p fd = none := by
    intro p fd
    rw [hholds'.files]
    change (b.kernel.proc p).ofile fd = none
    rw [b.procs p]
  have hfile : ∀ f, k.file f = {} := by
    intro f
    rw [← b.files f]
    exact congrArg (fun v => v.file f) hholds'.files
  have hpipe : ∀ pi writable, (k.pipe pi).isOpen writable = false := by
    intro pi writable
    have hsame : k.pipe pi = b.kernel.pipe pi := congrArg (fun v => v.pipe pi) hholds'.files
    rw [hsame, b.pipes pi]
    cases writable <;> rfl
  have hnoend : ∀ f pi writable, ¬ k.fileTables.IsEnd f pi writable := by
    intro f pi writable hend
    have hpos := hend.1
    change 0 < (k.file f).ref at hpos
    rw [hfile f] at hpos
    exact absurd hpos (Nat.lt_irrefl 0)
  constructor
  case refs =>
      constructor
      case refs =>
          intro f
          change (k.file f).ref = k.fileTables.holders f + 0
          have hzero : k.fileTables.holders f = 0 := by
            apply Finset.sum_eq_zero
            intro p _
            apply List.countP_eq_zero.mpr
            intro fd _
            rw [hofile p fd]
            exact Bool.false_ne_true
          rw [hzero, hfile f]
      case small => exact fun f hf => absurd hf (Multiset.notMem_zero f)
      case inside =>
          intro p fd f hopen
          change k.fileTables.ofile p fd = some f at hopen
          rw [hofile p fd] at hopen
          cases hopen
      case free =>
          intro f _
          change (k.file f).type = .none
          rw [hfile f]
  case ends =>
      constructor
      case ends =>
          intro pi writable
          change (k.pipe pi).isOpen writable = true ↔ ∃ f, k.fileTables.IsEnd f pi writable
          rw [hpipe pi writable]
          exact iff_of_false Bool.false_ne_true fun ⟨f, hend⟩ => hnoend f pi writable hend
      case unique => exact fun f _ pi writable hend => absurd hend (hnoend f pi writable)
  case pages =>
      refine ⟨Multiset.coe_nodup.mpr b.nodup, b.frames, _, ∅, hinv, add_zero _, ?_⟩
      intro pi
      apply iff_of_false (Finset.notMem_empty pi)
      rintro ⟨writable, hopen⟩
      rw [hpipe pi writable] at hopen
      cases hopen
  case idle => exact fun p _ fd => hofile p fd

/-- The counts, pipes and pages between two calls; `pool` are the pages that were free
before `userinit`. -/
structure OpenFiles (pool : Multiset Nat) (k : Kernel) : Prop where
  refs : ∀ f, (k.file f).ref = k.fileTables.holders f
  inside : ∀ p fd f, (k.proc p).ofile fd = some f → p < nproc ∧ fd < nofile ∧ f < nfile
  /-- `writeopen`, or `readopen` where `writable` is false -/
  ends : ∀ pi writable, (k.pipe pi).isOpen writable = true ↔
    ∃ f < nfile, k.fileTables.IsEnd f pi writable
  oneEnd : ∀ f g pi writable, k.fileTables.IsEnd f pi writable →
    k.fileTables.IsEnd g pi writable → f = g
  /-- the page of an open pipe is the pipe's alone -/
  held : ∀ pi writable, (k.pipe pi).isOpen writable = true → pi ∈ pool ∧
    pi ∉ k.mem.freelist ∧
    ∀ p < nproc, (k.proc p).state ≠ .unused → ¬ (k.proc p).Reaches k.mem pi
  /-- a page in use is some process's, or that of a pipe that is open -/
  noLeak : ∀ f ∈ pool, f ∉ k.mem.freelist →
    (∃ p < nproc, (k.proc p).state ≠ .unused ∧ (k.proc p).Reaches k.mem f) ∨
      ∃ writable, (k.pipe f).isOpen writable = true
  free : ∀ f ∈ k.mem.freelist, ∀ p < nproc, (k.proc p).state ≠ .unused →
    ¬ (k.proc p).Reaches k.mem f
  refreed : k.mem.refreed = []

/-- A call that returns -1 leaves every descriptor and every count as it was. -/
def FailsCleanly (k : Kernel) : Prop :=
  ∀ p (call : FileCall) k', k.live p → call.run p k = .ok (some (-1), k') →
    (∀ q, (k'.proc q).ofile = (k.proc q).ofile) ∧ ∀ f, (k'.file f).ref = (k.file f).ref

theorem FilesOk.ref_eq (h : FilesOk pool k) (f : Nat) :
    (k.file f).ref = k.fileTables.holders f := by
  have hrefs := h.refs.refs f
  rw [Multiset.count_zero, add_zero] at hrefs
  exact hrefs

theorem FilesOk.end_lt {f pi : Nat} {writable : Bool} (h : FilesOk pool k)
    (hend : k.fileTables.IsEnd f pi writable) : f < nfile := by
  have hpos : 0 < (k.file f).ref := hend.1
  rw [h.ref_eq f] at hpos
  obtain ⟨p, -, hcount⟩ := Finset.exists_ne_zero_of_sum_ne_zero hpos.ne'
  obtain ⟨fd, -, hopen⟩ := List.countP_pos_iff.mp (Nat.pos_of_ne_zero hcount)
  exact (h.refs.inside p fd f (of_decide_eq_true hopen)).2.2

theorem FilesOk.openFiles (h : FilesOk pool k) : OpenFiles pool k := by
  obtain ⟨X, P, hinv, hsum, hopen⟩ := h.pages.parts
  have hsafe := hinv.framesSafe
  have hnd := h.pages.nodup
  rw [← hsum] at hnd
  have hdisjoint := (Multiset.nodup_add.mp hnd).2.2
  constructor
  case refs => exact h.ref_eq
  case inside => exact h.refs.inside
  case ends =>
      intro pi writable
      constructor
      · intro hpi
        obtain ⟨f, hend⟩ := (h.ends.ends pi writable).mp hpi
        exact ⟨f, h.end_lt hend, hend⟩
      · rintro ⟨f, -, hend⟩
        exact (h.ends.ends pi writable).mpr ⟨f, hend⟩
  case oneEnd => exact h.ends.unique
  case held =>
      intro pi writable hpi
      have hP : pi ∈ P.val := (hopen pi).mpr ⟨writable, hpi⟩
      have hpool : pi ∈ pool := by
        rw [← hsum]
        exact Multiset.mem_add.mpr (Or.inr hP)
      have hX : pi ∉ X := fun hX => Multiset.disjoint_left.mp hdisjoint hX hP
      refine ⟨hpool, ?_, ?_⟩
      · intro hfree
        apply hX
        rw [← hinv.frames]
        exact Multiset.mem_add.mpr (Or.inl (Multiset.mem_coe.mpr hfree))
      · intro p hp hs hreach
        cases hinv.reaches_share hp hs hreach with
        | inl hshare =>
            apply hX
            exact Multiset.mem_of_le ((Multiset.le_add_left _ _).trans (hinv.share_le hp)) hshare
        | inr htramp =>
            apply not_frame_trampoline
            rw [← htramp]
            exact h.pages.valid pi hpool
  case noLeak =>
      intro f hf hfree
      rw [← hsum, Multiset.mem_add] at hf
      cases hf with
      | inl hX => exact Or.inl (hsafe.noLeak f hX hfree)
      | inr hP => exact Or.inr ((hopen f).mp hP)
  case free => exact hsafe.free
  case refreed => exact hsafe.refreed

theorem FilesOk.failsCleanly (h : FilesOk pool k) : FailsCleanly k := by
  intro p call k' hl hrun
  have hinit : ∀ status, call = .exit status → k.initproc ≠ some p := by
    rintro status rfl hp
    rw [exit_init_error hp] at hrun
    cases hrun
  obtain ⟨r, k'', hrun', hok, hsame⟩ := call_files h hl hinit
  rw [hrun] at hrun'
  injection hrun' with hpair
  injection hpair with hr hk
  subst hk
  have hofile := hsame hr.symm
  refine ⟨fun q => congrFun hofile q, ?_⟩
  intro f
  rw [hok.ref_eq f, h.ref_eq f, FileTables.holders, FileTables.holders]
  simp only [FileTables.count, hofile]

/-- Every run comes through states whose open files are accounted for, and stops at
most because `init` exits. -/
theorem FileBoot.run_openFiles (b : FileBoot) (calls : List (Nat × FileCall)) :
    (∃ k, b.run calls = .ok k ∧ OpenFiles ↑b.kernel.mem.freelist k ∧ FailsCleanly k) ∨
      b.run calls = .error .initExiting := by
  obtain ⟨k, hstart, h⟩ := after_of_total b.start_files
  have hrun : b.run calls = calls.foldlM fileStep k := by
    rw [FileBoot.run, hstart]
    rfl
  rw [hrun]
  cases fileRun_files h with
  | inl hok =>
      obtain ⟨k', hfold, h'⟩ := hok
      exact Or.inl ⟨k', hfold, h'.openFiles, h'.failsCleanly⟩
  | inr herror => exact Or.inr herror

end

attribute [local instance] builtImage in
def builtFileBoot : FileBoot where
  toBoot := builtBoot
  files := fun _ => rfl
  pipes := fun _ => rfl

attribute [local instance] builtImage in
theorem run_openFiles_pipe_fork_close :
    (∃ k, builtFileBoot.run [(0, .pipe 0), (0, .fork), (1, .close 0), (1, .exit 0)] = .ok k ∧
        OpenFiles ↑builtFileBoot.kernel.mem.freelist k ∧ FailsCleanly k) ∨
      builtFileBoot.run [(0, .pipe 0), (0, .fork), (1, .close 0), (1, .exit 0)] =
        .error .initExiting :=
  builtFileBoot.run_openFiles [(0, .pipe 0), (0, .fork), (1, .close 0), (1, .exit 0)]

end SyscallSched.Xv6
