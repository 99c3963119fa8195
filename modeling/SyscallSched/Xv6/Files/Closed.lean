import SyscallSched.Foundation.Total
import SyscallSched.Xv6.Child
import SyscallSched.Xv6.Files.Model

/-!
# Kernels with open files

`fork`, `exit` and `wait` handle pages in a kernel with open files as they do in the
same kernel with every descriptor closed, for which it is known that they keep the
pages apart and do not panic.
-/

namespace SyscallSched.Xv6

open SyscallSched.Foundation

def Proc.closed (q : Proc) : Proc := { q with ofile := fun _ => none }

def Kernel.closed (k : Kernel) : Kernel :=
  { k with proc := fun p => (k.proc p).closed, file := fun _ => {}, pipe := fun _ => {} }

structure FileTables where
  ofile : Nat → Nat → Option Nat
  file : Nat → File
  pipe : Nat → Pipe

def Kernel.fileTables (k : Kernel) : FileTables where
  ofile := fun p => (k.proc p).ofile
  file := k.file
  pipe := k.pipe

structure Holds (v : FileTables) (k k₀ : Kernel) : Prop where
  closed : k.closed = k₀
  files : k.fileTables = v

/-- The values are the same and so are the open files. -/
def Alike {α : Type} (v : FileTables) (a : α) (k : Kernel) (a₀ : α) (k₀ : Kernel) : Prop :=
  a₀ = a ∧ Holds v k k₀

section

variable {α : Type} {v : FileTables} {k k₀ : Kernel} {p : Nat}

theorem Holds.proc (h : Holds v k k₀) (p : Nat) : k₀.proc p = (k.proc p).closed := by
  rw [← h.closed]
  rfl

theorem Holds.mem (h : Holds v k k₀) : k₀.mem = k.mem := by
  rw [← h.closed]
  rfl

theorem Holds.mirrors_inMem (h : Holds v k k₀) (x : MemM α) :
    Mirrors (inMem x) k (inMem x) k₀ (Alike v) := by
  intro a₀ k₀' hrun
  rw [inMem, h.mem] at hrun
  cases hx : x k.mem with
  | error e =>
      rw [hx] at hrun
      cases hrun
  | ok r =>
      rw [hx] at hrun
      injection hrun with hpair
      injection hpair with ha hk
      refine ⟨r.1, { k with mem := r.2 }, ?_, ha.symm, ?_⟩
      · rw [inMem, hx]
      · rw [← hk, ← h.closed]
        exact ⟨rfl, h.files⟩

theorem Holds.mapProc {f f₀ : Nat → Proc → Proc} (h : Holds v k k₀)
    (hf : ∀ i q, (f i q).closed = f₀ i q.closed ∧ (f i q).ofile = q.ofile) :
    Holds v (k.mapProc f) (k₀.mapProc f₀) := by
  constructor
  case closed =>
      have hproc : (k.mapProc f).closed.proc = (k.closed.mapProc f₀).proc :=
        funext fun i => (hf i (k.proc i)).1
      rw [← h.closed, Kernel.closed, Kernel.mapProc, Kernel.mk.injEq]
      exact ⟨rfl, hproc, rfl, rfl, rfl, rfl, rfl, rfl⟩
  case files =>
      have hofile : (k.mapProc f).fileTables.ofile = k.fileTables.ofile :=
        funext fun i => (hf i (k.proc i)).2
      rw [← h.files, Kernel.fileTables, FileTables.mk.injEq]
      exact ⟨hofile, rfl, rfl⟩

theorem Holds.mirrors_setProc {f f₀ : Proc → Proc} (h : Holds v k k₀)
    (hf : ∀ q, (f q).closed = f₀ q.closed ∧ (f q).ofile = q.ofile) :
    Mirrors (setProc p f) k (setProc p f₀) k₀ (Alike v) := by
  apply Mirrors.of_eq (a := ()) (b := ()) rfl rfl
  refine ⟨rfl, h.mapProc ?_⟩
  intro i q
  by_cases hi : i = p
  · rw [if_pos hi, if_pos hi]
    exact hf q
  · rw [if_neg hi, if_neg hi]
    exact ⟨rfl, rfl⟩

theorem Holds.unusedSlot (h : Holds v k k₀) : k₀.unusedSlot = k.unusedSlot := by
  rw [← h.closed]
  rfl

theorem Holds.bind_get {β : Type} {f f₀ : Kernel → KernelM β}
    {Q : β → Kernel → β → Kernel → Prop} (_ : Holds v k k₀)
    (hf : Mirrors (f k) k (f₀ k₀) k₀ Q) : Mirrors (get >>= f) k (get >>= f₀) k₀ Q :=
  Mirrors.bind_eq (a := k) (b := k₀) rfl rfl hf

theorem Holds.bind_getProc {β : Type} {f f₀ : Proc → KernelM β}
    {Q : β → Kernel → β → Kernel → Prop} (h : Holds v k k₀) (p : Nat)
    (hf : Mirrors (f (k.proc p)) k (f₀ (k.proc p).closed) k₀ Q) :
    Mirrors (getProc p >>= f) k (getProc p >>= f₀) k₀ Q := by
  apply Mirrors.bind_eq (a := k.proc p) (b := k₀.proc p) rfl rfl
  rw [h.proc p]
  exact hf

theorem Holds.mirrors_modify {g g₀ : Kernel → Kernel} (h : Holds v (g k) (g₀ k₀)) :
    Mirrors (modify g : KernelM Unit) k (modify g₀ : KernelM Unit) k₀ (Alike v) :=
  Mirrors.of_eq (a := ()) (b := ()) rfl rfl ⟨rfl, h⟩

theorem Holds.mirrors_allocpid (h : Holds v k k₀) :
    Mirrors allocpid k allocpid k₀ (Alike v) := by
  have hrun : allocpid k = .ok (k.nextpid, { k with nextpid := k.nextpid + 1 }) := rfl
  have hrun₀ : allocpid k₀ = .ok (k₀.nextpid, { k₀ with nextpid := k₀.nextpid + 1 }) := rfl
  apply Mirrors.of_eq hrun hrun₀
  rw [← h.closed]
  exact ⟨rfl, rfl, h.files⟩

theorem Holds.mirrors_wakeup (h : Holds v k k₀) (me : Nat) (chan : Option Chan) :
    Mirrors (wakeup me chan) k (wakeup me chan) k₀ (Alike v) := by
  apply Holds.mirrors_modify
  apply h.mapProc
  intro i q
  by_cases hasleep : i ≠ me ∧ q.state = .sleeping ∧ q.chan = chan
  · have hasleep₀ : i ≠ me ∧ q.closed.state = .sleeping ∧ q.closed.chan = chan := hasleep
    rw [if_pos hasleep, if_pos hasleep₀]
    exact ⟨rfl, rfl⟩
  · have hasleep₀ : ¬ (i ≠ me ∧ q.closed.state = .sleeping ∧ q.closed.chan = chan) := hasleep
    rw [if_neg hasleep, if_neg hasleep₀]
    exact ⟨rfl, rfl⟩

theorem Holds.mirrors_beginOp (h : Holds v k k₀) : Mirrors beginOp k beginOp k₀ (Alike v) := by
  apply Holds.mirrors_modify
  rw [← h.closed]
  exact ⟨rfl, h.files⟩

theorem Holds.mirrors_endOp (h : Holds v k k₀) : Mirrors endOp k endOp k₀ (Alike v) := by
  apply Holds.mirrors_modify
  rw [← h.closed]
  exact ⟨rfl, h.files⟩

theorem Holds.mirrors_iput (h : Holds v k k₀) (ip : Nat) :
    Mirrors (iput ip) k (iput ip) k₀ (Alike v) := by
  apply Holds.mirrors_modify
  rw [← h.closed]
  exact ⟨rfl, h.files⟩

theorem Holds.mirrors_idup (h : Holds v k k₀) (ip : Nat) :
    Mirrors (idup ip) k (idup ip) k₀ (Alike v) := by
  have hrun : ∀ k : Kernel, idup ip k = .ok (ip, { k with
      inodeRef := fun i => if i = ip then k.inodeRef i + 1 else k.inodeRef i }) :=
    fun _ => rfl
  apply Mirrors.of_eq (hrun k) (hrun k₀)
  rw [← h.closed]
  exact ⟨rfl, rfl, h.files⟩

theorem Holds.mirrors_dupCwd (h : Holds v k k₀) (cwd : Option Nat) :
    Mirrors (dupCwd cwd) k (dupCwd cwd) k₀ (Alike v) := by
  cases cwd with
  | none =>
      intro _ _ hrun
      cases hrun
  | some ip =>
      apply Mirrors.bind (h.mirrors_idup ip)
      rintro _ k₁ ip _ ⟨rfl, h₁⟩
      exact Mirrors.pure ⟨rfl, h₁⟩

end

/-! ## Creating and freeing a process -/

section

variable [Image] {v : FileTables} {k k₀ : Kernel} {p np : Nat}

theorem Holds.mirrors_freeproc (h : Holds v k k₀) (p : Nat) :
    Mirrors (freeproc p) k (freeproc p) k₀ (Alike v) := by
  rw [freeproc]
  apply h.bind_getProc
  apply Mirrors.bind (h.mirrors_inMem _)
  rintro _ k₁ _ _ ⟨-, h₁⟩
  apply Mirrors.bind (h₁.mirrors_inMem _)
  rintro _ k₂ _ _ ⟨-, h₂⟩
  exact h₂.mirrors_setProc fun q => ⟨rfl, rfl⟩

theorem Holds.mirrors_allocproc (h : Holds v k k₀) :
    Mirrors allocproc k allocproc k₀ fun r k' r₀ k₀' =>
      Alike v r k' r₀ k₀' ∧ ∀ np, r = some np → k.unusedSlot = some np := by
  rw [allocproc]
  apply h.bind_get
  rw [h.unusedSlot]
  cases hslot : k.unusedSlot with
  | none => exact Mirrors.pure ⟨⟨rfl, h⟩, fun _ hnp => absurd hnp (Option.some_ne_none _).symm⟩
  | some np =>
      apply Mirrors.bind h.mirrors_allocpid
      rintro _ k₁ pid _ ⟨rfl, h₁⟩
      refine Mirrors.bind (h₁.mirrors_setProc fun q => ⟨rfl, rfl⟩) ?_
      rintro _ k₂ _ _ ⟨-, h₂⟩
      apply Mirrors.bind (h₂.mirrors_inMem _)
      rintro _ k₃ page _ ⟨rfl, h₃⟩
      cases page with
      | none =>
          refine Mirrors.bind (h₃.mirrors_setProc fun q => ⟨rfl, rfl⟩) ?_
          rintro _ k₄ _ _ ⟨-, h₄⟩
          apply Mirrors.bind (h₄.mirrors_freeproc np)
          rintro _ k₅ _ _ ⟨-, h₅⟩
          exact Mirrors.pure ⟨⟨rfl, h₅⟩, fun _ hnp => absurd hnp (Option.some_ne_none _).symm⟩
      | some trapframe =>
          refine Mirrors.bind (h₃.mirrors_setProc fun q => ⟨rfl, rfl⟩) ?_
          rintro _ k₄ _ _ ⟨-, h₄⟩
          apply Mirrors.bind (h₄.mirrors_inMem _)
          rintro _ k₅ table _ ⟨rfl, h₅⟩
          cases table with
          | none =>
              refine Mirrors.bind (h₅.mirrors_setProc fun q => ⟨rfl, rfl⟩) ?_
              rintro _ k₆ _ _ ⟨-, h₆⟩
              apply Mirrors.bind (h₆.mirrors_freeproc np)
              rintro _ k₇ _ _ ⟨-, h₇⟩
              exact Mirrors.pure ⟨⟨rfl, h₇⟩, fun _ hnp => absurd hnp (Option.some_ne_none _).symm⟩
          | some pagetable =>
              refine Mirrors.bind (h₅.mirrors_setProc fun q => ⟨rfl, rfl⟩) ?_
              rintro _ k₆ _ _ ⟨-, h₆⟩
              exact Mirrors.pure ⟨⟨rfl, h₆⟩, fun _ hnp => hnp⟩

end

/-! ## Duplicated descriptors -/

def FileTables.count (v : FileTables) (p n f : Nat) : Nat :=
  (List.range n).countP fun fd => v.ofile p fd = some f

def FileTables.dup (v : FileTables) (p np n : Nat) : FileTables where
  ofile := Function.update v.ofile np fun fd =>
    if fd < n ∧ v.ofile p fd ≠ none then v.ofile p fd else v.ofile np fd
  file := fun f => { v.file f with ref := (v.file f).ref + v.count p n f }
  pipe := v.pipe

section

variable {v : FileTables} {k k₀ : Kernel} {p np n f : Nat}

theorem count_succ (v : FileTables) (p n f : Nat) : v.count p (n + 1) f =
    v.count p n f + if v.ofile p n = some f then 1 else 0 := by
  rw [FileTables.count, List.range_succ, List.countP_append, List.countP_singleton]
  simp only [decide_eq_true_eq, FileTables.count]

theorem dup_zero (v : FileTables) (p np : Nat) : v.dup p np 0 = v := by
  have hofile : (v.dup p np 0).ofile = v.ofile := by
    apply Function.update_eq_self_iff.mpr
    funext fd
    exact if_neg fun h => Nat.not_lt_zero fd h.1
  have hfile : (v.dup p np 0).file = v.file := rfl
  rw [FileTables.dup] at hofile hfile ⊢
  dsimp only at hofile hfile
  rw [hofile, hfile]

theorem dup_skip (hnone : v.ofile p n = none) : v.dup p np (n + 1) = v.dup p np n := by
  have hlt : ∀ fd, (fd < n + 1 ∧ v.ofile p fd ≠ none) = (fd < n ∧ v.ofile p fd ≠ none) := by
    intro fd
    apply propext
    constructor
    · rintro ⟨hfd, hopen⟩
      refine ⟨lt_of_le_of_ne (Nat.le_of_lt_succ hfd) ?_, hopen⟩
      rintro rfl
      exact hopen hnone
    · exact fun h => ⟨Nat.lt_succ_of_lt h.1, h.2⟩
  have hcount : ∀ f, v.count p (n + 1) f = v.count p n f := by
    intro f
    rw [count_succ, hnone]
    rfl
  simp only [FileTables.dup, hlt, hcount]

theorem dup_ofile_self : (v.dup p np n).ofile np = fun fd =>
    if fd < n ∧ v.ofile p fd ≠ none then v.ofile p fd else v.ofile np fd :=
  Function.update_self _ _ _

theorem dup_ofile_ne {q : Nat} (hq : q ≠ np) : (v.dup p np n).ofile q = v.ofile q :=
  Function.update_of_ne hq _ _

theorem fileTables_dupInto (hv : k.fileTables = v.dup p np n) (hopen : v.ofile p n = some f) :
    (k.dupInto np n f).fileTables = v.dup p np (n + 1) := by
  have hproc : ∀ q, (k.proc q).ofile = (v.dup p np n).ofile q := by
    intro q
    rw [← hv]
    rfl
  have hfile : ∀ g, k.file g = (v.dup p np n).file g := by
    intro g
    rw [← hv]
    rfl
  have hofile' : (k.dupInto np n f).fileTables.ofile = (v.dup p np (n + 1)).ofile := by
    funext q
    by_cases hq : q = np
    · subst hq
      change ((k.dupInto q n f).proc q).ofile = _
      rw [dupInto_proc_self, hproc, dup_ofile_self, dup_ofile_self]
      funext fd
      by_cases hfd : fd = n
      · subst hfd
        simp [hopen]
      · have hlt : fd < n + 1 ↔ fd < n := by omega
        simp only [hfd, if_false, hlt]
    · change ((k.dupInto np n f).proc q).ofile = _
      rw [dupInto_proc_ne k hq, hproc, dup_ofile_ne hq, dup_ofile_ne hq]
  have hfile' : (k.dupInto np n f).fileTables.file = (v.dup p np (n + 1)).file := by
    funext g
    change (if g = f then { k.file g with ref := (k.file g).ref + 1 } else k.file g) = _
    rw [hfile g]
    simp only [FileTables.dup, count_succ, hopen, Option.some.injEq]
    by_cases hg : g = f
    · simp [hg, Nat.add_assoc]
    · simp [hg, Ne.symm hg]
  have hpipe : k.pipe = v.pipe := congrArg FileTables.pipe hv
  have hpipe' : (k.dupInto np n f).fileTables.pipe = v.pipe := hpipe
  calc (k.dupInto np n f).fileTables =
        ⟨(k.dupInto np n f).fileTables.ofile, (k.dupInto np n f).fileTables.file,
          (k.dupInto np n f).fileTables.pipe⟩ := rfl
    _ = v.dup p np (n + 1) := by rw [hofile', hfile', hpipe']; rfl

theorem closed_dupInto : (k.dupInto np n f).closed = k.closed := by
  have hproc : (k.dupInto np n f).closed.proc = k.closed.proc := by
    funext q
    change ((k.dupInto np n f).proc q).closed = (k.proc q).closed
    by_cases hq : q = np
    · subst hq
      have hself : (k.dupInto q n f).proc q = { k.proc q with
        ofile := fun j => if j = n then some f else (k.proc q).ofile j } := if_pos rfl
      rw [hself]
      rfl
    · rw [dupInto_proc_ne k hq]
  rw [Kernel.closed, Kernel.closed, Kernel.mk.injEq]
  exact ⟨rfl, hproc, rfl, rfl, rfl, rfl, rfl, rfl⟩

def FileTables.Referred (v : FileTables) (p : Nat) : Prop :=
  ∀ fd < nofile, ∀ f, v.ofile p fd = some f → 1 ≤ (v.file f).ref

theorem Holds.mirrors_dupFiles (h : Holds v k k₀) (hp : p ≠ np) (hrefs : v.Referred p) :
    Mirrors (dupFiles p np) k (dupFiles p np) k₀ fun _ k' _ k₀' =>
      Holds (v.dup p np nofile) k' k₀' := by
  have hnone : ∀ fd, (k₀.proc p).ofile fd = none := by
    intro fd
    rw [h.proc p]
    rfl
  have hrun : Total (dupFiles p np) k fun _ k' => Holds (v.dup p np nofile) k' k₀ := by
    apply Total.forRange (I := fun n k' => Holds (v.dup p np n) k' k₀)
    · rw [dup_zero]
      exact h
    · intro i t hi ht
      have hofile : (t.proc p).ofile = v.ofile p := by
        rw [← dup_ofile_ne hp, ← ht.files]
        rfl
      apply Total.bind_eq (a := t.proc p) (t := t) rfl
      rw [hofile]
      cases hopen : v.ofile p i with
      | none =>
          apply Total.pure
          rw [dup_skip hopen]
          exact ht
      | some f =>
          have href : ¬ (t.file f).ref < 1 := by
            have hfile : t.file f = (v.dup p np i).file f := by
              rw [← ht.files]
              rfl
            have hone := hrefs i hi f hopen
            rw [hfile, FileTables.dup]
            dsimp only
            omega
          have hdup : filedup f t = .ok (f, { t with file := fun g =>
              if g = f then { t.file g with ref := (t.file g).ref + 1 } else t.file g }) := by
            rw [filedup, Total.run_bind (a := t) (t := t) rfl, if_neg href]
            rfl
          apply Total.bind_eq hdup
          apply Total.of_eq (a := ()) (t := t.dupInto np i f) rfl
          exact ⟨closed_dupInto.trans ht.closed, fileTables_dupInto ht.files hopen⟩
  have hidle : Total (dupFiles p np) k₀ fun _ k' => k' = k₀ := dupFiles_none hnone
  obtain ⟨a, k', hk, hholds⟩ := hrun
  obtain ⟨a₀, k₀', hk₀, hsame⟩ := hidle
  rw [hsame] at hk₀
  exact Mirrors.of_eq hk hk₀ hholds

end

/-! ## The calls -/

section

variable [Image] {v : FileTables} {k k₀ : Kernel} {p : Nat}

theorem Holds.mirrors_fork (h : Holds v k k₀) (hp : (k.proc p).state ≠ .unused)
    (hrefs : v.Referred p) :
    Mirrors (fork p) k (fork p) k₀ fun pid k' pid₀ k₀' => pid₀ = pid ∧
      ((pid = -1 ∧ Holds v k' k₀') ∨
        (pid ≠ -1 ∧ ∃ np, k.unusedSlot = some np ∧ Holds (v.dup p np nofile) k' k₀')) := by
  rw [fork]
  apply Mirrors.bind h.mirrors_allocproc
  rintro _ k₁ found _ ⟨⟨rfl, h₁⟩, hslot⟩
  cases found with
  | none => exact Mirrors.pure ⟨rfl, Or.inl ⟨rfl, h₁⟩⟩
  | some np =>
      have hnp := hslot np rfl
      have hne : p ≠ np := by
        rintro rfl
        exact hp (unusedSlot_some hnp).2
      apply h₁.bind_getProc
      apply h₁.bind_getProc
      apply Mirrors.bind (h₁.mirrors_inMem _)
      rintro _ k₂ copied _ ⟨rfl, h₂⟩
      cases copied with
      | false =>
          rw [if_neg Bool.false_ne_true, if_neg Bool.false_ne_true]
          apply Mirrors.bind (h₂.mirrors_freeproc np)
          rintro _ k₃ _ _ ⟨-, h₃⟩
          exact Mirrors.pure ⟨rfl, Or.inl ⟨rfl, h₃⟩⟩
      | true =>
          rw [if_pos rfl, if_pos rfl]
          refine Mirrors.bind (h₂.mirrors_setProc fun q => ⟨rfl, rfl⟩) ?_
          rintro _ k₃ _ _ ⟨-, h₃⟩
          apply Mirrors.bind (h₃.mirrors_inMem _)
          rintro _ k₄ _ _ ⟨-, h₄⟩
          apply Mirrors.bind (h₄.mirrors_inMem _)
          rintro _ k₅ _ _ ⟨-, h₅⟩
          apply Mirrors.bind (h₅.mirrors_dupFiles hne hrefs)
          rintro _ k₆ _ _ h₆
          apply Mirrors.bind (h₆.mirrors_dupCwd _)
          rintro _ k₇ cwd _ ⟨rfl, h₇⟩
          refine Mirrors.bind (h₇.mirrors_setProc fun q => ⟨rfl, rfl⟩) ?_
          rintro _ k₈ _ _ ⟨-, h₈⟩
          apply Mirrors.pure
          refine ⟨rfl, Or.inr ⟨?_, np, hnp, h₈⟩⟩
          exact fun hpid => absurd hpid (by omega)

omit [Image] in
theorem Holds.mirrors_reparent (h : Holds v k k₀) (p : Nat) :
    Mirrors (reparent p) k (reparent p) k₀ fun _ k' _ k₀' => Holds v k' k₀' := by
  have hinit : k₀.initproc = k.initproc := by
    rw [← h.closed]
    rfl
  rw [reparent]
  apply h.bind_get
  rw [hinit]
  apply Mirrors.forRange nproc h
  intro i t t₀ ht
  apply ht.bind_getProc
  by_cases hchild : (t.proc i).parent = some p
  · have hchild₀ : (t.proc i).closed.parent = some p := hchild
    rw [if_pos hchild, if_pos hchild₀]
    refine Mirrors.bind (ht.mirrors_setProc fun q => ⟨rfl, rfl⟩) ?_
    rintro _ t₁ _ _ ⟨-, ht₁⟩
    intro _ t₂ hrun
    obtain ⟨a, t', hwake, -, ht'⟩ := ht₁.mirrors_wakeup p (k.initproc.map .proc) _ _ hrun
    exact ⟨a, t', hwake, ht'⟩
  · have hchild₀ : ¬ (t.proc i).closed.parent = some p := hchild
    rw [if_neg hchild, if_neg hchild₀]
    exact Mirrors.pure ht

theorem Holds.mirrors_exit {status : Int} (h : Holds v k k₀)
    (hnone : ∀ fd, v.ofile p fd = none) :
    Mirrors (exit p status) k (exit p status) k₀ (Alike v) := by
  have hfiles : ∀ fd, (k.proc p).ofile fd = none := by
    intro fd
    rw [← hnone fd, ← h.files]
    rfl
  have hfiles₀ : ∀ fd, (k₀.proc p).ofile fd = none := by
    intro fd
    rw [h.proc p]
    rfl
  have hinit : k₀.initproc = k.initproc := by
    rw [← h.closed]
    rfl
  rw [exit]
  apply h.bind_get
  rw [hinit]
  by_cases hp : k.initproc = some p
  · rw [if_pos hp]
    intro _ _ hrun
    cases hrun
  rw [if_neg hp]
  obtain ⟨_, k₁, hclose, hsame⟩ := closeFiles_none hfiles
  obtain ⟨_, k₁₀, hclose₀, hsame₀⟩ := closeFiles_none hfiles₀
  rw [hsame] at hclose
  rw [hsame₀] at hclose₀
  apply Mirrors.bind_eq hclose hclose₀
  apply h.bind_getProc
  cases hcwd : (k.proc p).cwd with
  | none =>
      have hcwd₀ : (k.proc p).closed.cwd = none := hcwd
      rw [hcwd₀]
      intro _ _ hrun
      cases hrun
  | some ip =>
      have hcwd₀ : (k.proc p).closed.cwd = some ip := hcwd
      rw [hcwd₀]
      apply Mirrors.bind h.mirrors_beginOp
      rintro _ k₁ _ _ ⟨-, h₁⟩
      apply Mirrors.bind (h₁.mirrors_iput ip)
      rintro _ k₂ _ _ ⟨-, h₂⟩
      apply Mirrors.bind h₂.mirrors_endOp
      rintro _ k₃ _ _ ⟨-, h₃⟩
      refine Mirrors.bind (h₃.mirrors_setProc fun q => ⟨rfl, rfl⟩) ?_
      rintro _ k₄ _ _ ⟨-, h₄⟩
      apply Mirrors.bind (h₄.mirrors_reparent p)
      rintro _ k₅ _ _ h₅
      apply h₅.bind_getProc
      apply Mirrors.bind (h₅.mirrors_wakeup p _)
      rintro _ k₆ _ _ ⟨-, h₆⟩
      exact h₆.mirrors_setProc fun q => ⟨rfl, rfl⟩

omit [Image] in
theorem Holds.mirrors_reportStatus (h : Holds v k k₀) (pagetable addr : Nat) (xstate : Int) :
    Mirrors (reportStatus pagetable addr xstate) k (reportStatus pagetable addr xstate) k₀
      (Alike v) := by
  rw [reportStatus]
  by_cases haddr : addr = 0
  · rw [if_pos haddr]
    exact Mirrors.pure ⟨rfl, h⟩
  · rw [if_neg haddr]
    exact h.mirrors_inMem _

theorem Holds.mirrors_wait {addr : Nat} (h : Holds v k k₀) :
    Mirrors (wait p addr) k (wait p addr) k₀ (Alike v) := by
  rw [wait]
  refine Mirrors.bind (h.mirrors_setProc fun q => ⟨rfl, rfl⟩) ?_
  rintro _ k₁ _ k₁₀ ⟨-, h₁⟩
  obtain rfl := h₁.closed
  apply h₁.bind_get
  have hfound : (List.range nproc).find? (fun pp =>
      (k₁.closed.proc pp).parent = some p ∧ (k₁.closed.proc pp).state = .zombie) =
      (List.range nproc).find? fun pp =>
        (k₁.proc pp).parent = some p ∧ (k₁.proc pp).state = .zombie := rfl
  rw [hfound]
  split
  case h_1 pp _ =>
      apply Mirrors.bind (h₁.mirrors_reportStatus _ addr _)
      rintro _ k₂ copied _ ⟨rfl, h₂⟩
      cases copied with
      | false => exact Mirrors.pure ⟨rfl, h₂⟩
      | true =>
          apply Mirrors.bind (h₂.mirrors_freeproc pp)
          rintro _ k₃ _ _ ⟨-, h₃⟩
          exact Mirrors.pure ⟨rfl, h₃⟩
  case h_2 =>
      by_cases hnone : (List.range nproc).all (fun pp => (k₁.proc pp).parent ≠ some p) ∨
          (k₁.proc p).killed
      · have hnone₀ : (List.range nproc).all
            (fun pp => (k₁.closed.proc pp).parent ≠ some p) ∨ (k₁.closed.proc p).killed := hnone
        rw [if_pos hnone, if_pos hnone₀]
        exact Mirrors.pure ⟨rfl, h₁⟩
      · have hnone₀ : ¬ ((List.range nproc).all
            (fun pp => (k₁.closed.proc pp).parent ≠ some p) ∨ (k₁.closed.proc p).killed) := hnone
        rw [if_neg hnone, if_neg hnone₀]
        refine Mirrors.bind (h₁.mirrors_setProc fun q => ⟨rfl, rfl⟩) ?_
        rintro _ k₂ _ _ ⟨-, h₂⟩
        exact Mirrors.pure ⟨rfl, h₂⟩

theorem Holds.mirrors_userinit (h : Holds v k k₀) (root : Nat) :
    Mirrors (userinit root) k (userinit root) k₀ (Alike v) := by
  rw [userinit]
  apply Mirrors.bind h.mirrors_allocproc
  rintro _ k₁ found _ ⟨⟨rfl, h₁⟩, -⟩
  cases found with
  | none =>
      intro _ _ hrun
      cases hrun
  | some p =>
      have hinit : Holds v { k₁ with initproc := some p } { k₁.closed with initproc := some p } :=
        ⟨rfl, h₁.files⟩
      rw [h₁.closed] at hinit
      apply Mirrors.bind hinit.mirrors_modify
      rintro _ k₂ _ _ ⟨-, h₂⟩
      apply h₂.bind_getProc
      apply Mirrors.bind (h₂.mirrors_inMem _)
      rintro _ k₃ _ _ ⟨-, h₃⟩
      refine Mirrors.bind (h₃.mirrors_setProc fun q => ⟨rfl, rfl⟩) ?_
      rintro _ k₄ _ _ ⟨-, h₄⟩
      apply Mirrors.bind (h₄.mirrors_inMem _)
      rintro _ k₅ _ _ ⟨-, h₅⟩
      apply Mirrors.bind (h₅.mirrors_inMem _)
      rintro _ k₆ _ _ ⟨-, h₆⟩
      apply Mirrors.bind (h₆.mirrors_idup root)
      rintro _ k₇ cwd _ ⟨rfl, h₇⟩
      exact h₇.mirrors_setProc fun q => ⟨rfl, rfl⟩

end

end SyscallSched.Xv6
