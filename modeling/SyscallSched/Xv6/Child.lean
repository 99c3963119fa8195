import SyscallSched.Xv6.Boot

/-!
# The children of `fork` and `sfork`

What `fork` does to the references of the parent, in every state in which it
returns a pid, and why `sfork` never does the same: it takes no reference to
the parent's directory.
-/

namespace SyscallSched.Xv6

open SyscallSched.Foundation

section

variable {α γ : Type} {f : Kernel → γ} {k k' : Kernel} {p np : Nat}

/-! ## Views that creating a process leaves alone -/

/-- The view depends neither on memory nor on the next pid, and on no field of a
slot but its files and its directory. -/
structure Aside (f : Kernel → γ) : Prop where
  mem : ∀ k mem, f { k with mem } = f k
  nextpid : ∀ k nextpid, f { k with nextpid } = f k
  proc : ∀ k p (g : Proc → Proc), (∀ q, (g q).ofile = q.ofile ∧ (g q).cwd = q.cwd) →
    f (k.setProc p g) = f k

theorem Aside.inMem (hf : Aside f) (x : MemM α) : Unchanged f (inMem x) := by
  intro k a k' h
  rw [Xv6.inMem] at h
  cases hx : x k.mem with
  | error e =>
      rw [hx] at h
      cases h
  | ok r =>
      rw [hx] at h
      injection h with hpair
      injection hpair with _ hk
      rw [← hk]
      exact hf.mem k r.2

theorem Aside.setProc (hf : Aside f) (p : Nat) {g : Proc → Proc}
    (hg : ∀ q, (g q).ofile = q.ofile ∧ (g q).cwd = q.cwd) :
    Unchanged f (setProc p g) :=
  Unchanged.of_modify fun k => hf.proc k p g hg

theorem Aside.getProc (p : Nat) : Unchanged f (getProc p) :=
  Unchanged.bind Unchanged.of_get fun _ => Unchanged.of_pure _

theorem Aside.allocpid (hf : Aside f) : Unchanged f allocpid := by
  intro k a k' h
  injection h with hpair
  injection hpair with _ hk
  rw [← hk]
  exact hf.nextpid k (k.nextpid + 1)

variable [Image]

theorem Aside.freeproc (hf : Aside f) (p : Nat) : Unchanged f (freeproc p) := by
  apply Unchanged.bind (Aside.getProc p)
  intro q
  apply Unchanged.bind (hf.inMem _)
  intro _
  apply Unchanged.bind (hf.inMem _)
  intro _
  exact hf.setProc p fun q => ⟨rfl, rfl⟩

theorem Aside.allocproc (hf : Aside f) : Unchanged f allocproc := by
  apply Unchanged.bind Unchanged.of_get
  intro k
  cases k.unusedSlot with
  | none => exact Unchanged.of_pure _
  | some p =>
      apply Unchanged.bind hf.allocpid
      intro pid
      refine Unchanged.bind (hf.setProc p fun q => ⟨rfl, rfl⟩) fun _ => ?_
      apply Unchanged.bind (hf.inMem _)
      intro page
      cases page with
      | none =>
          refine Unchanged.bind (hf.setProc p fun q => ⟨rfl, rfl⟩) fun _ => ?_
          apply Unchanged.bind (hf.freeproc p)
          intro _
          exact Unchanged.of_pure _
      | some trapframe =>
          refine Unchanged.bind (hf.setProc p fun q => ⟨rfl, rfl⟩) fun _ => ?_
          apply Unchanged.bind (hf.inMem _)
          intro table
          cases table with
          | none =>
              refine Unchanged.bind (hf.setProc p fun q => ⟨rfl, rfl⟩) fun _ => ?_
              apply Unchanged.bind (hf.freeproc p)
              intro _
              exact Unchanged.of_pure _
          | some pagetable =>
              refine Unchanged.bind (hf.setProc p fun q => ⟨rfl, rfl⟩) fun _ => ?_
              exact Unchanged.of_pure _

theorem Aside.sfork (hf : Aside f) (p : Nat) : Unchanged f (sfork p) := by
  apply Unchanged.bind hf.allocproc
  intro result
  cases result with
  | none => exact Unchanged.of_pure _
  | some np =>
      apply Unchanged.bind (Aside.getProc p)
      intro q
      refine Unchanged.bind (hf.setProc np fun q => ⟨rfl, rfl⟩) fun _ => ?_
      apply Unchanged.bind (Aside.getProc np)
      intro _
      exact Unchanged.of_pure _

end

theorem aside_inodeRef : Aside Kernel.inodeRef :=
  ⟨fun _ _ => rfl, fun _ _ => rfl, fun _ _ _ _ => rfl⟩

theorem aside_file : Aside Kernel.file :=
  ⟨fun _ _ => rfl, fun _ _ => rfl, fun _ _ _ _ => rfl⟩

def Kernel.opened (p : Nat) (k : Kernel) : (Nat → Option Nat) × Option Nat :=
  ((k.proc p).ofile, (k.proc p).cwd)

theorem aside_opened (p : Nat) : Aside (Kernel.opened p) := by
  refine ⟨fun _ _ => rfl, fun _ _ => rfl, ?_⟩
  intro k np g hg
  by_cases hp : p = np
  · have hself : (k.setProc np g).proc p = g (k.proc p) := if_pos hp
    rw [Kernel.opened, hself, (hg _).1, (hg _).2]
    rfl
  · have hother : (k.setProc np g).proc p = k.proc p := if_neg hp
    rw [Kernel.opened, hother]
    rfl

/-! ## References that `fork` takes -/

variable {k k' u v : Kernel} {p np : Nat}

def Kernel.descriptors (k : Kernel) (p n f : Nat) : Nat :=
  (List.range n).countP fun fd => (k.proc p).ofile fd = some f

theorem descriptors_succ (k : Kernel) (p n f : Nat) : k.descriptors p (n + 1) f =
    k.descriptors p n f + if (k.proc p).ofile n = some f then 1 else 0 := by
  rw [Kernel.descriptors, List.range_succ, List.countP_append, List.countP_singleton]
  simp only [decide_eq_true_eq, Kernel.descriptors]

structure Duped (k k' : Kernel) (p np n : Nat) : Prop where
  inodeRef : k'.inodeRef = k.inodeRef
  parent : (k'.proc p).ofile = (k.proc p).ofile
  ref : ∀ f, (k'.file f).ref = (k.file f).ref + k.descriptors p n f
  ofile : ∀ fd < n, (k.proc p).ofile fd ≠ none →
    (k'.proc np).ofile fd = (k.proc p).ofile fd

theorem Duped.start (k : Kernel) (p np : Nat) : Duped k k p np 0 :=
  ⟨rfl, rfl, fun _ => rfl, fun fd hfd => absurd hfd (Nat.not_lt_zero fd)⟩

theorem Duped.skip {i : Nat} (h : Duped k u p np i) (hnone : (k.proc p).ofile i = none) :
    Duped k u p np (i + 1) := by
  constructor
  case inodeRef => exact h.inodeRef
  case parent => exact h.parent
  case ref =>
      intro f
      rw [h.ref f, descriptors_succ, hnone]
      rfl
  case ofile =>
      intro fd hfd hopen
      cases Nat.lt_succ_iff_lt_or_eq.mp hfd with
      | inl hlt => exact h.ofile fd hlt hopen
      | inr heq =>
          rw [heq] at hopen
          exact absurd hnone hopen

def Kernel.dupInto (k : Kernel) (np i f : Nat) : Kernel :=
  { k with file := fun g =>
      if g = f then { k.file g with ref := (k.file g).ref + 1 } else k.file g }.setProc np
    fun q => { q with ofile := fun j => if j = i then some f else q.ofile j }

theorem dupInto_proc_self (k : Kernel) (np i f : Nat) : ((k.dupInto np i f).proc np).ofile =
    fun j => if j = i then some f else (k.proc np).ofile j := by
  have hself : (k.dupInto np i f).proc np = { k.proc np with
    ofile := fun j => if j = i then some f else (k.proc np).ofile j } := if_pos rfl
  rw [hself]

theorem dupInto_proc_ne {q i f : Nat} (k : Kernel) (hq : q ≠ np) :
    (k.dupInto np i f).proc q = k.proc q := if_neg hq

theorem dupInto_ref (k : Kernel) (np i f g : Nat) : ((k.dupInto np i f).file g).ref =
    (k.file g).ref + if g = f then 1 else 0 := by
  change (if g = f then { k.file g with ref := (k.file g).ref + 1 } else k.file g).ref = _
  by_cases hg : g = f
  · rw [if_pos hg, if_pos hg]
  · rw [if_neg hg, if_neg hg, Nat.add_zero]

theorem Duped.dup {i f : Nat} (h : Duped k u p np i) (hopen : (k.proc p).ofile i = some f) :
    Duped k (u.dupInto np i f) p np (i + 1) := by
  constructor
  case inodeRef => exact h.inodeRef
  case parent =>
      by_cases hp : p = np
      · subst hp
        rw [dupInto_proc_self, h.parent, ← hopen]
        funext j
        by_cases hj : j = i
        · rw [if_pos hj, hj]
        · rw [if_neg hj]
      · rw [dupInto_proc_ne u hp, h.parent]
  case ref =>
      intro g
      have hiff : (g = f) = ((k.proc p).ofile i = some g) := by
        rw [hopen, Option.some.injEq]
        exact propext eq_comm
      rw [dupInto_ref, h.ref g, descriptors_succ, Nat.add_assoc]
      simp only [hiff]
  case ofile =>
      intro fd hfd hsome
      rw [dupInto_proc_self]
      change (if fd = i then some f else (u.proc np).ofile fd) = (k.proc p).ofile fd
      by_cases hi : fd = i
      · rw [if_pos hi, hi, hopen]
      · rw [if_neg hi]
        exact h.ofile fd (by omega) hsome

theorem filedup_ok {f g : Nat} (h : filedup f u = .ok (g, v)) : g = f ∧
    v = { u with file := fun g =>
      if g = f then { u.file g with ref := (u.file g).ref + 1 } else u.file g } := by
  rw [filedup, Total.run_bind (a := u) (t := u) rfl] at h
  by_cases href : (u.file f).ref < 1
  · rw [if_pos href] at h
    exact nomatch h
  · rw [if_neg href] at h
    injection h with hpair
    injection hpair with hg hv
    exact ⟨hg.symm, hv.symm⟩

theorem dupFiles_ok {a : Unit} (h : dupFiles p np k = .ok (a, k')) :
    Duped k k' p np nofile := by
  apply forRange_ok (I := fun n t => Duped k t p np n) h (Duped.start k p np)
  intro i u v b _ hu hbody
  rw [Total.run_bind (a := u.proc p) (t := u) rfl, hu.parent] at hbody
  cases hopen : (k.proc p).ofile i with
  | none =>
      rw [hopen] at hbody
      injection hbody with hpair
      injection hpair with _ huv
      rw [← huv]
      exact hu.skip hopen
  | some f =>
      rw [hopen] at hbody
      obtain ⟨g, w, hdup, hset⟩ := bind_ok hbody
      obtain ⟨rfl, rfl⟩ := filedup_ok hdup
      injection hset with hpair
      injection hpair with _ hv
      rw [← hv]
      exact hu.dup hopen

/-- `fork` took a reference to the directory and to every open file of `p`. -/
structure TookRefs (k k' : Kernel) (p : Nat) : Prop where
  cwd : (k.proc p).cwd ≠ none
  inodeRef : ∀ ip, k'.inodeRef ip =
    k.inodeRef ip + if (k.proc p).cwd = some ip then 1 else 0
  fileRef : ∀ f, (k'.file f).ref = (k.file f).ref + k.descriptors p nofile f

theorem dupCwd_ok {cwd result : Option Nat} (h : dupCwd cwd u = .ok (result, v)) :
    cwd ≠ none ∧ v.file = u.file ∧
      ∀ ip, v.inodeRef ip = u.inodeRef ip + if cwd = some ip then 1 else 0 := by
  cases cwd with
  | none => exact nomatch h
  | some dir =>
      injection h with hpair
      injection hpair with _ hv
      subst hv
      refine ⟨Option.some_ne_none dir, rfl, ?_⟩
      intro ip
      change (if ip = dir then u.inodeRef ip + 1 else u.inodeRef ip) = _
      by_cases hip : ip = dir
      · rw [if_pos hip, if_pos (congrArg some hip.symm)]
      · rw [if_neg hip, if_neg fun hsome => hip (Option.some.inj hsome).symm, Nat.add_zero]

/-- In every state, a `fork` that returns a pid. -/
theorem fork_ok [Image] {pid : Int} (h : fork p k = .ok (pid, k')) (hpid : pid ≠ -1) :
    TookRefs k k' p := by
  rw [fork] at h
  obtain ⟨result, k₁, halloc, h⟩ := bind_ok h
  cases result with
  | none =>
      injection h with hpair
      injection hpair with hminus _
      exact absurd hminus.symm hpid
  | some np =>
      dsimp only at h
      rw [Total.run_bind (a := k₁.proc p) (t := k₁) rfl,
        Total.run_bind (a := k₁.proc np) (t := k₁) rfl] at h
      obtain ⟨copied, k₂, hcopy, h⟩ := bind_ok h
      cases copied with
      | false =>
          rw [if_neg Bool.false_ne_true] at h
          obtain ⟨_, k₃, _, h⟩ := bind_ok h
          injection h with hpair
          injection hpair with hminus _
          exact absurd hminus.symm hpid
      | true =>
          rw [if_pos rfl] at h
          obtain ⟨_, k₃, hsz, h⟩ := bind_ok h
          obtain ⟨_, k₄, htrapframe, h⟩ := bind_ok h
          obtain ⟨_, k₅, ha0, h⟩ := bind_ok h
          obtain ⟨_, k₆, hfiles, h⟩ := bind_ok h
          obtain ⟨cwd, k₇, hcwd, h⟩ := bind_ok h
          injection h with hpair
          injection hpair with _ hk'
          have hsame : ∀ {γ : Type} {f : Kernel → γ}, Aside f → f k₅ = f k := by
            intro γ f hf
            have hset : f k₃ = f k₂ := by
              refine hf.setProc np ?_ _ _ _ hsz
              exact fun _ => ⟨rfl, rfl⟩
            calc f k₅ = f k₄ := hf.inMem _ _ _ _ ha0
              _ = f k₃ := hf.inMem _ _ _ _ htrapframe
              _ = f k₂ := hset
              _ = f k₁ := hf.inMem _ _ _ _ hcopy
              _ = f k := hf.allocproc _ _ _ halloc
          have hduped := dupFiles_ok hfiles
          have hopened₅ : ((k₅.proc p).ofile, (k₅.proc p).cwd) =
              ((k.proc p).ofile, (k.proc p).cwd) := hsame (aside_opened p)
          have hopened₁ : ((k₁.proc p).ofile, (k₁.proc p).cwd) =
              ((k.proc p).ofile, (k.proc p).cwd) := (aside_opened p).allocproc _ _ _ halloc
          injection hopened₅ with hofile₅ _
          injection hopened₁ with _ hcwd₁
          rw [hcwd₁] at hcwd
          obtain ⟨hdir, hfile₇, hinode₇⟩ := dupCwd_ok hcwd
          have hdescriptors : ∀ f, k₅.descriptors p nofile f = k.descriptors p nofile f := by
            intro f
            rw [Kernel.descriptors, hofile₅, Kernel.descriptors]
          rw [← hk']
          constructor
          case cwd => exact hdir
          case inodeRef =>
              intro ip
              rw [← hsame aside_inodeRef, ← hduped.inodeRef]
              exact hinode₇ ip
          case fileRef =>
              intro f
              rw [← hsame aside_file, ← hdescriptors f, ← hduped.ref f, ← hfile₇]
              rfl

/-- In every state, a `fork` that returns no pid. -/
theorem Aside.fork_failed [Image] {γ : Type} {f : Kernel → γ} (hf : Aside f)
    (h : fork p k = .ok (-1, k')) : f k' = f k := by
  rw [fork] at h
  obtain ⟨result, k₁, halloc, h⟩ := bind_ok h
  have h₁ : f k₁ = f k := hf.allocproc _ _ _ halloc
  cases result with
  | none =>
      cases h
      exact h₁
  | some np =>
      dsimp only at h
      rw [Total.run_bind (a := k₁.proc p) (t := k₁) rfl,
        Total.run_bind (a := k₁.proc np) (t := k₁) rfl] at h
      obtain ⟨copied, k₂, hcopy, h⟩ := bind_ok h
      cases copied with
      | false =>
          rw [if_neg Bool.false_ne_true] at h
          obtain ⟨_, k₃, hfree, h⟩ := bind_ok h
          cases h
          calc f k' = f k₂ := hf.freeproc np _ _ _ hfree
            _ = f k₁ := hf.inMem _ _ _ _ hcopy
            _ = f k := h₁
      | true =>
          rw [if_pos rfl] at h
          obtain ⟨_, k₃, -, h⟩ := bind_ok h
          obtain ⟨_, k₄, -, h⟩ := bind_ok h
          obtain ⟨_, k₅, -, h⟩ := bind_ok h
          obtain ⟨_, k₆, -, h⟩ := bind_ok h
          obtain ⟨cwd, k₇, -, h⟩ := bind_ok h
          obtain ⟨_, k₈, -, h⟩ := bind_ok h
          injection h with hpair
          injection hpair with hpid
          exact absurd hpid (by omega)

/-! ## The two children -/

section

variable [Image] {pool : Multiset Nat} {kf ks : Kernel} {pid spid : Int}

/-- `sfork` in the state `k` left, in `ks`, the same child as `fork` left in
`kf`, apart from its memory: the parent's registers with 0 for the result, the
parent's files and directory with a reference more, its name, the caller as
parent, and a context of its own. -/
structure ChildrenAgree (k kf ks : Kernel) (p np : Nat) : Prop where
  slot : k.unusedSlot = some np
  fields : ks.proc np =
    { kf.proc np with pagetable := (ks.proc np).pagetable, sz := (ks.proc np).sz }
  trapframe : ∀ i < trapframeWords, ks.mem.page (ks.proc np).trapframe i =
    if i = tfA0 then 0 else k.mem.page (k.proc p).trapframe i
  ofile : ∀ fd < nofile, (ks.proc np).ofile fd = (k.proc p).ofile fd
  fileRef : ∀ f, (ks.file f).ref = (k.file f).ref + k.descriptors p nofile f
  cwd : (ks.proc np).cwd = (k.proc p).cwd
  inodeRef : ∀ ip, ks.inodeRef ip =
    k.inodeRef ip + if (k.proc p).cwd = some ip then 1 else 0
  name : (ks.proc np).name = safestrcpy (k.proc p).name
  parent : (ks.proc np).parent = some p
  context : (ks.proc np).context = { ra := Image.forkret, sp := kstack np + pgSize }

theorem fork_agrees (h : Inv pool k) (hl : k.live p) (hf : fork p k = .ok (pid, kf))
    (hpid : pid ≠ -1) : ∃ np, ChildrenAgree k kf kf p np := by
  obtain ⟨pid', kf', hf', hspec⟩ := fork_spec h hl
  rw [hf] at hf'
  injection hf' with hpair
  injection hpair with hpid' hkf
  subst hpid' hkf
  have hrefs := fork_ok hf hpid
  cases hspec.2 with
  | inl hminus => exact absurd hminus hpid
  | inr hforked =>
      obtain ⟨np, hnp⟩ := hforked
      have hlt := (unusedSlot_some hnp.slot).1
      refine ⟨np, ?_⟩
      constructor
      case slot => exact hnp.slot
      case fields => rfl
      case trapframe => exact hnp.trapframe
      case ofile =>
          intro fd _
          rw [hnp.proc, (h.slot p hl.1).files fd]
          exact (h.slot np hlt).files fd
      case fileRef => exact hrefs.fileRef
      case cwd => rw [hnp.proc]
      case inodeRef => exact hrefs.inodeRef
      case name => rw [hnp.proc]
      case parent => rw [hnp.proc]
      case context => rw [hnp.proc]

/-- The child of `sfork` returns to user space with a trapframe nobody wrote,
and with the context of its parent. -/
theorem sfork_child (h : Inv pool k) (hl : k.live p) (hcan : k.canAlloc) :
    Total (sfork p) k fun _ ks => ∃ np, k.unusedSlot = some np ∧
      (∀ i, ks.mem.page (ks.proc np).trapframe i = 5 * 0x0101010101010101) ∧
      (ks.proc np).context = (k.proc p).context := by
  apply (sfork_allocated h hl hcan).mono
  intro _ ks hks
  obtain ⟨k₁, np, halloc, he⟩ := hks
  refine ⟨np, halloc.found, ?_, ?_⟩
  · rw [he.self, he.mem]
    exact halloc.fill
  · rw [he.self]
    rfl

/-- `sfork` takes no reference to the directory. -/
theorem not_agree_of_cwd {np : Nat} (hs : sfork p k = .ok (spid, ks))
    (hcwd : (k.proc p).cwd ≠ none) : ¬ ChildrenAgree k kf ks p np := by
  intro hagree
  obtain ⟨ip, hip⟩ := Option.ne_none_iff_exists'.mp hcwd
  have hsame : ks.inodeRef = k.inodeRef := aside_inodeRef.sfork p k spid ks hs
  have href := hagree.inodeRef ip
  rw [hsame, hip, if_pos rfl] at href
  omega

/-- Wherever both calls succeed, the children differ. -/
theorem sfork_never_agrees {np : Nat} (hf : fork p k = .ok (pid, kf)) (hpid : pid ≠ -1)
    (hs : sfork p k = .ok (spid, ks)) (_ : spid ≠ -1) : ¬ ChildrenAgree k kf ks p np :=
  not_agree_of_cwd hs (fork_ok hf hpid).cwd

end

attribute [local instance] builtImage in
/-- `init` calls `fork` or `sfork` right after the boot. -/
theorem first_forks : ∃ k kf ks, builtBoot.run [] = .ok k ∧ fork 0 k = .ok (2, kf) ∧
    sfork 0 k = .ok (2, ks) ∧ kf.inodeRef 0 = 2 ∧ ks.inodeRef 0 = 1 ∧
    ks.mem.page (ks.proc 1).trapframe tfA0 = 0x0505050505050505 ∧
    (ks.proc 1).context.sp = kstack 0 + pgSize := by
  have hvalues : (do
      let k ← builtBoot.run []
      let f ← fork 0 k
      let s ← sfork 0 k
      pure ((f.1, s.1), f.2.inodeRef 0, s.2.inodeRef 0,
        s.2.mem.page (s.2.proc 1).trapframe tfA0, (s.2.proc 1).context.sp)) =
      Except.ok ((2, 2), 2, 1, 0x0505050505050505, kstack 0 + pgSize) := by
    decide +kernel
  obtain ⟨k, hrun, hvalues⟩ := except_bind_ok hvalues
  obtain ⟨⟨pid, kf⟩, hf, hvalues⟩ := except_bind_ok hvalues
  obtain ⟨⟨spid, ks⟩, hs, hvalues⟩ := except_bind_ok hvalues
  injection hvalues with hvalues
  injection hvalues with hpids hvalues
  injection hpids with hpid hspid
  injection hvalues with hkf hvalues
  injection hvalues with hks hvalues
  injection hvalues with ha0 hsp
  change pid = 2 at hpid
  change spid = 2 at hspid
  subst hpid hspid
  exact ⟨k, kf, ks, hrun, hf, hs, hkf, hks, ha0, hsp⟩

attribute [local instance] builtImage in
theorem first_children_differ : ∃ k kf ks, builtBoot.run [] = .ok k ∧
    fork 0 k = .ok (2, kf) ∧ sfork 0 k = .ok (2, ks) ∧
    ks.mem.page (ks.proc 1).trapframe tfA0 = 0x0505050505050505 ∧
    ¬ ChildrenAgree k kf ks 0 1 := by
  obtain ⟨k, kf, ks, hrun, hf, hs, -, -, ha0, -⟩ := first_forks
  refine ⟨k, kf, ks, hrun, hf, hs, ha0, ?_⟩
  exact not_agree_of_cwd hs (fork_ok hf (by decide)).cwd

attribute [local instance] builtImage in
theorem sfork_never_agrees_first : ∃ k kf ks, fork 0 k = .ok (2, kf) ∧
    sfork 0 k = .ok (2, ks) ∧ kf.inodeRef 0 = 2 ∧ ks.inodeRef 0 = 1 ∧
    ¬ ChildrenAgree k kf ks 0 1 := by
  obtain ⟨k, kf, ks, -, hf, hs, hkf, hks, -, -⟩ := first_forks
  exact ⟨k, kf, ks, hf, hs, hkf, hks, sfork_never_agrees hf (by decide) hs (by decide)⟩

end SyscallSched.Xv6
