import SyscallSched.Xv6.Files.Closed

/-!
# `fork` is all or nothing

Whichever allocation fails, a `fork` that returns -1 has given back what it took.  A
`fork` that returns a pid has copied the parent page by page, and touched none of the
parent's pages.
-/

namespace SyscallSched.Xv6

open SyscallSched.Foundation

section

variable {k k' : Kernel} {p np : Nat}

/-! ## A kernel and the same kernel without open files -/

theorem closed_inj {q q' : Proc} (h : q.closed = q'.closed) (hofile : q.ofile = q'.ofile) :
    q = q' := by
  cases q
  cases q'
  simp_all [Proc.closed]

theorem closed_cleared {q : Proc} (h : q.closed.Cleared) : q.Cleared :=
  closed_inj h rfl

theorem cleared_unused {q : Proc} (h : q.Cleared) : q.state = .unused := by
  rw [← h]
  rfl

/-! ## The two outcomes -/

structure ForkFailed (k k' : Kernel) : Prop where
  free : (↑k'.mem.freelist : Multiset Nat) = ↑k.mem.freelist
  chosen : ∀ np, k.unusedSlot = some np →
    (k'.proc np).state = .unused ∧ (k'.proc np).Cleared
  others : ∀ q, k.unusedSlot ≠ some q → k'.proc q = k.proc q
  file : k'.file = k.file
  inodeRef : k'.inodeRef = k.inodeRef

structure ForkDone [Image] (k k' : Kernel) (p np : Nat) : Prop where
  slot : k.unusedSlot = some np
  sz : (k'.proc np).sz = (k.proc p).sz
  map : UserMap (leafAt k'.mem 2 (k'.proc np).pagetable) (pageCount (k.proc p).sz)
    (k'.proc np).trapframe
  bytes : ∀ va < (k.proc p).sz, userByte k'.mem (k'.proc np).pagetable va =
    userByte k.mem (k.proc p).pagetable va
  perm : ∀ va < (k.proc p).sz, userPerm k'.mem (k'.proc np).pagetable va =
    userPerm k.mem (k.proc p).pagetable va
  nodup : ((k'.proc np).frames k'.mem).Nodup
  apart : Disjoint ((k'.proc np).frames k'.mem) ((k'.proc p).frames k'.mem)
  parent : k'.proc p = k.proc p
  frames : (k'.proc p).frames k'.mem = (k.proc p).frames k.mem
  pages : ∀ q ∈ (k.proc p).frames k.mem, k'.mem.page q = k.mem.page q

variable [Image]

theorem GivenUp.failed (h : GivenUp k.closed k'.closed) (hrun : fork p k = .ok (-1, k')) :
    ForkFailed k k' := by
  constructor
  case free => exact h.free
  case chosen =>
      intro np hnp
      have hcleared := closed_cleared (h.chosen np hnp).1
      exact ⟨cleared_unused hcleared, hcleared⟩
  case others =>
      intro q hq
      apply closed_inj (h.others q hq)
      have hopened : ((k'.proc q).ofile, (k'.proc q).cwd) =
          ((k.proc q).ofile, (k.proc q).cwd) := (aside_opened q).fork_failed hrun
      exact (Prod.mk.inj hopened).1
  case file => exact aside_file.fork_failed hrun
  case inodeRef => exact aside_inodeRef.fork_failed hrun

/-! ## The pages of the child -/

omit [Image] in
theorem page_lt_count {va sz : Nat} (h : va < sz) : va / pgSize < pageCount sz := by
  simp only [pageCount, pgSize]
  omega

theorem ForkCopied.child_free (h : ForkCopied k k' p np) :
    (k'.proc np).frames k'.mem ≤ ↑k.mem.freelist := by
  have hstate : (k'.proc np).state ≠ .unused := by
    rw [h.proc]
    exact (nomatch ·)
  obtain ⟨g, hspace, -⟩ := h.space
  rw [← hspace.frames_eq hstate]
  exact Multiset.le_add_left _ _

theorem ForkCopied.filled (h : ForkCopied k k' p np) :
    CopiedTo k.mem (k.proc p).pagetable (pageCount (k.proc p).sz) k'.mem
      (leafAt k'.mem 2 (k'.proc np).pagetable) := by
  obtain ⟨g, hspace, hfilled⟩ := h.space
  have hsz : (k'.proc np).sz = (k.proc p).sz := by rw [h.proc]
  have hn := hspace.pages_le
  rw [hsz] at hn
  have hleaf : ∀ v < pageCount (k.proc p).sz,
      leafAt k'.mem 2 (k'.proc np).pagetable v = g v :=
    fun v hv => hspace.space.leaf v (by omega)
  constructor
  case page =>
      intro v hv hvn
      rw [hleaf v hvn]
      exact hfilled.page v hv hvn
  case flags =>
      intro v hv hvn
      rw [hleaf v hvn]
      exact hfilled.flags v hv hvn

theorem ForkCopied.done (h : ForkCopied k k' p np) (hk : Forkable k p) :
    ForkDone k k' p np := by
  have hne : p ≠ np := by
    rintro rfl
    exact hk.state (unusedSlot_some h.slot).2
  have hparent : k'.proc p = k.proc p := h.others p hne
  have hsz : (k'.proc np).sz = (k.proc p).sz := by rw [h.proc]
  have hpages : ∀ q ∈ (k.proc p).frames k.mem, k'.mem.page q = k.mem.page q :=
    fun q hq => h.within.page q (Multiset.disjoint_left.mp hk.apart hq)
  have hframes : (k'.proc p).frames k'.mem = (k.proc p).frames k.mem := by
    rw [hparent]
    exact (Keeps.refl _).frames_eq fun _ => hk.agree h.within
  obtain ⟨g, hspace, -⟩ := h.space
  constructor
  case slot => exact h.slot
  case sz => exact hsz
  case map =>
      rw [← hsz]
      exact hspace.leaf_map
  case bytes =>
      intro va hva
      have hpage := h.filled.page _ (Nat.zero_le _) (page_lt_count hva)
      rw [userByte, mapByte, pageByte, hpage]
      rfl
  case perm =>
      intro va hva
      exact h.filled.flags _ (Nat.zero_le _) (page_lt_count hva)
  case nodup => exact Multiset.nodup_of_le h.child_free hk.stock.nodup
  case apart =>
      rw [hframes]
      exact (hk.apart.mono_right h.child_free).symm
  case parent => exact hparent
  case frames => exact hframes
  case pages => exact hpages

theorem ForkDone.of_closed (h : ForkDone k.closed k'.closed p np)
    (hofile : (k'.proc p).ofile = (k.proc p).ofile) : ForkDone k k' p np :=
  { slot := h.slot, sz := h.sz, map := h.map, bytes := h.bytes, perm := h.perm
    nodup := h.nodup, apart := h.apart, parent := closed_inj h.parent hofile
    frames := h.frames, pages := h.pages }

theorem Forkable.closed (h : Forkable k p) : Forkable k.closed p :=
  ⟨⟨h.state, h.space⟩, h.cwd, h.vacant⟩

/-- For every parent whose size describes its page table, and any number of free pages. -/
theorem fork_all_or_nothing (h : Forkable k p) (hfiles : k.fileTables.Referred p) :
    Total (fork p) k fun pid k' => (pid = -1 ∧ ForkFailed k k') ∨
      ∃ np, pid = k.nextpid ∧ ForkDone k k' p np := by
  have hholds : Holds k.fileTables k k.closed := ⟨rfl, rfl⟩
  have hmirror := hholds.mirrors_fork h.state hfiles
  obtain ⟨_, k', hrun, pid, k₀, hspec, rfl, hresult⟩ :=
    hmirror.total (fork_run h.closed fun _ => rfl)
  refine ⟨pid, k', hrun, ?_⟩
  have hclosed : k'.closed = k₀ := by
    cases hresult with
    | inl hfail => exact hfail.2.closed
    | inr hchild =>
        obtain ⟨-, np, -, hholds'⟩ := hchild
        exact hholds'.closed
  subst hclosed
  cases hspec with
  | inl hfail =>
      obtain ⟨rfl, hgiven⟩ := hfail
      exact Or.inl ⟨rfl, hgiven.failed hrun⟩
  | inr hdone =>
      obtain ⟨np, hpid, hcopied⟩ := hdone
      refine Or.inr ⟨np, hpid, (hcopied.done h.closed).of_closed ?_⟩
      cases hresult with
      | inl hfail => exact congrFun (congrArg FileTables.ofile hfail.2.files) p
      | inr hchild =>
          obtain ⟨-, np', hslot, hholds'⟩ := hchild
          have hne : p ≠ np' := by
            rintro rfl
            exact h.state (unusedSlot_some hslot).2
          have hofile := congrFun (congrArg FileTables.ofile hholds'.files) p
          rw [dup_ofile_ne hne] at hofile
          exact hofile

end

attribute [local instance] builtImage in
theorem first_forkable : ∃ k kf, fork 0 k = .ok (2, kf) ∧ Forkable k 0 ∧
    k.fileTables.Referred 0 := by
  obtain ⟨k, kf, ks, hboot, hf, -⟩ := first_forks
  obtain ⟨_, k₁, hinit, hinv, hfirst⟩ := userinit_spec builtBoot
  have hafter : builtBoot.run [] = .ok k₁ := by
    rw [Boot.run, after, hinit]
    rfl
  obtain rfl : k₁ = k := by
    rw [hboot] at hafter
    injection hafter with hk
    exact hk.symm
  refine ⟨k₁, kf, hf, hinv.forkable hfirst.live, ?_⟩
  intro fd _ f hopen
  have hnone : k₁.fileTables.ofile 0 fd = none := (hinv.slot 0 hfirst.live.1).files fd
  rw [hnone] at hopen
  cases hopen

attribute [local instance] builtImage in
theorem first_fork_done : ∃ k kf np, fork 0 k = .ok (2, kf) ∧ ForkDone k kf 0 np := by
  obtain ⟨k, kf, hf, hk, hfiles⟩ := first_forkable
  obtain ⟨pid, k', hrun, hresult⟩ := fork_all_or_nothing hk hfiles
  rw [hf] at hrun
  cases hrun
  cases hresult with
  | inl hfail => exact absurd hfail.1 (by decide)
  | inr hdone =>
      obtain ⟨np, -, hdone⟩ := hdone
      exact ⟨k, kf, np, hf, hdone⟩

end SyscallSched.Xv6
