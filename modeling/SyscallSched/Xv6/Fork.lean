import SyscallSched.Xv6.Alloc
import SyscallSched.Xv6.Proc

/-!
# `fork` of one process

`fork` needs of the system only that the parent's size describes its page table
and that the free pages are no pages of the parent.  It builds the child from
free pages, as a copy of the parent page by page, or leaves everything as it was.
-/

namespace SyscallSched.Xv6

open SyscallSched.Foundation

variable [Image] {pool X U : Multiset Nat} {k k' : Kernel} {p np : Nat} {q : Proc} {m : Mem}
  {g : Nat → Nat}

omit [Image] in
theorem live_state (h : k.live p) :
    (k.proc p).state ≠ .unused ∧ (k.proc p).state ≠ .zombie := by
  cases h.2 with
  | inl hs =>
      rw [hs]
      exact ⟨(nomatch ·), (nomatch ·)⟩
  | inr hs =>
      rw [hs]
      exact ⟨(nomatch ·), (nomatch ·)⟩

/-! ## A process and its pages -/

/-- The size of the process says what its page table maps, and the free pages are
none of its own. -/
structure Owner (k : Kernel) (p : Nat) : Prop where
  state : (k.proc p).state ≠ .unused
  space : UserSpace (↑k.mem.freelist + (k.proc p).frames k.mem) k.mem (k.proc p).pagetable
    (leafAt k.mem 2 (k.proc p).pagetable) (pageCount (k.proc p).sz) (k.proc p).trapframe
    {(k.proc p).trapframe}

namespace Owner

theorem apart (h : Owner k p) : Disjoint ((k.proc p).frames k.mem) ↑k.mem.freelist :=
  (Multiset.nodup_add.mp h.space.space.nodup).2.2.symm

theorem stock (h : Owner k p) : Stock ↑k.mem.freelist k.mem 0 := by
  have hnd := h.space.space.nodup
  constructor
  case frames => exact add_zero _
  case nodup => exact (Multiset.nodup_add.mp hnd).1
  case valid =>
      intro q hq
      exact h.space.space.valid q (Multiset.mem_add.mpr (Or.inl hq))

theorem parts_apart (h : Owner k p) :
    Disjoint (tables k.mem 2 (k.proc p).pagetable) ↑k.mem.freelist ∧
      Disjoint (framesOf (leafAt k.mem 2 (k.proc p).pagetable) 0 (pageCount (k.proc p).sz))
        ↑k.mem.freelist ∧
      (k.proc p).trapframe ∉ (↑k.mem.freelist : Multiset Nat) := by
  have hapart := h.apart
  rw [Proc.frames_live h.state] at hapart
  refine ⟨?_, ?_, ?_⟩
  · exact hapart.mono_left (Multiset.le_add_right _ _)
  · exact hapart.mono_left ((Multiset.le_add_right _ _).trans (Multiset.le_add_left _ _))
  · apply Multiset.disjoint_left.mp hapart
    exact Multiset.mem_add.mpr (Or.inr (Multiset.mem_add.mpr
      (Or.inr (Multiset.mem_singleton_self _))))

theorem agree (h : Owner k p) (hwithin : Within ↑k.mem.freelist k.mem m) :
    Agree k.mem m 2 (k.proc p).pagetable :=
  hwithin.agree h.parts_apart.1

theorem source (h : Owner k p) (hwithin : Within ↑k.mem.freelist k.mem m) :
    Source ↑k.mem.freelist m (k.proc p).pagetable (pageCount (k.proc p).sz) := by
  have hagree := h.agree hwithin
  constructor
  case disjoint =>
      rw [hagree.tables_eq]
      exact h.parts_apart.1
  case shaped => exact hagree.shaped h.space.space.shaped
  case present =>
      intro v hv
      rw [hagree.leafAt_eq]
      exact h.space.map.user v hv
  case pages_le => exact h.space.pages_le

end Owner

/-! ## Pages that are written but keep their owner -/

theorem UserSpace.wrote_held {U : Multiset Nat} {r n tf : Nat} {m' : Mem}
    (h : UserSpace X m r g n tf U) (hw : Wrote U m m') : UserSpace X m' r g n tf U :=
  ⟨h.space.write_held (hw.within.mono (Multiset.le_add_left _ _)) hw.freelist, h.map⟩

omit [Image] in
theorem wrote_setPage (m : Mem) (pa : Nat) (words : Nat → Nat) :
    Wrote {pa} m (m.setPage pa words) :=
  ⟨within_setPage m pa words, rfl⟩

omit [Image] in
theorem copyTrapframe_spec (dst src : Nat) :
    Total (copyTrapframe dst src) m fun _ m' => Wrote {dst} m m' ∧
      ∀ i < trapframeWords, m'.page dst i = m.page src i := by
  apply Total.of_eq (a := ()) rfl
  refine ⟨wrote_setPage m dst _, ?_⟩
  intro i hi
  rw [Mem.setPage_page_self, if_pos hi]

omit [Image] in
theorem store_spec (pa i w : Nat) :
    Total (store pa i w) m fun _ m' => Wrote {pa} m m' ∧
      ∀ j, m'.page pa j = if j = i then w else m.page pa j :=
  Total.of_eq (a := ()) rfl ⟨wrote_setPage m pa _, m.setWord_page_self pa i w⟩

omit [Image] in
theorem store_wrote (pa i w : Nat) :
    Total (store pa i w) m fun _ m' => Wrote {pa} m m' :=
  (store_spec pa i w).mono fun _ _ h => h.1

/-- Writing a held page leaves the user's pages alone. -/
theorem UserSpace.user_kept {r n tf : Nat} {m' : Mem} (h : UserSpace X m r g n tf U)
    (hw : Wrote U m m') : Kept (framesOf g 0 n) m m' := by
  have hnd := Multiset.nodup_of_le h.space.held_le h.space.nodup
  exact Kept.of_within hw.within (Multiset.nodup_add.mp hnd).2.2.symm

omit [Image] in
theorem Filled.keep {n j : Nat} {c : Nat → Nat → Nat} {f : Nat → Nat} {m' : Mem}
    (h : Filled m g n j c f) (hkept : Kept (framesOf g 0 j) m m') : Filled m' g n j c f := by
  constructor
  case page =>
      intro v hnv hv
      rw [hkept _ (mem_framesOf_zero hv)]
      exact h.page v hnv hv
  case flags => exact h.flags

/-! ## The parent and the child -/

theorem Allocated.edited {np : Nat} (h : Allocated k k' np) :
    Edited k k' np (k'.proc np) k'.mem :=
  ⟨rfl, rfl, h.others, h.initproc⟩

theorem Allocated.ne {np : Nat} (h : Allocated k k' np) (hs : (k.proc p).state ≠ .unused) :
    p ≠ np := by
  rintro rfl
  exact hs h.was

omit [Image] in
theorem dupFiles_none {np : Nat} (h : ∀ fd, (k.proc p).ofile fd = none) :
    Total (dupFiles p np) k fun _ k' => k' = k := by
  apply Total.forRange (I := fun _ k' => k' = k) nofile rfl
  intro i t _ ht
  rw [ht]
  apply Total.bind_eq (a := k.proc p) rfl
  rw [h i]
  exact Total.pure rfl

omit [Image] in
theorem Edited.bind_dupCwd {β : Type} {R : β → Kernel → Prop} {k₁ : Kernel}
    {x : Option Nat → KernelM β} {cwd : Option Nat} (h : Edited k k₁ p q m)
    (hcwd : cwd ≠ none) (hx : ∀ k₂, Edited k k₂ p q m → Total (x cwd) k₂ R) :
    Total (dupCwd cwd >>= x) k₁ R := by
  cases cwd with
  | none => exact absurd rfl hcwd
  | some ip =>
      apply Total.bind_eq (a := some ip) rfl
      exact hx _ ⟨h.mem, h.self, h.others, h.initproc⟩

structure Forked (k k' : Kernel) (p np : Nat) : Prop where
  slot : k.unusedSlot = some np
  proc : k'.proc np =
    { k.proc np with
      pid := k.nextpid
      state := .runnable
      parent := some p
      sz := (k.proc p).sz
      pagetable := (k'.proc np).pagetable
      trapframe := (k'.proc np).trapframe
      context := { ra := Image.forkret, sp := kstack np + pgSize }
      cwd := (k.proc p).cwd
      name := safestrcpy (k.proc p).name }
  trapframe : ∀ i < trapframeWords, k'.mem.page (k'.proc np).trapframe i =
    if i = tfA0 then 0 else k.mem.page (k.proc p).trapframe i

structure Forkable (k : Kernel) (p : Nat) : Prop extends Owner k p where
  cwd : (k.proc p).cwd ≠ none
  vacant : k.Vacant

structure ForkCopied (k k' : Kernel) (p np : Nat) : Prop extends Forked k k' p np where
  others : ∀ q, q ≠ np → k'.proc q = k.proc q
  initproc : k'.initproc = k.initproc
  within : Within ↑k.mem.freelist k.mem k'.mem
  space : ∃ g, UserSpace ↑k.mem.freelist k'.mem (k'.proc np).pagetable g
      (pageCount (k'.proc np).sz) (k'.proc np).trapframe {(k'.proc np).trapframe} ∧
    CopiedTo k.mem (k.proc p).pagetable (pageCount (k.proc p).sz) k'.mem g

theorem ForkCopied.edited (h : ForkCopied k k' p np) :
    Edited k k' np (k'.proc np) k'.mem :=
  ⟨rfl, rfl, h.others, h.initproc⟩

/-- The parent's pages were not free, so a copy of them as they are is one of them as
they were. -/
theorem Owner.copiedTo {m' : Mem} (h : Owner k p) (hwithin : Within ↑k.mem.freelist k.mem m)
    (hcopy : CopiedTo m (k.proc p).pagetable (pageCount (k.proc p).sz) m' g) :
    CopiedTo k.mem (k.proc p).pagetable (pageCount (k.proc p).sz) m' g := by
  have hleaf : leafAt m 2 (k.proc p).pagetable = leafAt k.mem 2 (k.proc p).pagetable :=
    funext fun v => (h.agree hwithin).leafAt_eq
  constructor
  case page =>
      intro v hv hvn
      have hsame : userPage m (k.proc p).pagetable v = userPage k.mem (k.proc p).pagetable v := by
        rw [userPage, hleaf, hwithin.page _ ?_]
        · rfl
        · exact Multiset.disjoint_left.mp h.parts_apart.2.1 (mem_framesOf_zero hvn)
      rw [← hsame]
      exact hcopy.page v hv hvn
  case flags =>
      intro v hv hvn
      rw [← hleaf]
      exact hcopy.flags v hv hvn

theorem fork_run (h : Forkable k p) (hfiles : ∀ fd, (k.proc p).ofile fd = none) :
    Total (fork p) k fun pid k' => (pid = -1 ∧ GivenUp k k') ∨
      ∃ np, pid = k.nextpid ∧ ForkCopied k k' p np := by
  rw [fork]
  apply Total.bind (allocproc_run h.stock h.vacant)
  intro result k₁ hk₁
  cases result with
  | none => exact Total.pure (Or.inl ⟨rfl, hk₁.1⟩)
  | some np =>
      have halloc : Allocated k k₁ np := hk₁.1
      have he := halloc.edited
      have hne := halloc.ne h.state
      obtain ⟨g₁, hspace₁⟩ := halloc.space
      have hagree₁ := h.agree halloc.within
      have hleaf₁ : leafAt k₁.mem 2 (k.proc p).pagetable =
          leafAt k.mem 2 (k.proc p).pagetable := funext fun v => hagree₁.leafAt_eq
      have hapart₁ := h.parts_apart.2.1
      rw [← hleaf₁] at hapart₁
      have hsz : (k₁.proc np).sz = 0 := by
        rw [halloc.proc]
        exact (h.vacant np halloc.lt halloc.was).2.2
      apply he.bind_getOther hne
      apply he.bind_getProc
      apply he.bind_inMem (uvmcopy_spec (h.source halloc.within) hapart₁ hspace₁)
      intro copied m₂ k₂ hm₂ h₂
      obtain ⟨hwithin₂, hcopied⟩ := hm₂
      have hwithin := halloc.within.trans hwithin₂
      cases copied with
      | true =>
          obtain ⟨g₂, hspace₂, hcopy₂⟩ := hcopied
          rw [if_pos rfl]
          apply h₂.bind_setProc
          intro k₃ h₃
          apply h₃.bind_inMem (copyTrapframe_spec _ _)
          intro _ m₄ k₄ hm₄ h₄
          obtain ⟨hw₄, htrapframe⟩ := hm₄
          apply h₄.bind_inMem (store_spec _ _ _)
          intro _ m₅ k₅ hm₅ h₅
          obtain ⟨hw₅, hstore⟩ := hm₅
          have hw := hw₄.trans hw₅
          have hclosed : ∀ fd, (k₅.proc p).ofile fd = none := by
            rw [h₅.others p hne]
            exact hfiles
          apply Total.bind (dupFiles_none hclosed)
          intro _ k₆ hk₆
          rw [hk₆]
          apply h₅.bind_dupCwd h.cwd
          intro k₇ h₇
          apply h₇.bind_setProc
          intro k' h'
          apply Total.pure
          refine Or.inr ⟨np, ?_, ?_⟩
          · rw [halloc.proc]
          have hself := h'.self
          have hmem := h'.mem
          constructor
          case toForked =>
              constructor
              case slot => exact halloc.found
              case proc => rw [h'.self, halloc.proc]
              case trapframe =>
                  intro i hi
                  have hparent := hwithin.page _ h.parts_apart.2.2
                  rw [h'.self, h'.mem, ← hparent, ← htrapframe i hi]
                  exact hstore i
          case others => exact h'.others
          case initproc => exact h'.initproc
          case within =>
              rw [h'.mem]
              exact hwithin.trans (hw.within.mono
                ((Multiset.le_add_left _ _).trans hspace₂.space.held_le))
          case space =>
              refine ⟨g₂, ?_, ?_⟩
              · rw [h'.self, h'.mem]
                exact hspace₂.wrote_held hw
              · rw [h'.mem]
                exact h.copiedTo halloc.within (hcopy₂.keep (hspace₂.user_kept hw))
      | false =>
          have hspace₂ : UserSpace ↑k.mem.freelist m₂ (k₁.proc np).pagetable g₁
              (pageCount (k₁.proc np).sz) (k₁.proc np).trapframe
              {(k₁.proc np).trapframe} := by
            rw [hsz]
            exact hcopied
          rw [if_neg Bool.false_ne_true]
          apply Total.bind (freeproc_all h₂ hspace₂)
          intro _ k' hfreed
          apply Total.pure
          have hof : (k₁.proc np).ofile = (k.proc np).ofile := by rw [halloc.proc]
          have hcw : (k₁.proc np).cwd = (k.proc np).cwd := by rw [halloc.proc]
          exact Or.inl ⟨rfl, hfreed.givenUp halloc.found hof hcw hwithin⟩

end SyscallSched.Xv6
