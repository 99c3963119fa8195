import SyscallSched.Xv6.Frames

/-!
# `allocproc` and `freeproc`

`allocproc` finds a slot and four pages, or leaves the slots and the set of
free pages as they were.
-/

namespace SyscallSched.Xv6

open SyscallSched.Foundation

/-! ## Working on one slot -/

/-- `k'` is `k` with `q` in slot `p` and the memory `m`. -/
structure Edited (k k' : Kernel) (p : Nat) (q : Proc) (m : Mem) : Prop where
  mem : k'.mem = m
  self : k'.proc p = q
  others : ∀ i, i ≠ p → k'.proc i = k.proc i
  initproc : k'.initproc = k.initproc

section

variable {k k₁ : Kernel} {p : Nat} {q : Proc} {m : Mem} {α β : Type}
  {R : β → Kernel → Prop}

theorem Edited.refl (k : Kernel) (p : Nat) : Edited k k p (k.proc p) k.mem :=
  ⟨rfl, rfl, fun _ _ => rfl, rfl⟩

theorem Edited.setProc (h : Edited k k₁ p q m) (f : Proc → Proc) :
    Edited k (k₁.setProc p f) p (f q) m := by
  constructor
  case mem => exact h.mem
  case self =>
      rw [← h.self]
      exact if_pos rfl
  case others =>
      intro i hi
      rw [← h.others i hi]
      exact if_neg hi
  case initproc => exact h.initproc

theorem Edited.bind_setProc (h : Edited k k₁ p q m) {f : Proc → Proc}
    {x : Unit → KernelM β}
    (hx : ∀ k₂, Edited k k₂ p (f q) m → Total (x ()) k₂ R) :
    Total (Xv6.setProc p f >>= x) k₁ R :=
  Total.bind_eq (a := ()) rfl (hx _ (h.setProc f))

theorem Edited.end_setProc (h : Edited k k₁ p q m) {f : Proc → Proc}
    {R : Unit → Kernel → Prop} (hR : ∀ k₂, Edited k k₂ p (f q) m → R () k₂) :
    Total (Xv6.setProc p f) k₁ R :=
  Total.of_eq (a := ()) rfl (hR _ (h.setProc f))

theorem inMem_run {x : MemM α} {a : α} {m' : Mem} (h : x k.mem = .ok (a, m')) :
    inMem x k = .ok (a, { k with mem := m' }) := by
  rw [inMem, h]

theorem Edited.bind_inMem (h : Edited k k₁ p q m) {x : MemM α} {y : α → KernelM β}
    {Q : α → Mem → Prop} (hx : Total x m Q)
    (hy : ∀ a m' k₂, Q a m' → Edited k k₂ p q m' → Total (y a) k₂ R) :
    Total (inMem x >>= y) k₁ R := by
  obtain ⟨a, m', hrun, hQ⟩ := hx
  rw [← h.mem] at hrun
  apply Total.bind_eq (inMem_run hrun)
  exact hy a m' _ hQ ⟨rfl, h.self, h.others, h.initproc⟩

theorem Edited.bind_same (h : Edited k k₁ p q m) {x : KernelM α} {y : α → KernelM β}
    {a : α} {k₂ : Kernel} (hx : x k₁ = .ok (a, k₂)) (hmem : k₂.mem = k₁.mem)
    (hproc : k₂.proc = k₁.proc) (hinit : k₂.initproc = k₁.initproc)
    (hy : ∀ k₃, Edited k k₃ p q m → Total (y a) k₃ R) : Total (x >>= y) k₁ R := by
  apply Total.bind_eq hx
  apply hy
  constructor
  case mem => rw [hmem, h.mem]
  case self => rw [hproc, h.self]
  case others =>
      intro i hi
      rw [hproc, h.others i hi]
  case initproc => rw [hinit, h.initproc]

theorem Edited.bind_getProc (h : Edited k k₁ p q m) {x : Proc → KernelM β}
    (hx : Total (x q) k₁ R) : Total (getProc p >>= x) k₁ R := by
  rw [← h.self] at hx
  exact Total.bind_eq rfl hx

theorem Edited.bind_getOther (h : Edited k k₁ p q m) {i : Nat} (hi : i ≠ p)
    {x : Proc → KernelM β} (hx : Total (x (k.proc i)) k₁ R) :
    Total (getProc i >>= x) k₁ R := by
  rw [← h.others i hi] at hx
  exact Total.bind_eq rfl hx

end

variable [Image] {X : Multiset Nat} {k : Kernel} {p : Nat}

theorem frame_ne_zero {q : Nat} (h : Frame q) : q ≠ 0 := by
  have hlow := Image.kernBase_le.trans h.2.1
  intro hzero
  rw [hzero] at hlow
  exact absurd hlow (by decide)

/-! ## `freeproc` -/

variable {k₁ : Kernel} {q : Proc} {m : Mem}

/-- `freeproc` emptied the slot `p` and the free pages are `X`. -/
structure SlotFreed (X : Multiset Nat) (k k' : Kernel) (p : Nat) (q : Proc) (m : Mem) :
    Prop where
  edited : Edited k k' p q.reset k'.mem
  free : (↑k'.mem.freelist : Multiset Nat) = X
  within : Within X m k'.mem

theorem freeproc_none (h : Edited k k₁ p q m) (htf : q.trapframe = 0)
    (hpt : q.pagetable = 0) :
    Total (freeproc p) k₁ fun _ k' => SlotFreed ↑m.freelist k k' p q m := by
  rw [freeproc]
  apply h.bind_getProc
  rw [htf, hpt]
  have hskip : ∀ x : MemM Unit, Total (when ((0 : Nat) ≠ 0) x) m fun _ m' => m' = m :=
    fun x => Total.of_eq (a := ()) (t := m) rfl rfl
  apply h.bind_inMem (hskip _)
  intro _ m₁ k₂ hm₁ h₂
  subst hm₁
  apply h₂.bind_inMem (hskip _)
  intro _ m₂ k₃ hm₂ h₃
  subst hm₂
  apply h₃.end_setProc
  intro k' h'
  have hmem := h'.mem
  subst hmem
  exact ⟨h', rfl, Within.refl _ _⟩

theorem freeproc_trapframe (h : Edited k k₁ p q m) (hstock : Stock X m {q.trapframe})
    (hpt : q.pagetable = 0) :
    Total (freeproc p) k₁ fun _ k' => SlotFreed X k k' p q m := by
  have htf : q.trapframe ≠ 0 := by
    apply frame_ne_zero
    apply hstock.valid
    rw [← hstock.frames]
    exact Multiset.mem_add.mpr (Or.inr (Multiset.mem_singleton_self _))
  have hheld : Stock X m (q.trapframe ::ₘ 0) := hstock
  rw [freeproc]
  apply h.bind_getProc
  rw [hpt, when, if_pos htf]
  apply h.bind_inMem hheld.kfree_spec
  intro _ m₁ k₂ hm₁ h₂
  have hskip : Total (when ((0 : Nat) ≠ 0) (procFreepagetable 0 q.sz)) m₁
      fun _ m' => m' = m₁ := Total.of_eq (a := ()) (t := m₁) rfl rfl
  apply h₂.bind_inMem hskip
  intro _ m₂ k₃ hm₂ h₃
  subst hm₂
  apply h₃.end_setProc
  intro k' h'
  have hmem := h'.mem
  subst hmem
  refine ⟨h', ?_, hm₁.1⟩
  rw [← hm₁.2.frames, add_zero]

theorem freeproc_all {g : Nat → Nat} (h : Edited k k₁ p q m)
    (hspace : UserSpace X m q.pagetable g (pageCount q.sz) q.trapframe {q.trapframe}) :
    Total (freeproc p) k₁ fun _ k' => SlotFreed X k k' p q m := by
  have htf : q.trapframe ≠ 0 := by
    apply frame_ne_zero
    apply hspace.space.valid
    apply Multiset.mem_of_le hspace.space.held_le
    exact Multiset.mem_add.mpr (Or.inr (Multiset.mem_singleton_self _))
  have hpt : q.pagetable ≠ 0 := by
    apply frame_ne_zero
    apply hspace.space.valid
    exact Multiset.mem_of_le hspace.space.tables_le root_mem_tables
  have hheld : Space X m q.pagetable g
      (q.trapframe ::ₘ framesOf g 0 (pageCount q.sz)) := by
    rw [← Multiset.singleton_add, add_comm]
    exact hspace.space
  rw [freeproc]
  apply h.bind_getProc
  rw [when, if_pos htf, when, if_pos hpt]
  apply h.bind_inMem hheld.kfree_spec
  intro _ m₁ k₂ hm₁ h₂
  have huser : UserSpace X m₁ q.pagetable g (pageCount q.sz) q.trapframe 0 := by
    refine ⟨?_, hspace.map⟩
    rw [add_zero]
    exact hm₁.1
  apply h₂.bind_inMem (procFreepagetable_spec huser)
  intro _ m₂ k₃ hm₂ h₃
  apply h₃.end_setProc
  intro k' h'
  have hmem := h'.mem
  subst hmem
  refine ⟨h', ?_, hm₁.2.1.trans hm₂.1⟩
  rw [← hm₂.2.frames, add_zero]

/-! ## `allocproc` -/

def Kernel.canAlloc (k : Kernel) : Prop :=
  k.unusedSlot.isSome ∧ 4 ≤ k.mem.freelist.length

/-- What `freeproc` leaves of a slot is what an `UNUSED` slot has. -/
def Proc.Cleared (q : Proc) : Prop := q.reset = q

def Kernel.Vacant (k : Kernel) : Prop :=
  ∀ np < nproc, (k.proc np).state = .unused →
    (k.proc np).pagetable = 0 ∧ (k.proc np).trapframe = 0 ∧ (k.proc np).sz = 0

/-- A call that failed for want of a slot or of pages: the slot that it chose is
cleared, and the same pages are free. -/
structure GivenUp (k k' : Kernel) : Prop where
  chosen : ∀ np, k.unusedSlot = some np → (k'.proc np).Cleared ∧
    (k'.proc np).ofile = (k.proc np).ofile ∧ (k'.proc np).cwd = (k.proc np).cwd
  others : ∀ q, k.unusedSlot ≠ some q → k'.proc q = k.proc q
  free : (↑k'.mem.freelist : Multiset Nat) = ↑k.mem.freelist
  within : Within ↑k.mem.freelist k.mem k'.mem
  initproc : k'.initproc = k.initproc

/-- A call that failed: no slot changed, and the same pages are free. -/
structure Refused (k k' : Kernel) : Prop where
  keeps : ∀ q, Keeps (k.proc q) (k'.proc q)
  free : (↑k'.mem.freelist : Multiset Nat) = ↑k.mem.freelist
  within : Within ↑k.mem.freelist k.mem k'.mem
  initproc : k'.initproc = k.initproc

structure Allocated (k k' : Kernel) (np : Nat) : Prop where
  found : k.unusedSlot = some np
  lt : np < nproc
  was : (k.proc np).state = .unused
  proc : k'.proc np =
    { k.proc np with
      pid := k.nextpid
      state := .used
      trapframe := (k'.proc np).trapframe
      pagetable := (k'.proc np).pagetable
      context := { ra := Image.forkret, sp := kstack np + pgSize } }
  others : ∀ q, q ≠ np → k'.proc q = k.proc q
  within : Within ↑k.mem.freelist k.mem k'.mem
  space : ∃ g, UserSpace ↑k.mem.freelist k'.mem (k'.proc np).pagetable g 0
    (k'.proc np).trapframe {(k'.proc np).trapframe}
  fill : ∀ i, k'.mem.page (k'.proc np).trapframe i = 5 * 0x0101010101010101
  length : k'.mem.freelist.length + 4 = k.mem.freelist.length
  initproc : k'.initproc = k.initproc

theorem Refused.inv {pool : Multiset Nat} {k' : Kernel} (h : Inv pool k)
    (href : Refused k k') : Inv pool k' :=
  h.keep href.keeps href.free href.within

omit [Image] in
theorem unusedSlot_some (h : k.unusedSlot = some p) :
    p < nproc ∧ (k.proc p).state = .unused := by
  constructor
  case left => exact List.mem_range.mp (List.mem_of_find?_eq_some h)
  case right =>
      have hfound := List.find?_some h
      exact of_decide_eq_true hfound

theorem Inv.vacant {pool : Multiset Nat} (h : Inv pool k) : k.Vacant :=
  fun np hnp => (h.slot np hnp).unused

omit [Image] in
theorem Proc.reset_cleared (q : Proc) : q.reset.Cleared := rfl

omit [Image] in
theorem keeps_cleared {q q' : Proc} (hs : q.state = .unused)
    (hpages : q.pagetable = 0 ∧ q.trapframe = 0 ∧ q.sz = 0) (hcleared : q'.Cleared)
    (hofile : q'.ofile = q.ofile) (hcwd : q'.cwd = q.cwd) : Keeps q q' := by
  obtain ⟨hpt, htf, hsz⟩ := hpages
  rw [← hcleared]
  constructor
  case pagetable => exact hpt.symm
  case trapframe => exact htf.symm
  case sz => exact hsz.symm
  case unused => exact ⟨fun _ => hs, fun _ => rfl⟩
  case zombie =>
      rw [hs]
      exact ⟨(nomatch ·), (nomatch ·)⟩
  case ofile => exact hofile
  case cwd => exact hcwd

omit [Image] in
theorem GivenUp.refused {k' : Kernel} (h : GivenUp k k') (hv : k.Vacant) : Refused k k' := by
  constructor
  case keeps =>
      intro i
      by_cases hi : k.unusedSlot = some i
      · obtain ⟨hlt, hs⟩ := unusedSlot_some hi
        obtain ⟨hcleared, hofile, hcwd⟩ := h.chosen i hi
        exact keeps_cleared hs (hv i hlt hs) hcleared hofile hcwd
      · rw [h.others i hi]
        exact Keeps.refl _
  case free => exact h.free
  case within => exact h.within
  case initproc => exact h.initproc

omit [Image] in
theorem SlotFreed.givenUp {k' : Kernel} (h : SlotFreed ↑k.mem.freelist k k' p q m)
    (hslot : k.unusedSlot = some p) (hofile : q.ofile = (k.proc p).ofile)
    (hcwd : q.cwd = (k.proc p).cwd) (hwithin : Within ↑k.mem.freelist k.mem m) :
    GivenUp k k' := by
  constructor
  case chosen =>
      intro np hnp
      obtain rfl : p = np := Option.some.inj (hslot.symm.trans hnp)
      rw [h.edited.self]
      exact ⟨q.reset_cleared, hofile, hcwd⟩
  case others =>
      intro i hi
      apply h.edited.others i
      rintro rfl
      exact hi hslot
  case free => exact h.free
  case within => exact hwithin.trans h.within
  case initproc => exact h.edited.initproc

omit [Image] in
theorem kalloc_count {m : Mem} : Total kalloc m fun result m' => match result with
    | none => m.freelist.length = 0
    | some _ => m'.freelist.length + 1 = m.freelist.length := by
  cases hlist : m.freelist with
  | nil => exact Total.of_eq (kalloc_nil hlist) rfl
  | cons q rest => exact Total.of_eq (kalloc_cons hlist) rfl

/-- A fresh page is full of the byte 5. -/
theorem kalloc_fill {m : Mem} (h : Stock X m 0) : Total kalloc m fun result m' =>
    ∀ q, result = some q → q ∉ m'.freelist ∧ ∀ i, m'.page q i = 5 * 0x0101010101010101 := by
  cases hlist : m.freelist with
  | nil => exact Total.of_eq (kalloc_nil hlist) fun _ => (nomatch ·)
  | cons r rest =>
      apply Total.of_eq (kalloc_cons hlist)
      intro q hq
      injection hq with hr
      subst hr
      have hnd := h.nodup
      rw [← h.frames, add_zero, hlist, Multiset.coe_nodup] at hnd
      refine ⟨(List.nodup_cons.mp hnd).1, ?_⟩
      intro i
      rw [taken, Mem.setPage_page_self]

theorem procPagetable_within {U : Multiset Nat} (h : Stock X m U) (tf : Nat) :
    Total (procPagetable tf) m fun _ m' => Within ↑m.freelist m m' := by
  have hle : ↑m.freelist ≤ X := by
    rw [← h.frames]
    exact Multiset.le_add_right _ _
  have hfree : Stock ↑m.freelist m 0 :=
    ⟨add_zero _, Multiset.nodup_of_le hle h.nodup,
      fun q hq => h.valid q (Multiset.mem_of_le hle hq)⟩
  exact (procPagetable_spec hfree tf).mono fun _ _ h => h.1

omit [Image] in
theorem givenUp_of_full (hslot : k.unusedSlot = none) : GivenUp k k := by
  refine ⟨?_, fun _ _ => rfl, rfl, Within.refl _ _, rfl⟩
  intro np hnp
  rw [hslot] at hnp
  cases hnp

theorem Edited.allocated {k' : Kernel} {np tf pagetable : Nat} {g : Nat → Nat}
    (h : Edited k k' np { k.proc np with
      pid := k.nextpid
      state := .used
      trapframe := tf
      pagetable := pagetable
      context := { ra := Image.forkret, sp := kstack np + pgSize } } m)
    (hslot : k.unusedSlot = some np) (hwithin : Within ↑k.mem.freelist k.mem m)
    (hspace : UserSpace ↑k.mem.freelist m pagetable g 0 tf {tf})
    (hfill : ∀ i, m.page tf i = 5 * 0x0101010101010101)
    (hlength : m.freelist.length + 4 = k.mem.freelist.length) : Allocated k k' np := by
  have hproc := h.self
  have hmem := h.mem
  subst hmem
  constructor
  case found => exact hslot
  case lt => exact (unusedSlot_some hslot).1
  case was => exact (unusedSlot_some hslot).2
  case proc => rw [hproc]
  case others => exact h.others
  case within => exact hwithin
  case space =>
      rw [hproc]
      exact ⟨g, hspace⟩
  case fill =>
      rw [hproc]
      exact hfill
  case length => exact hlength
  case initproc => exact h.initproc

theorem allocproc_run (hstock : Stock ↑k.mem.freelist k.mem 0) (hv : k.Vacant) :
    Total allocproc k fun result k' => match result with
      | none => GivenUp k k' ∧ ¬ k.canAlloc
      | some np => Allocated k k' np ∧ k.canAlloc := by
  have hget : (get : KernelM Kernel) k = .ok (k, k) := rfl
  rw [allocproc]
  apply Total.bind_eq hget
  cases hslot : k.unusedSlot with
  | none =>
      apply Total.pure
      refine ⟨givenUp_of_full hslot, ?_⟩
      intro hcan
      rw [Kernel.canAlloc, hslot] at hcan
      exact absurd hcan.1 (by decide)
  | some np =>
      obtain ⟨hlt, hs⟩ := unusedSlot_some hslot
      obtain ⟨hpt, -, hsz⟩ := hv np hlt hs
      have hpid : allocpid k = .ok (k.nextpid, { k with nextpid := k.nextpid + 1 }) := rfl
      have hstart : Edited k { k with nextpid := k.nextpid + 1 } np (k.proc np) k.mem :=
        ⟨rfl, rfl, fun _ _ => rfl, rfl⟩
      apply Total.bind_eq hpid
      apply hstart.bind_setProc
      intro k₁ h₁
      apply h₁.bind_inMem ((hstock.kalloc_spec.and kalloc_count).and (kalloc_fill hstock))
      intro result m₁ k₂ hm₁ h₂
      obtain ⟨⟨⟨hwithin₁, hresult⟩, hcount₁⟩, hfill⟩ := hm₁
      cases result with
      | none =>
          have hsame : m₁ = k.mem := hresult
          have hempty : k.mem.freelist.length = 0 := hcount₁
          subst hsame
          apply h₂.bind_setProc
          intro k₃ h₃
          apply Total.bind (freeproc_none h₃ rfl hpt)
          intro _ k' hfreed
          apply Total.pure
          refine ⟨hfreed.givenUp hslot rfl rfl (Within.refl _ _), ?_⟩
          intro hcan
          have henough := hcan.2
          omega
      | some tf =>
          have hstock₁ : Stock ↑k.mem.freelist m₁ {tf} := hresult
          have hlength₁ : m₁.freelist.length + 1 = k.mem.freelist.length := hcount₁
          apply h₂.bind_setProc
          intro k₃ h₃
          apply h₃.bind_inMem (((procPagetable_spec hstock₁ tf).and
            (procPagetable_count hstock₁ tf)).and (procPagetable_within hstock₁ tf))
          intro result m₂ k₄ hm₂ h₄
          obtain ⟨⟨⟨hwithin₂, hresult₂⟩, hcount₂⟩, hfree₂⟩ := hm₂
          have hwithin := hwithin₁.trans hwithin₂
          cases result with
          | none =>
              have hshort : m₁.freelist.length < 3 := hcount₂
              apply h₄.bind_setProc
              intro k₅ h₅
              apply Total.bind (freeproc_trapframe h₅ hresult₂ rfl)
              intro _ k' hfreed
              apply Total.pure
              refine ⟨hfreed.givenUp hslot rfl rfl hwithin, ?_⟩
              intro hcan
              have henough := hcan.2
              omega
          | some pagetable =>
              have hlength₂ : m₂.freelist.length + 3 = m₁.freelist.length := hcount₂
              obtain ⟨g, hspace⟩ := hresult₂
              obtain ⟨hbusy, hfive⟩ := hfill tf rfl
              have hkept : m₂.page tf = m₁.page tf :=
                hfree₂.page tf (mt Multiset.mem_coe.mp hbusy)
              rw [← hkept] at hfive
              have hlength : m₂.freelist.length + 4 = k.mem.freelist.length := by omega
              apply h₄.bind_setProc
              intro k' h'
              apply Total.pure
              refine ⟨h'.allocated hslot hwithin hspace hfive hlength, ?_, by omega⟩
              rw [hslot]
              rfl

theorem allocproc_spec {pool : Multiset Nat} (h : Inv pool k) :
    Total allocproc k fun result k' => match result with
      | none => Refused k k' ∧ ¬ k.canAlloc
      | some np => Allocated k k' np ∧ k.canAlloc := by
  apply (allocproc_run h.stock h.vacant).mono
  intro result k' hk'
  cases result with
  | none => exact ⟨hk'.1.refused h.vacant, hk'.2⟩
  | some np => exact hk'

end SyscallSched.Xv6
