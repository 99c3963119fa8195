import SyscallSched.Xv6.Budget
import SyscallSched.Xv6.Load
import SyscallSched.Xv6.Proc

/-!
# Who owns which page

The share of a slot are its table pages, its user pages and its trapframe.
`Inv` says that the free list and the shares of all slots make up the pool,
every page once.  A call that changes one slot and pays for the change from the
free list keeps `Inv`.
-/

namespace SyscallSched.Xv6

open SyscallSched.Foundation

@[irreducible] def slots : Finset Nat := Finset.range nproc

theorem mem_slots {p : Nat} : p ∈ slots ↔ p < nproc := by
  rw [slots, Finset.mem_range]

def Proc.frames (m : Mem) (q : Proc) : Multiset Nat :=
  if q.state = .unused then 0
  else tables m 2 q.pagetable +
    (framesOf (leafAt m 2 q.pagetable) 0 (pageCount q.sz) + {q.trapframe})

variable [Image]

structure SlotOk (m : Mem) (q : Proc) : Prop where
  unused : q.state = .unused → q.pagetable = 0 ∧ q.trapframe = 0 ∧ q.sz = 0
  shaped : q.state ≠ .unused → Shaped m 2 q.pagetable
  map : q.state ≠ .unused →
    UserMap (leafAt m 2 q.pagetable) (pageCount q.sz) q.trapframe
  files : ∀ fd, q.ofile fd = none
  cwd : q.state ≠ .unused → q.state ≠ .zombie → q.cwd ≠ none

structure Inv (pool : Multiset Nat) (k : Kernel) : Prop where
  frames : ↑k.mem.freelist + ∑ p ∈ slots, (k.proc p).frames k.mem = pool
  nodup : pool.Nodup
  valid : ∀ q ∈ pool, Frame q
  refreed : k.mem.refreed = []
  slot : ∀ p < nproc, SlotOk k.mem (k.proc p)

/-! ## One slot -/

section

variable {X U : Multiset Nat} {m m' : Mem} {q q' : Proc} {g : Nat → Nat}

omit [Image] in
theorem Proc.frames_unused (h : q.state = .unused) : q.frames m = 0 := if_pos h

omit [Image] in
theorem Proc.frames_live (h : q.state ≠ .unused) : q.frames m =
    tables m 2 q.pagetable +
      (framesOf (leafAt m 2 q.pagetable) 0 (pageCount q.sz) + {q.trapframe}) :=
  if_neg h

structure Keeps (q q' : Proc) : Prop where
  pagetable : q'.pagetable = q.pagetable
  trapframe : q'.trapframe = q.trapframe
  sz : q'.sz = q.sz
  unused : q'.state = .unused ↔ q.state = .unused
  zombie : q'.state = .zombie ↔ q.state = .zombie
  ofile : q'.ofile = q.ofile
  cwd : q'.cwd = q.cwd

omit [Image] in
theorem Keeps.refl (q : Proc) : Keeps q q :=
  ⟨rfl, rfl, rfl, Iff.rfl, Iff.rfl, rfl, rfl⟩

omit [Image] in
theorem Keeps.trans {q'' : Proc} (h : Keeps q q') (h' : Keeps q' q'') : Keeps q q'' :=
  ⟨h'.pagetable.trans h.pagetable, h'.trapframe.trans h.trapframe, h'.sz.trans h.sz,
    h'.unused.trans h.unused, h'.zombie.trans h.zombie, h'.ofile.trans h.ofile,
    h'.cwd.trans h.cwd⟩

omit [Image] in
theorem Keeps.frames_eq (h : Keeps q q')
    (hagree : q.state ≠ .unused → Agree m m' 2 q.pagetable) :
    q'.frames m' = q.frames m := by
  by_cases hs : q.state = .unused
  · rw [Proc.frames_unused hs, Proc.frames_unused (h.unused.mpr hs)]
  · have hleaf : ∀ v, leafAt m' 2 q.pagetable v = leafAt m 2 q.pagetable v :=
      fun v => (hagree hs).leafAt_eq
    rw [Proc.frames_live hs, Proc.frames_live (mt h.unused.mp hs), h.pagetable,
      h.trapframe, h.sz, (hagree hs).tables_eq, framesOf_congr (fun i _ => hleaf _)]

theorem SlotOk.keeps (hok : SlotOk m q) (h : Keeps q q')
    (hagree : q.state ≠ .unused → Agree m m' 2 q.pagetable) : SlotOk m' q' := by
  constructor
  case unused =>
      intro hs
      rw [h.pagetable, h.trapframe, h.sz]
      exact hok.unused (h.unused.mp hs)
  case shaped =>
      intro hs
      have hq := mt h.unused.mpr hs
      rw [h.pagetable]
      exact (hagree hq).shaped (hok.shaped hq)
  case map =>
      intro hs
      have hq := mt h.unused.mpr hs
      have hleaf : leafAt m' 2 q.pagetable = leafAt m 2 q.pagetable :=
        funext fun v => (hagree hq).leafAt_eq
      rw [h.pagetable, h.sz, h.trapframe, hleaf]
      exact hok.map hq
  case files =>
      intro fd
      rw [h.ofile]
      exact hok.files fd
  case cwd =>
      intro hs hz
      rw [h.cwd]
      exact hok.cwd (mt h.unused.mpr hs) (mt h.zombie.mpr hz)

theorem UserSpace.frames_eq
    (h : UserSpace X m q.pagetable g (pageCount q.sz) q.trapframe {q.trapframe})
    (hs : q.state ≠ .unused) : ↑m.freelist + q.frames m = X := by
  have hn := h.pages_le
  have hframes : framesOf (leafAt m 2 q.pagetable) 0 (pageCount q.sz) =
      framesOf g 0 (pageCount q.sz) :=
    framesOf_congr fun i hi => h.space.leaf _ (by omega)
  rw [Proc.frames_live hs, hframes, ← add_assoc, h.space.frames]

theorem UserSpace.leaf_map {r n tf : Nat} (h : UserSpace X m r g n tf U) :
    UserMap (leafAt m 2 r) n tf := by
  have hn := h.pages_le
  exact h.map.congr (by omega) h.space.leaf

end

/-! ## All slots -/

section

variable {pool : Multiset Nat} {k k' : Kernel} {p : Nat}

theorem Inv.share_le (h : Inv pool k) (hp : p < nproc) :
    ↑k.mem.freelist + (k.proc p).frames k.mem ≤ pool := by
  rw [← h.frames]
  apply Multiset.add_le_add_left
  exact share_le_sum (f := fun p => (k.proc p).frames k.mem) (mem_slots.mpr hp)

theorem Inv.shares_disjoint {q : Nat} (h : Inv pool k) (hp : p < nproc) (hq : q < nproc)
    (hqp : q ≠ p) : Disjoint ((k.proc q).frames k.mem)
      (↑k.mem.freelist + (k.proc p).frames k.mem) := by
  have hnd := h.nodup
  rw [← h.frames] at hnd
  obtain ⟨-, hsum, hfree⟩ := Multiset.nodup_add.mp hnd
  have hle := share_le_sum (f := fun p => (k.proc p).frames k.mem) (mem_slots.mpr hq)
  have hpair := Foundation.shares_disjoint hsum (mem_slots.mpr hq) (mem_slots.mpr hp) hqp
  rw [Multiset.disjoint_left] at hfree hpair ⊢
  intro f hf hf'
  cases Multiset.mem_add.mp hf' with
  | inl hmem => exact hfree hmem (Multiset.mem_of_le hle hf)
  | inr hmem => exact hpair hf hmem

omit [Image] in
theorem tables_le_frames {m : Mem} {q : Proc} (hs : q.state ≠ .unused) :
    tables m 2 q.pagetable ≤ q.frames m := by
  rw [Proc.frames_live hs]
  exact Multiset.le_add_right _ _

theorem Inv.userSpace (h : Inv pool k) (hp : p < nproc)
    (hs : (k.proc p).state ≠ .unused) :
    UserSpace (↑k.mem.freelist + (k.proc p).frames k.mem) k.mem (k.proc p).pagetable
      (leafAt k.mem 2 (k.proc p).pagetable) (pageCount (k.proc p).sz)
      (k.proc p).trapframe {(k.proc p).trapframe} := by
  constructor
  case space =>
      constructor
      case frames => rw [Proc.frames_live hs, add_assoc]
      case nodup => exact Multiset.nodup_of_le (h.share_le hp) h.nodup
      case valid => exact fun q hq => h.valid q (Multiset.mem_of_le (h.share_le hp) hq)
      case shaped => exact (h.slot p hp).shaped hs
      case leaf => exact fun _ _ => rfl
  case map => exact (h.slot p hp).map hs

theorem Inv.stock (h : Inv pool k) : Stock ↑k.mem.freelist k.mem 0 := by
  have hle : ↑k.mem.freelist ≤ pool := by
    rw [← h.frames]
    exact Multiset.le_add_right _ _
  constructor
  case frames => exact add_zero _
  case nodup => exact Multiset.nodup_of_le hle h.nodup
  case valid => exact fun q hq => h.valid q (Multiset.mem_of_le hle hq)

theorem Inv.change (h : Inv pool k) (hp : p < nproc)
    (hothers : ∀ q, q ≠ p → Keeps (k.proc q) (k'.proc q))
    (hwithin : Within (↑k.mem.freelist + (k.proc p).frames k.mem) k.mem k'.mem)
    (hpaid : ↑k'.mem.freelist + (k'.proc p).frames k'.mem =
      ↑k.mem.freelist + (k.proc p).frames k.mem)
    (hslot : SlotOk k'.mem (k'.proc p)) : Inv pool k' := by
  have hagree : ∀ q < nproc, q ≠ p → (k.proc q).state ≠ .unused →
      Agree k.mem k'.mem 2 (k.proc q).pagetable := by
    intro q hq hqp hs
    apply hwithin.agree
    exact (h.shares_disjoint hp hq hqp).mono_left (tables_le_frames hs)
  constructor
  case frames =>
      rw [← h.frames]
      apply stock_change_share (mem_slots.mpr hp) ?_ hpaid
      intro q hq hqp
      exact (hothers q hqp).frames_eq (hagree q (mem_slots.mp hq) hqp)
  case nodup => exact h.nodup
  case valid => exact h.valid
  case refreed => rw [hwithin.refreed, h.refreed]
  case slot =>
      intro q hq
      by_cases hqp : q = p
      · rw [hqp]
        exact hslot
      · exact (h.slot q hq).keeps (hothers q hqp) (hagree q hq hqp)

theorem Inv.keep (h : Inv pool k) (hall : ∀ q, Keeps (k.proc q) (k'.proc q))
    (hfree : (↑k'.mem.freelist : Multiset Nat) = ↑k.mem.freelist)
    (hwithin : Within ↑k.mem.freelist k.mem k'.mem) : Inv pool k' := by
  have hagree : ∀ q < nproc, (k.proc q).state ≠ .unused →
      Agree k.mem k'.mem 2 (k.proc q).pagetable := by
    intro q hq hs
    have hnd := Multiset.nodup_of_le (h.share_le hq) h.nodup
    apply hwithin.agree
    exact ((Multiset.nodup_add.mp hnd).2.2.mono_right (tables_le_frames hs)).symm
  constructor
  case frames =>
      rw [← h.frames, hfree]
      congr 1
      apply Finset.sum_congr rfl
      intro q hq
      exact (hall q).frames_eq (hagree q (mem_slots.mp hq))
  case nodup => exact h.nodup
  case valid => exact h.valid
  case refreed => rw [hwithin.refreed, h.refreed]
  case slot => exact fun q hq => (h.slot q hq).keeps (hall q) (hagree q hq)

end

end SyscallSched.Xv6
