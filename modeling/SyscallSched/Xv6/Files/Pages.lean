import SyscallSched.Xv6.Family.Refine
import SyscallSched.Xv6.Files.Refs
import SyscallSched.Xv6.Safety

/-!
# The pages of pipes

A pipe has a page from `pipealloc` on until both of its ends are closed.  The free
pages, the pages of processes and those of pipes make up the pool.
-/

namespace SyscallSched.Xv6

open SyscallSched.Foundation

variable [Image]

structure PagesInv (pool : Multiset Nat) (k : Kernel) (pipe : Nat → Pipe) : Prop where
  nodup : pool.Nodup
  valid : ∀ q ∈ pool, Frame q
  parts : ∃ (X : Multiset Nat) (P : Finset Nat), Inv X k.closed ∧ X + P.val = pool ∧
    ∀ pi, pi ∈ P ↔ ∃ writable, (pipe pi).isOpen writable = true

section

variable {pool X X' : Multiset Nat} {k k' : Kernel} {pipe : Nat → Pipe} {pi : Nat}

omit [Image] in
theorem Keeps.closed {q q' : Proc} (h : Keeps q q') : Keeps q.closed q'.closed :=
  ⟨h.pagetable, h.trapframe, h.sz, h.unused, h.zombie, rfl, h.cwd⟩

theorem PagesInv.keep (h : PagesInv pool k pipe) (hall : ∀ i, Keeps (k.proc i) (k'.proc i))
    (hmem : k'.mem = k.mem) : PagesInv pool k' pipe := by
  obtain ⟨X, P, hinv, hsum, hopen⟩ := h.parts
  have hclosed : k'.closed.mem = k.closed.mem := hmem
  have hinv' : Inv X k'.closed := hinv.keep_mem (fun i => (hall i).closed) hclosed
  exact ⟨h.nodup, h.valid, X, P, hinv', hsum, hopen⟩

omit [Image] in
theorem closed_table (k : Kernel) : k.closed.table = k.table := rfl

theorem PagesInv.congr (h : PagesInv pool k pipe) (hclosed : k'.closed = k.closed) :
    PagesInv pool k' pipe := by
  obtain ⟨X, P, hinv, hsum, hopen⟩ := h.parts
  rw [← hclosed] at hinv
  exact ⟨h.nodup, h.valid, X, P, hinv, hsum, hopen⟩

theorem Inv.restock {m : Mem} (h : Inv X k)
    (hagree : ∀ q < nproc, (k.proc q).state ≠ .unused → Agree k.mem m 2 (k.proc q).pagetable)
    (hpool : ↑m.freelist + X = ↑k.mem.freelist + X') (hnodup : X'.Nodup)
    (hvalid : ∀ q ∈ X', Frame q) (hrefreed : m.refreed = []) :
    Inv X' { k with mem := m } := by
  constructor
  case frames =>
      have hsame : ∑ p ∈ slots, (k.proc p).frames m =
          ∑ p ∈ slots, (k.proc p).frames k.mem := by
        apply Finset.sum_congr rfl
        intro q hq
        exact (Keeps.refl _).frames_eq (hagree q (mem_slots.mp hq))
      change ↑m.freelist + ∑ p ∈ slots, (k.proc p).frames m = X'
      rw [hsame]
      rw [← h.frames, add_left_comm] at hpool
      exact add_left_cancel hpool
  case nodup => exact hnodup
  case valid => exact hvalid
  case refreed => exact hrefreed
  case slot => exact fun q hq => (h.slot q hq).keeps (Keeps.refl _) (hagree q hq)

omit [Image] in
theorem agree_of_page {m m' : Mem} {q : Proc} (hs : q.state ≠ .unused)
    (hwithin : Within {pi} m m') (hpi : pi ∉ q.frames m) : Agree m m' 2 q.pagetable := by
  apply hwithin.agree
  rw [Multiset.disjoint_right]
  intro f hf htable
  rw [Multiset.mem_singleton] at hf
  rw [hf] at htable
  exact hpi (Multiset.mem_of_le (tables_le_frames hs) htable)

theorem Inv.page_taken {rest : List Nat} (h : Inv (pi ::ₘ X) k)
    (hlist : k.mem.freelist = pi :: rest) : Inv X { k with mem := taken k.mem pi rest } := by
  have hset := within_setPage { k.mem with freelist := rest } pi
    (fun _ => 5 * 0x0101010101010101)
  have hwithin : Within {pi} k.mem (taken k.mem pi rest) := ⟨hset.page, hset.refreed⟩
  have hle : X ≤ pi ::ₘ X := Multiset.le_cons_self X pi
  apply h.restock
  · intro q hq hs
    apply agree_of_page hs hwithin
    intro hmem
    have hnd := Multiset.nodup_of_le (h.share_le hq) h.nodup
    apply Multiset.disjoint_left.mp (Multiset.nodup_add.mp hnd).2.2 ?_ hmem
    rw [hlist]
    exact List.mem_cons_self
  · change (↑rest : Multiset Nat) + (pi ::ₘ X) = ↑k.mem.freelist + X
    rw [hlist, ← Multiset.cons_coe, Multiset.add_cons, Multiset.cons_add]
  · exact Multiset.nodup_of_le hle h.nodup
  · exact fun q hq => h.valid q (Multiset.mem_of_le hle hq)
  · exact h.refreed

theorem Inv.page_freed (h : Inv X k) (hpi : Frame pi) (hnew : pi ∉ X) :
    Inv (pi ::ₘ X) { k with mem := Xv6.freed k.mem pi } := by
  have hfresh : pi ∉ k.mem.freelist := by
    intro hmem
    apply hnew
    rw [← h.frames]
    exact Multiset.mem_add.mpr (Or.inl (Multiset.mem_coe.mpr hmem))
  apply h.restock
  · intro q hq hs
    apply agree_of_page hs (within_freed hfresh)
    intro hmem
    apply hnew
    exact Multiset.mem_of_le ((Multiset.le_add_left _ _).trans (h.share_le hq)) hmem
  · change (↑(pi :: k.mem.freelist) : Multiset Nat) + X = ↑k.mem.freelist + (pi ::ₘ X)
    rw [← Multiset.cons_coe, Multiset.add_cons, Multiset.cons_add]
  · exact Multiset.nodup_cons.mpr ⟨hnew, h.nodup⟩
  · intro q hq
    cases Multiset.mem_cons.mp hq with
    | inl heq =>
        rw [heq]
        exact hpi
    | inr hmem => exact h.valid q hmem
  · change (if pi ∈ k.mem.freelist then pi :: k.mem.refreed else k.mem.refreed) = []
    rw [if_neg hfresh, h.refreed]

/-! ## Opening and closing -/

theorem PagesInv.kalloc_spec (h : PagesInv pool k pipe) :
    Total (inMem kalloc) k fun result k' => match result with
      | none => k' = k
      | some pi => ∃ m, k' = { k with mem := m } ∧
          (∀ writable, (pipe pi).isOpen writable = false) ∧
          PagesInv pool k' (Function.update pipe pi { readopen := true, writeopen := true }) := by
  obtain ⟨X, P, hinv, hsum, hopen⟩ := h.parts
  cases hlist : k.mem.freelist with
  | nil => exact Total.of_eq (inMem_run (kalloc_nil hlist)) rfl
  | cons pi rest =>
      apply Total.of_eq (inMem_run (kalloc_cons hlist))
      have hlist₀ : k.closed.mem.freelist = pi :: rest := hlist
      have hmem : pi ∈ X := by
        rw [← hinv.frames, hlist₀]
        exact Multiset.mem_add.mpr (Or.inl List.mem_cons_self)
      obtain ⟨X', hX⟩ := Multiset.exists_cons_of_mem hmem
      have hnd := h.nodup
      rw [← hsum] at hnd
      have hnotin : pi ∉ P :=
        fun hP => Multiset.disjoint_left.mp (Multiset.nodup_add.mp hnd).2.2 hmem hP
      rw [hX] at hinv
      refine ⟨_, rfl, ?_, h.nodup, h.valid, X', insert pi P, hinv.page_taken hlist₀, ?_, ?_⟩
      · intro writable
        rw [Bool.eq_false_iff]
        exact fun hw => hnotin ((hopen pi).mpr ⟨writable, hw⟩)
      · rw [Finset.insert_val_of_notMem hnotin, Multiset.add_cons, ← Multiset.cons_add, ← hX]
        exact hsum
      · intro pi'
        by_cases hpi : pi' = pi
        · subst hpi
          rw [Function.update_self]
          exact iff_of_true (Finset.mem_insert_self pi' P) ⟨true, rfl⟩
        · rw [Function.update_of_ne hpi, Finset.mem_insert, or_iff_right hpi]
          exact hopen pi'

/-- One end of a pipe is shut and the other is open. -/
theorem PagesInv.shut_one (h : PagesInv pool k pipe) {writable : Bool} {shut : Pipe}
    (hopen : (pipe pi).isOpen writable = true) (hstill : ∃ other, shut.isOpen other = true) :
    PagesInv pool k (Function.update pipe pi shut) := by
  obtain ⟨X, P, hinv, hsum, hmem⟩ := h.parts
  refine ⟨h.nodup, h.valid, X, P, hinv, hsum, ?_⟩
  intro pi'
  by_cases hpi : pi' = pi
  · subst hpi
    rw [Function.update_self]
    exact iff_of_true ((hmem pi').mpr ⟨writable, hopen⟩) hstill
  · rw [Function.update_of_ne hpi]
    exact hmem pi'

theorem PagesInv.kfree_spec (h : PagesInv pool k pipe) {writable : Bool} {shut : Pipe}
    (hopen : (pipe pi).isOpen writable = true) (hshut : ∀ other, shut.isOpen other = false) :
    Total (inMem (kfree pi)) k fun _ k' => ∃ m, k' = { k with mem := m } ∧
      PagesInv pool k' (Function.update pipe pi shut) := by
  obtain ⟨X, P, hinv, hsum, hmem⟩ := h.parts
  have hP : pi ∈ P := (hmem pi).mpr ⟨writable, hopen⟩
  have hnd := h.nodup
  rw [← hsum] at hnd
  have hnew : pi ∉ X :=
    fun hX => Multiset.disjoint_left.mp (Multiset.nodup_add.mp hnd).2.2 hX hP
  have hframe : Frame pi := by
    apply h.valid
    rw [← hsum]
    exact Multiset.mem_add.mpr (Or.inr hP)
  apply Total.of_eq (inMem_run (kfree_run hframe))
  refine ⟨_, rfl, h.nodup, h.valid, pi ::ₘ X, P.erase pi, hinv.page_freed hframe hnew, ?_, ?_⟩
  · rw [Multiset.cons_add, ← Multiset.add_cons, Finset.erase_val, Multiset.cons_erase hP]
    exact hsum
  · intro pi'
    by_cases hpi : pi' = pi
    · subst hpi
      rw [Function.update_self]
      apply iff_of_false (Finset.notMem_erase pi' P)
      rintro ⟨other, hother⟩
      rw [hshut other] at hother
      cases hother
    · rw [Function.update_of_ne hpi, Finset.mem_erase, and_iff_right hpi]
      exact hmem pi'

end

end SyscallSched.Xv6
