import Mathlib.Algebra.BigOperators.Group.Multiset.Basic
import Mathlib.Data.List.TakeWhile
import Mathlib.Order.Interval.Finset.Nat
import Mathlib.Tactic.Abel
import SyscallSched.Foundation.LinkedRing
import SyscallSched.Umalloc.Model

/-!
# The list of free blocks

The free list is a cycle through `base` in ascending order, and there is memory of
others between any two of its blocks.  What `malloc` and `free` do to it replaces some
blocks in its middle.
-/

namespace SyscallSched.Umalloc

open SyscallSched.Foundation

def Heap.own (h : Heap) (l : List Nat) : Multiset Nat :=
  (l.map fun a => Multiset.Ico a (h.blockEnd a)).sum

def Heap.Apart (h : Heap) (a b : Nat) : Prop := h.blockEnd a ≤ b ∨ h.blockEnd b ≤ a

structure FreeList (base : Nat) (h : Heap) (l : List Nat) : Prop where
  first : ∃ rest, l = base :: rest
  path : Path (fun a => (h.header a).ptr) l base
  gaps : l.Pairwise fun a b => h.blockEnd a < b
  zero : (h.header base).size = 0
  pos : ∀ a ∈ l, a ≠ base → 0 < (h.header a).size

def Heap.set (h : Heap) (a : Nat) (hd : Header) : Heap :=
  { h with header := Function.update h.header a hd }

section

variable {base bp p q : Nat} {h h' : Heap} {l A B C D : List Nat} {hd : Header}

theorem le_blockEnd (h : Heap) (a : Nat) : a ≤ h.blockEnd a := Nat.le_add_right a _

theorem lt_blockEnd {a : Nat} (hsize : 0 < (h.header a).size) : a < h.blockEnd a := by
  rw [Heap.blockEnd, sizeofHeader]
  omega

theorem exists_shared {a b : Nat} (hover : ¬h.Apart a b) (ha : a < h.blockEnd a)
    (hb : b < h.blockEnd b) :
    ∃ x, (a ≤ x ∧ x < h.blockEnd a) ∧ b ≤ x ∧ x < h.blockEnd b := by
  rw [Heap.Apart] at hover
  exact ⟨max a b, by omega⟩

theorem blockEnd_congr {a : Nat} (hsize : (h'.header a).size = (h.header a).size) :
    h'.blockEnd a = h.blockEnd a := by
  rw [Heap.blockEnd, hsize, Heap.blockEnd]

theorem own_congr (hsize : ∀ a ∈ l, (h'.header a).size = (h.header a).size) :
    h'.own l = h.own l := by
  have hmap : (l.map fun a => Multiset.Ico a (h'.blockEnd a)) =
      l.map fun a => Multiset.Ico a (h.blockEnd a) := by
    apply List.map_congr_left
    intro a ha
    rw [blockEnd_congr (hsize a ha)]
  rw [Heap.own, hmap, Heap.own]

@[simp] theorem own_nil (h : Heap) : h.own [] = 0 := rfl

theorem own_cons (h : Heap) (a : Nat) (l : List Nat) :
    h.own (a :: l) = Multiset.Ico a (h.blockEnd a) + h.own l := by
  rw [Heap.own, List.map_cons, List.sum_cons, Heap.own]

theorem own_append (h : Heap) (l l' : List Nat) : h.own (l ++ l') = h.own l + h.own l' := by
  rw [Heap.own, List.map_append, List.sum_append, Heap.own, Heap.own]

@[simp] theorem set_header_self : (h.set p hd).header p = hd := Function.update_self _ _ _

@[simp] theorem set_header_ne (hq : q ≠ p) : (h.set p hd).header q = h.header q :=
  Function.update_of_ne hq _ _

theorem own_splice {x y : Multiset Nat} (hsame : ∀ a ∈ A ++ B, h'.header a = h.header a)
    (hown : h'.own (p :: C) + x = h.own (p :: D) + y) :
    h'.own (A ++ p :: (C ++ B)) + x = h.own (A ++ p :: (D ++ B)) + y := by
  have hA : h'.own A = h.own A :=
    own_congr fun a ha => congrArg Header.size (hsame a (List.mem_append_left _ ha))
  have hB : h'.own B = h.own B :=
    own_congr fun b hb => congrArg Header.size (hsame b (List.mem_append_right _ hb))
  have hmove : ∀ a b c d : Multiset Nat, a + (b + c) + d = a + c + (b + d) := by
    intro a b c d
    abel
  rw [← List.cons_append, ← List.cons_append, own_append, own_append, own_append, own_append,
    hA, hB, hmove, hmove, hown]

/-! ## Order -/

namespace FreeList

theorem lt (hl : FreeList base h (A ++ p :: B)) :
    (∀ a ∈ A, h.blockEnd a < p) ∧ ∀ b ∈ B, h.blockEnd p < b := by
  have hgaps := hl.gaps
  rw [List.pairwise_append] at hgaps
  constructor
  · intro a ha
    exact hgaps.2.2 a ha p List.mem_cons_self
  · intro b hb
    exact (List.pairwise_cons.mp hgaps.2.1).1 b hb

theorem next (hl : FreeList base h (A ++ p :: B)) : (h.header p).ptr = B.headD base :=
  (Path.split_iff.mp hl.path).2.1

theorem base_le (hl : FreeList base h l) {a : Nat} (ha : a ∈ l) : base ≤ a := by
  obtain ⟨rest, rfl⟩ := hl.first
  cases List.mem_cons.mp ha with
  | inl heq => exact heq.ge
  | inr hmem =>
      have hgap := (List.pairwise_cons.mp hl.gaps).1 a hmem
      exact (le_blockEnd h base).trans hgap.le

theorem base_mem (hl : FreeList base h l) : base ∈ l := by
  obtain ⟨rest, rfl⟩ := hl.first
  exact List.mem_cons_self

theorem blockEnd_base (hl : FreeList base h l) : h.blockEnd base = base := by
  rw [Heap.blockEnd, hl.zero, Nat.mul_zero, Nat.add_zero]

theorem nodup (hl : FreeList base h l) : l.Nodup :=
  hl.gaps.imp fun {a _} hgap => ((le_blockEnd h a).trans_lt hgap).ne

theorem place (hl : FreeList base h l) (hbase : base < bp) (hsize : 0 < (h.header bp).size)
    (hapart : ∀ a ∈ l, h.Apart a bp) :
    ∃ A p B, l = A ++ p :: B ∧ p < bp ∧ h.blockEnd p ≤ bp ∧ ∀ b ∈ B, h.blockEnd bp ≤ b := by
  have hend : bp < h.blockEnd bp := lt_blockEnd hsize
  have hbelow : ∀ a ∈ l, a < bp → h.blockEnd a ≤ bp := by
    intro a ha hlt
    cases hapart a ha with
    | inl hle => exact hle
    | inr hover => omega
  have habove : ∀ b ∈ l, bp ≤ b → h.blockEnd bp ≤ b := by
    intro b hb hle
    cases hapart b hb with
    | inl hover =>
        have hpos := lt_blockEnd (hl.pos b hb (by omega))
        omega
    | inr hge => exact hge
  have hne : l.takeWhile (· < bp) ≠ [] := by
    obtain ⟨rest, hrest⟩ := hl.first
    rw [hrest, List.takeWhile_cons_of_pos (by simpa using hbase)]
    exact List.cons_ne_nil _ _
  obtain ⟨A, p, hA⟩ := (List.eq_nil_or_concat' (l.takeWhile (· < bp))).resolve_left hne
  have hsplit : l = A ++ p :: l.dropWhile (· < bp) := by
    have hwhole := List.takeWhile_append_dropWhile (p := (· < bp)) (l := l)
    rw [hA, List.append_assoc, List.singleton_append] at hwhole
    exact hwhole.symm
  have hlt : p < bp := by
    have hmem : p ∈ l.takeWhile (· < bp) := by
      rw [hA]
      exact List.mem_append_right _ (List.mem_singleton_self p)
    simpa using List.mem_takeWhile_imp hmem
  have hp : p ∈ l := by
    rw [hsplit]
    exact List.mem_append_right _ List.mem_cons_self
  refine ⟨A, p, _, hsplit, hlt, hbelow p hp hlt, ?_⟩
  -- the first block that is not below `bp`, and so those behind it, are above
  intro b hb
  have hbl : b ∈ l := (List.dropWhile_sublist _).mem hb
  refine habove b hbl ?_
  obtain ⟨c, rest, hdrop⟩ := List.exists_cons_of_ne_nil (List.ne_nil_of_mem hb)
  have hc : bp ≤ c := by
    have hhead := List.dropWhile_get_zero_not (· < bp) l (by rw [hdrop]; exact Nat.succ_pos _)
    simpa [hdrop] using hhead
  rw [hdrop] at hb hsplit
  cases List.mem_cons.mp hb with
  | inl heq => exact heq ▸ hc
  | inr hrest =>
      have hgaps := hl.gaps
      rw [hsplit, List.pairwise_append, List.pairwise_cons, List.pairwise_cons] at hgaps
      have hgap := hgaps.2.1.2.1 b hrest
      have hle := le_blockEnd h c
      omega

theorem splice (hl : FreeList base h (A ++ p :: (D ++ B)))
    (hsame : ∀ a ∈ A ++ B, h'.header a = h.header a)
    (hpath : Path (fun a => (h'.header a).ptr) (p :: C) (B.headD base))
    (hgaps : (p :: C).Pairwise fun a b => h'.blockEnd a < b)
    (habove : ∀ c ∈ p :: C, ∀ b ∈ B, h'.blockEnd c < b)
    (hzero : p = base → (h'.header p).size = 0)
    (hpos : ∀ c ∈ p :: C, c ≠ base → 0 < (h'.header c).size) :
    FreeList base h' (A ++ p :: (C ++ B)) := by
  obtain ⟨hA, -, hDB⟩ := Path.split_iff.mp hl.path
  have hold := hl.gaps
  rw [List.pairwise_append, List.pairwise_cons, List.pairwise_append] at hold
  have hends : ∀ a ∈ A ++ B, h'.blockEnd a = h.blockEnd a :=
    fun a ha => blockEnd_congr (congrArg Header.size (hsame a ha))
  have hsub : A ++ B ⊆ A ++ p :: (D ++ B) := by
    intro a ha
    simp only [List.mem_append, List.mem_cons] at ha ⊢
    tauto
  constructor
  case first =>
    obtain ⟨rest, hrest⟩ := hl.first
    cases A with
    | nil =>
        rw [List.nil_append, List.cons.injEq] at hrest
        exact ⟨C ++ B, by rw [hrest.1, List.nil_append]⟩
    | cons a A =>
        rw [List.cons_append, List.cons.injEq] at hrest
        exact ⟨A ++ p :: (C ++ B), by rw [hrest.1, List.cons_append]⟩
  case path =>
    have hA' : Path (fun a => (h'.header a).ptr) A p :=
      hA.congr fun a ha => congrArg Header.ptr (hsame a (List.mem_append_left _ ha))
    have hB' : Path (fun a => (h'.header a).ptr) B base :=
      (Path.append_iff.mp hDB).2.congr
        fun b hb => congrArg Header.ptr (hsame b (List.mem_append_right _ hb))
    exact Path.append_iff.mpr ⟨hA', (Path.append_iff (l := p :: C)).mpr ⟨hpath, hB'⟩⟩
  case gaps =>
    have hC := List.pairwise_cons.mp hgaps
    have hp : ∀ c ∈ C, p < c := fun c hc => (le_blockEnd h' p).trans_lt (hC.1 c hc)
    rw [← List.cons_append, List.pairwise_append, List.pairwise_append]
    refine ⟨?_, ⟨hgaps, ?_, habove⟩, ?_⟩
    · refine hold.1.imp_of_mem fun {a b} ha _ hgap => ?_
      rw [hends a (List.mem_append_left _ ha)]
      exact hgap
    · refine hold.2.1.2.2.1.imp_of_mem fun {a b} ha _ hgap => ?_
      rw [hends a (List.mem_append_right _ ha)]
      exact hgap
    · intro a ha c hc
      rw [hends a (List.mem_append_left _ ha)]
      have hap := hl.lt.1 a ha
      cases List.mem_append.mp hc with
      | inl hc =>
          cases List.mem_cons.mp hc with
          | inl heq => exact heq ▸ hap
          | inr hc => exact hap.trans (hp c hc)
      | inr hc =>
          exact hold.2.2 a ha c (List.mem_cons_of_mem p (List.mem_append_right D hc))
  case zero =>
    by_cases hbase : p = base
    · exact hbase ▸ hzero hbase
    · have hmem : base ∈ A := by
        obtain ⟨rest, hrest⟩ := hl.first
        cases A with
        | nil =>
            rw [List.nil_append, List.cons.injEq] at hrest
            exact absurd hrest.1 hbase
        | cons a A =>
            rw [List.cons_append, List.cons.injEq] at hrest
            exact hrest.1 ▸ List.mem_cons_self
      rw [hsame base (List.mem_append_left _ hmem)]
      exact hl.zero
  case pos =>
    intro a ha hne
    have hcases : a ∈ p :: C ∨ a ∈ A ++ B := by
      simp only [List.mem_append, List.mem_cons] at ha ⊢
      tauto
    cases hcases with
    | inl ha => exact hpos a ha hne
    | inr ha =>
        rw [hsame a ha]
        exact hl.pos a (hsub ha) hne

end FreeList

end

end SyscallSched.Umalloc
