import Mathlib.Algebra.BigOperators.Group.Finset.Basic
import Mathlib.Data.Multiset.OrderedMonoid
import Mathlib.Data.Multiset.UnionInter

/-!
# Shares of a pool

Resources are owned in shares, a multiset for each owner.  When the sum of all
shares has no duplicates the shares are pairwise disjoint, and an operation
that changes one share changes the sum by exactly that change.
-/

namespace SyscallSched.Foundation

variable {ι α : Type} [DecidableEq ι]

theorem share_add_le_sum {s : Finset ι} {f : ι → Multiset α} {i j : ι}
    (hi : i ∈ s) (hj : j ∈ s) (hij : i ≠ j) : f i + f j ≤ ∑ k ∈ s, f k := by
  rw [← Finset.add_sum_erase s f hi]
  have hj' : j ∈ s.erase i := Finset.mem_erase.mpr ⟨hij.symm, hj⟩
  rw [← Finset.add_sum_erase (s.erase i) f hj', ← add_assoc]
  exact Multiset.le_add_right _ _

theorem share_le_sum {s : Finset ι} {f : ι → Multiset α} {i : ι} (hi : i ∈ s) :
    f i ≤ ∑ k ∈ s, f k := by
  rw [← Finset.add_sum_erase s f hi]
  exact Multiset.le_add_right _ _

theorem shares_disjoint {s : Finset ι} {f : ι → Multiset α}
    (h : (∑ k ∈ s, f k).Nodup) {i j : ι} (hi : i ∈ s) (hj : j ∈ s) (hij : i ≠ j) :
    Disjoint (f i) (f j) :=
  (Multiset.nodup_add.mp (Multiset.nodup_of_le (share_add_le_sum hi hj hij) h)).2.2

theorem sum_change_share {M : Type} [AddCommMonoid M] {s : Finset ι} {f g : ι → M} {i : ι}
    (hi : i ∈ s)
    (h : ∀ j ∈ s, j ≠ i → g j = f j) :
    ∑ k ∈ s, g k + f i = ∑ k ∈ s, f k + g i := by
  rw [← Finset.add_sum_erase s g hi, ← Finset.add_sum_erase s f hi]
  have hrest : ∑ k ∈ s.erase i, g k = ∑ k ∈ s.erase i, f k := by
    apply Finset.sum_congr rfl
    intro j hj
    exact h j (Finset.mem_of_mem_erase hj) (Finset.ne_of_mem_erase hj)
  rw [hrest, add_right_comm, add_comm (g i), add_right_comm, add_comm (f i)]

/-- A change of the share of `i` that is paid from a common stock leaves stock
and shares together as they were. -/
theorem stock_change_share {s : Finset ι} {f g : ι → Multiset α} {i : ι}
    {stock stock' : Multiset α} (hi : i ∈ s) (h : ∀ j ∈ s, j ≠ i → g j = f j)
    (hpaid : stock' + g i = stock + f i) :
    stock' + ∑ k ∈ s, g k = stock + ∑ k ∈ s, f k := by
  apply add_right_cancel (b := f i)
  rw [add_assoc, sum_change_share hi h, add_comm (∑ k ∈ s, f k), ← add_assoc,
    hpaid, add_right_comm]

end SyscallSched.Foundation
