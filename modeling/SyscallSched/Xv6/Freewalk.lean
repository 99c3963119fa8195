import Mathlib.Algebra.BigOperators.Intervals
import SyscallSched.Xv6.Space

/-!
# Freeing a page table

A table whose lowest level has no valid entry is given back by `freewalk`
page by page: exactly its table pages go to the free list.
-/

namespace SyscallSched.Xv6

open SyscallSched.Foundation

/-- A tree without leaves. -/
def Bare (m : Mem) : Nat → Nat → Prop
  | 0, pa => ∀ i < 512, ¬ Present (m.page pa i)
  | level + 1, pa => ∀ i < 512, Present (m.page pa i) →
      ¬ Maps (m.page pa i) ∧ Bare m level (pte2pa (m.page pa i))

section

variable {m m' : Mem} {level pa : Nat}

theorem Agree.bare (h : Agree m m' level pa) (hbare : Bare m level pa) :
    Bare m' level pa := by
  induction level generalizing pa with
  | zero =>
      intro i hi
      rw [h.root]
      exact hbare i hi
  | succ level ih =>
      intro i hi hp
      rw [h.root] at hp ⊢
      constructor
      case left => exact (hbare i hi hp).1
      case right => exact ih (h.child hi hp) (hbare i hi hp).2

theorem leafAt_congr {v w : Nat} (h : w % 512 ^ (level + 1) = v % 512 ^ (level + 1)) :
    leafAt m level pa w = leafAt m level pa v := by
  induction level generalizing pa with
  | zero =>
      rw [Nat.zero_add, Nat.pow_one] at h
      rw [leafAt, leafAt, h]
  | succ level ih =>
      have hindex := index_eq_of_same_slot h
      rw [leafAt, leafAt, hindex, ih ((same_slot_iff hindex).mp h)]

theorem leafAt_child {i v : Nat} (hi : i < 512) (hv : v < 512 ^ (level + 1))
    (hp : Present (m.page pa i)) :
    leafAt m (level + 1) pa (512 ^ (level + 1) * i + v) =
      leafAt m level (pte2pa (m.page pa i)) v := by
  have hindex : (512 ^ (level + 1) * i + v) / 512 ^ (level + 1) % 512 = i := by
    rw [Nat.mul_add_div (Nat.pow_pos (by decide)), Nat.div_eq_of_lt hv,
      Nat.add_zero, Nat.mod_eq_of_lt hi]
  rw [leafAt, hindex, if_pos hp]
  apply leafAt_congr
  rw [Nat.mul_add_mod]

theorem bare_of_shaped (hs : Shaped m level pa)
    (h : ∀ v < 512 ^ (level + 1), ¬ Present (leafAt m level pa v)) :
    Bare m level pa := by
  induction level generalizing pa with
  | zero =>
      intro i hi
      have hleaf := h i hi
      rw [leafAt, Nat.mod_eq_of_lt hi] at hleaf
      exact hleaf
  | succ level ih =>
      intro i hi hp
      constructor
      case left => exact (hs i hi hp).1
      case right =>
          apply ih (hs i hi hp).2
          intro v hv
          rw [← leafAt_child hi hv hp]
          apply h
          calc 512 ^ (level + 1) * i + v
              < 512 ^ (level + 1) * i + 512 ^ (level + 1) := Nat.add_lt_add_left hv _
            _ = 512 ^ (level + 1) * (i + 1) := by rw [Nat.mul_succ]
            _ ≤ 512 ^ (level + 1) * 512 := Nat.mul_le_mul_left _ hi
            _ = 512 ^ (level + 1 + 1) := (Nat.pow_succ ..).symm

end

/-! ## The loop over one page -/

def remaining (m : Mem) (level pa i : Nat) : Multiset Nat :=
  ∑ j ∈ Finset.Ico i 512, subtables m level (m.page pa j)

/-- The state of the loop of `freewalk` on the page `pa` of `m₀`, before entry `i`. -/
structure Freeing (m₀ : Mem) (level pa i : Nat) (m : Mem) : Prop where
  frames : ↑m.freelist + remaining m₀ level pa i + {pa} =
    ↑m₀.freelist + tables m₀ (level + 1) pa
  within : Within (↑m₀.freelist + tables m₀ (level + 1) pa) m₀ m
  root : ∀ j, i ≤ j → m.page pa j = m₀.page pa j
  agree : ∀ j, i ≤ j → j < 512 → Present (m₀.page pa j) →
    Agree m₀ m level (pte2pa (m₀.page pa j))

section

variable {m₀ m m' : Mem} {level pa i : Nat}

theorem remaining_zero : tables m₀ (level + 1) pa = {pa} + remaining m₀ level pa 0 := by
  rw [tables_succ, remaining, entries, Finset.range_eq_Ico]

theorem remaining_step (hi : i < 512) : remaining m₀ level pa i =
    subtables m₀ level (m₀.page pa i) + remaining m₀ level pa (i + 1) := by
  rw [remaining, Finset.sum_eq_sum_Ico_succ_bot hi, remaining]

theorem remaining_le {j : Nat} (hij : i ≤ j) (hj : j < 512) :
    subtables m₀ level (m₀.page pa j) ≤ remaining m₀ level pa i :=
  share_le_sum (f := fun j => subtables m₀ level (m₀.page pa j))
    (Finset.mem_Ico.mpr ⟨hij, hj⟩)

theorem Freeing.start : Freeing m₀ level pa 0 m₀ := by
  constructor
  case frames => rw [remaining_zero, add_assoc, add_comm (remaining m₀ level pa 0)]
  case within => exact Within.refl _ _
  case root => exact fun _ _ => rfl
  case agree => exact fun _ _ _ _ _ _ => rfl

theorem Freeing.skip (h : Freeing m₀ level pa i m) (hi : i < 512)
    (hp : ¬ Present (m₀.page pa i)) : Freeing m₀ level pa (i + 1) m := by
  constructor
  case frames =>
      rw [← h.frames, remaining_step hi, subtables_absent hp, zero_add]
  case within => exact h.within
  case root => exact fun j hj => h.root j (Nat.le_of_succ_le hj)
  case agree => exact fun j hj => h.agree j (Nat.le_of_succ_le hj)

/-- The pool of the loop: free pages, the subtree of entry `i`, the rest and the page. -/
theorem Freeing.pool (h : Freeing m₀ level pa i m) (hi : i < 512)
    (hp : Present (m₀.page pa i)) :
    ↑m.freelist + tables m level (pte2pa (m₀.page pa i)) +
        (remaining m₀ level pa (i + 1) + {pa}) =
      ↑m₀.freelist + tables m₀ (level + 1) pa := by
  rw [← h.frames, remaining_step hi, subtables_present hp,
    (h.agree i (Nat.le_refl i) hi hp).tables_eq]
  simp only [add_assoc]

theorem Freeing.step (hnd : (↑m₀.freelist + tables m₀ (level + 1) pa).Nodup)
    (h : Freeing m₀ level pa i m) (hi : i < 512) (hp : Present (m₀.page pa i))
    (hfree : (↑m'.freelist : Multiset Nat) =
      ↑m.freelist + tables m level (pte2pa (m₀.page pa i)))
    (hwithin : Within (↑m.freelist + tables m level (pte2pa (m₀.page pa i))) m m') :
    Freeing m₀ level pa (i + 1) (m'.setWord pa i 0) := by
  have hpool := h.pool hi hp
  rw [← hpool] at hnd
  have hdis := (Multiset.nodup_add.mp hnd).2.2
  have hrest := (Multiset.nodup_add.mp (Multiset.nodup_add.mp hnd).2.1).2.2
  have hpa : pa ∉ ↑m.freelist + tables m level (pte2pa (m₀.page pa i)) := by
    intro hmem
    apply Multiset.disjoint_left.mp hdis hmem
    exact Multiset.mem_add.mpr (Or.inr (Multiset.mem_singleton_self pa))
  have hroot : m'.page pa = m.page pa := hwithin.page pa hpa
  constructor
  case frames =>
      change ↑m'.freelist + remaining m₀ level pa (i + 1) + {pa} = _
      rw [← hpool, hfree, add_assoc]
  case within =>
      rw [← hpool]
      have hle := Multiset.le_add_right
        ((↑m.freelist : Multiset Nat) + tables m level (pte2pa (m₀.page pa i)))
        (remaining m₀ level pa (i + 1) + {pa})
      have hpaX : ({pa} : Multiset Nat) ≤ ↑m.freelist +
          tables m level (pte2pa (m₀.page pa i)) +
            (remaining m₀ level pa (i + 1) + {pa}) :=
        (Multiset.le_add_left _ _).trans (Multiset.le_add_left _ _)
      have hloop := h.within
      rw [← hpool] at hloop
      exact (hloop.trans (hwithin.mono hle)).trans
        ((within_setPage m' pa _).mono hpaX)
  case root =>
      intro j hj
      rw [Mem.setWord_page_self, if_neg (by omega), hroot]
      exact h.root j (Nat.le_of_succ_le hj)
  case agree =>
      intro j hj hj512 hpj q hq
      have hq' : q ∈ remaining m₀ level pa (i + 1) := by
        rw [← subtables_present hpj] at hq
        exact Multiset.mem_of_le (remaining_le hj hj512) hq
      have hqpa : q ≠ pa := by
        intro heq
        rw [heq] at hq'
        exact Multiset.disjoint_left.mp hrest hq' (Multiset.mem_singleton_self pa)
      rw [Mem.setWord_page_ne _ _ _ hqpa, hwithin.page q]
      · exact h.agree j (Nat.le_of_succ_le hj) hj512 hpj q hq
      · intro hmem
        exact Multiset.disjoint_left.mp hdis hmem (Multiset.mem_add.mpr (Or.inl hq'))

theorem freed_within {q : Nat} {F : Multiset Nat} (hnd : F.Nodup)
    (hF : (↑m.freelist : Multiset Nat) + {q} = F) (hwithin : Within F m₀ m) :
    (↑(freed m q).freelist : Multiset Nat) = F ∧ Within F m₀ (freed m q) := by
  have hq : q ∉ m.freelist := by
    intro hmem
    rw [← hF] at hnd
    exact Multiset.disjoint_left.mp (Multiset.nodup_add.mp hnd).2.2 hmem
      (Multiset.mem_singleton_self q)
  constructor
  case left =>
      change (↑(q :: m.freelist) : Multiset Nat) = F
      rw [← hF, ← Multiset.cons_coe, add_comm, Multiset.singleton_add]
  case right =>
      apply hwithin.trans ((within_freed hq).mono ?_)
      rw [← hF]
      exact Multiset.le_add_left _ _

end

/-- One turn of the loop, given what the recursive call does. -/
theorem freeEntry_step {m₀ m : Mem} {level pa i : Nat} {descend : Nat → MemM Unit}
    (hnd : (↑m₀.freelist + tables m₀ (level + 1) pa).Nodup)
    (hbare : Bare m₀ (level + 1) pa) (hi : i < 512) (h : Freeing m₀ level pa i m)
    (hcall : Present (m₀.page pa i) →
      Total (descend (pte2pa (m₀.page pa i))) m fun _ m' =>
        (↑m'.freelist : Multiset Nat) =
          ↑m.freelist + tables m level (pte2pa (m₀.page pa i)) ∧
        Within (↑m.freelist + tables m level (pte2pa (m₀.page pa i))) m m') :
    Total (freeEntry descend pa i) m fun _ m' => Freeing m₀ level pa (i + 1) m' := by
  apply Total.bind_eq load_run
  rw [h.root i (Nat.le_refl i)]
  by_cases hp : Present (m₀.page pa i)
  · have hnode := not_not.mp (hbare i hi hp).1
    rw [if_pos ⟨hp, hnode⟩]
    apply Total.bind (hcall hp)
    intro _ m' hm'
    exact Total.of_eq store_run (h.step hnd hi hp hm'.1 hm'.2)
  · rw [if_neg (fun hboth => hp hboth.1), if_neg hp]
    exact Total.pure (h.skip hi hp)

theorem remaining_end {m₀ : Mem} {level pa : Nat} : remaining m₀ level pa 512 = 0 := by
  rw [remaining, Finset.Ico_self, Finset.sum_empty]

theorem freeEntry_lowest {m : Mem} {pa i : Nat} (hbare : Bare m 0 pa) (hi : i < 512)
    (descend : Nat → MemM Unit) :
    Total (freeEntry descend pa i) m fun _ m' => m' = m := by
  have hp := hbare i hi
  apply Total.bind_eq load_run
  rw [if_neg (fun hboth => hp hboth.1), if_neg hp]
  exact Total.pure rfl

theorem freewalk_spec [Image] {m : Mem} {level pa : Nat} (extra : Nat)
    (hnd : (↑m.freelist + tables m level pa).Nodup)
    (hframe : ∀ q ∈ ↑m.freelist + tables m level pa, Frame q) (hbare : Bare m level pa) :
    Total (freewalk (level + extra + 1) pa) m fun _ m' =>
      (↑m'.freelist : Multiset Nat) = ↑m.freelist + tables m level pa ∧
        Within (↑m.freelist + tables m level pa) m m' := by
  have hpa : Frame pa := hframe pa (Multiset.mem_add.mpr (Or.inr root_mem_tables))
  induction level generalizing m pa with
  | zero =>
      rw [freewalk]
      have hloop := Total.forRange (I := fun _ m' => m' = m) 512 rfl (by
        intro i t hi ht
        rw [ht]
        exact freeEntry_lowest hbare hi (freewalk (0 + extra)))
      apply Total.bind hloop
      intro _ m' hm'
      subst hm'
      apply Total.of_eq (kfree_run hpa)
      exact freed_within hnd rfl (Within.refl _ _)
  | succ level ih =>
      rw [Nat.add_right_comm level 1 extra, freewalk]
      have hloop := Total.forRange (I := Freeing m level pa) 512 Freeing.start (by
        intro i t hi ht
        apply freeEntry_step hnd hbare hi ht
        intro hp
        have hpool := ht.pool hi hp
        have hle := Multiset.le_add_right
          ((↑t.freelist : Multiset Nat) + tables t level (pte2pa (m.page pa i)))
          (remaining m level pa (i + 1) + {pa})
        rw [hpool] at hle
        have hchild : ∀ q ∈ ↑t.freelist + tables t level (pte2pa (m.page pa i)),
            Frame q := fun q hq => hframe q (Multiset.mem_of_le hle hq)
        have hbare' := (ht.agree i (Nat.le_refl i) hi hp).bare (hbare i hi hp).2
        have hroot := hchild _ (Multiset.mem_add.mpr (Or.inr root_mem_tables))
        exact ih (Multiset.nodup_of_le hle hnd) hchild hbare' hroot)
      apply Total.bind hloop
      intro _ m' hm'
      apply Total.of_eq (kfree_run hpa)
      have hF := hm'.frames
      rw [remaining_end, add_zero] at hF
      exact freed_within hnd hF hm'.within

/-! ## Freeing an address space without leaves -/

structure Stock [Image] (X : Multiset Nat) (m : Mem) (U : Multiset Nat) : Prop where
  frames : ↑m.freelist + U = X
  nodup : X.Nodup
  valid : ∀ q ∈ X, Frame q

theorem Space.freewalk_spec [Image] {X U : Multiset Nat} {m : Mem} {r : Nat}
    {g : Nat → Nat} (h : Space X m r g U) (hnone : ∀ v < 512 ^ 3, ¬ Present (g v)) :
    Total (freewalk stackDepth r) m fun _ m' => Within X m m' ∧ Stock X m' U := by
  have hbare : Bare m 2 r := by
    apply bare_of_shaped h.shaped
    intro v hv
    rw [h.leaf v hv]
    exact hnone v hv
  have hframe : ∀ q ∈ ↑m.freelist + tables m 2 r, Frame q :=
    fun q hq => h.valid q (Multiset.mem_of_le h.stock_le hq)
  apply (Xv6.freewalk_spec 61 h.stock_nodup hframe hbare).mono
  intro _ m' hm'
  constructor
  case left => exact hm'.2.mono h.stock_le
  case right =>
      constructor
      case frames => rw [hm'.1, h.frames]
      case nodup => exact h.nodup
      case valid => exact h.valid

end SyscallSched.Xv6
