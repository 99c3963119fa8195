import SyscallSched.Xv6.Copy
import SyscallSched.Xv6.Exec

/-!
# The page table of a process, from `proc_pagetable` to `proc_freepagetable`
-/

namespace SyscallSched.Xv6

open SyscallSched.Foundation

variable [Image] {X U : Multiset Nat} {m : Mem} {r n tf : Nat} {g : Nat → Nat}

/-! ## The allocator without a table -/

theorem Stock.kalloc_spec (h : Stock X m U) :
    Total kalloc m fun result m' => Within X m m' ∧ match result with
      | none => m' = m
      | some q => Stock X m' (q ::ₘ U) := by
  cases hlist : m.freelist with
  | nil => exact Total.of_eq (kalloc_nil hlist) ⟨Within.refl X m, rfl⟩
  | cons q rest =>
      have hframes := h.frames
      rw [hlist, ← Multiset.cons_coe, Multiset.cons_add] at hframes
      have hq : q ∈ X := by
        rw [← hframes]
        exact Multiset.mem_cons_self _ _
      apply Total.of_eq (kalloc_cons hlist)
      constructor
      case left =>
          have hset := (within_setPage { m with freelist := rest } q
            (fun _ => 5 * 0x0101010101010101)).mono (Multiset.singleton_le.mpr hq)
          exact ⟨hset.page, hset.refreed⟩
      case right =>
          constructor
          case frames =>
              rw [← hframes]
              exact Multiset.add_cons _ _ _
          case nodup => exact h.nodup
          case valid => exact h.valid

theorem Stock.kfree_spec {q : Nat} (h : Stock X m (q ::ₘ U)) :
    Total (kfree q) m fun _ m' => Within X m m' ∧ Stock X m' U := by
  have hframes := h.frames
  have hq : q ∈ X := by
    rw [← hframes]
    exact Multiset.mem_add.mpr (Or.inr (Multiset.mem_cons_self _ _))
  have hfresh : q ∉ m.freelist := by
    intro hmem
    have hnd := h.nodup
    rw [← hframes] at hnd
    exact Multiset.disjoint_left.mp (Multiset.nodup_add.mp hnd).2.2 hmem
      (Multiset.mem_cons_self _ _)
  apply Total.of_eq (kfree_run (h.valid q hq))
  constructor
  case left => exact (within_freed hfresh).mono (Multiset.singleton_le.mpr hq)
  case right =>
      constructor
      case frames =>
          change (↑(q :: m.freelist) : Multiset Nat) + U = X
          rw [← hframes, ← Multiset.cons_coe, Multiset.cons_add, Multiset.add_cons]
      case nodup => exact h.nodup
      case valid => exact h.valid

theorem Stock.zero_table {q : Nat} (h : Stock X m (q ::ₘ U)) :
    Space X (m.setPage q fun _ => 0) q (fun _ => 0) U := by
  have hzero : ∀ i, (m.setPage q fun _ => 0).page q i = 0 := by
    intro i
    rw [Mem.setPage_page_self]
  constructor
  case frames =>
      rw [tables_zero hzero, add_assoc, Multiset.singleton_add]
      exact h.frames
  case nodup => exact h.nodup
  case valid => exact h.valid
  case shaped => exact shaped_zero hzero
  case leaf => exact fun v _ => leafAt_zero hzero

theorem uvmcreate_spec (h : Stock X m U) :
    Total uvmcreate m fun result m' => Within X m m' ∧ match result with
      | none => Stock X m' U
      | some r => Space X m' r (fun _ => 0) U := by
  rw [uvmcreate]
  apply Total.bind h.kalloc_spec
  intro result m₁ hm₁
  obtain ⟨hwithin, hresult⟩ := hm₁
  cases result with
  | none =>
      have hsame : m₁ = m := hresult
      rw [hsame]
      exact Total.pure ⟨Within.refl X m, h⟩
  | some q =>
      have hstock : Stock X m₁ (q ::ₘ U) := hresult
      have hq : q ∈ X := by
        rw [← hstock.frames]
        exact Multiset.mem_add.mpr (Or.inr (Multiset.mem_cons_self _ _))
      apply Total.bind_eq memset_run
      apply Total.pure
      rw [Nat.zero_mul]
      refine ⟨hwithin.trans ?_, hstock.zero_table⟩
      exact (within_setPage m₁ q _).mono (Multiset.singleton_le.mpr hq)

/-! ## Unmapping the fixed pages -/

theorem unmap_kept {v : Nat} (h : Space X m r g U) (hv : v < 2 ^ 26) (hp : Present (g v)) :
    Total (uvmunmap r (v * pgSize) 1 false) m fun _ m' =>
      Within X m m' ∧ Space X m' r (cleared g v 1) U := by
  apply uvmunmap_spec
  · simp only [Bool.false_eq_true, if_false, zero_add]
    exact h
  · omega
  · intro i hi
    rw [Nat.lt_one_iff.mp hi]
    exact hp

theorem uvmfree_bare (h : Space X m r g U) (hnone : ∀ v < 512 ^ 3, ¬ Present (g v)) :
    Total (uvmfree r 0) m fun _ m' => Within X m m' ∧ Stock X m' U := by
  rw [uvmfree]
  apply Total.bind_eq (a := ()) (t := m) rfl
  exact h.freewalk_spec hnone

theorem uvmfree_spec {sz : Nat} (h : Space X m r g (framesOf g 0 (pageCount sz) + U))
    (huser : ∀ v < pageCount sz, Present (g v))
    (hnone : ∀ v < 512 ^ 3, pageCount sz ≤ v → g v = 0) (hn : pageCount sz ≤ 32768) :
    Total (uvmfree r sz) m fun _ m' => Within X m m' ∧ Stock X m' U := by
  have hunmap : Total (when (0 < sz) (uvmunmap r 0 (pgRoundUp sz / pgSize) true)) m
      fun _ m' => Within X m m' ∧ Space X m' r (cleared g 0 (pageCount sz)) U := by
    rw [when]
    by_cases hsz : 0 < sz
    · have hspec : Total (uvmunmap r (0 * pgSize) (pageCount sz) true) m fun _ m' =>
          Within X m m' ∧ Space X m' r (cleared g 0 (pageCount sz)) U :=
        uvmunmap_spec h (by omega) (fun i hi => huser _ (by omega))
      rw [Nat.zero_mul] at hspec
      rw [if_pos hsz, pgRoundUp_eq (by omega), va_page]
      exact hspec
    · have hzero : sz = 0 := by omega
      subst hzero
      have hcount : pageCount 0 = 0 := rfl
      rw [hcount] at h ⊢
      rw [if_neg hsz, cleared_none]
      rw [framesOf, zero_add] at h
      exact Total.pure ⟨Within.refl X m, h⟩
  rw [uvmfree]
  apply Total.bind hunmap
  intro _ m₁ hm₁
  apply (hm₁.2.freewalk_spec ?_).mono
  · intro _ m' hm'
    exact ⟨hm₁.1.trans hm'.1, hm'.2⟩
  · intro v hv
    rw [cleared]
    by_cases hin : 0 ≤ v ∧ v < 0 + pageCount sz
    · rw [if_pos hin]
      exact not_present_zero
    · rw [if_neg hin, hnone v hv (by omega)]
      exact not_present_zero

theorem procFreepagetable_spec {sz : Nat} (h : UserSpace X m r g (pageCount sz) tf U) :
    Total (procFreepagetable r sz) m fun _ m' => Within X m m' ∧ Stock X m' U := by
  have hn := h.pages_le
  have htr : Present (g trampolinePage) := by
    rw [h.map.trampoline]
    exact present_leafEntry
  have htf : Present (cleared g trampolinePage 1 trapframePage) := by
    rw [cleared, if_neg (by decide), h.map.trapframe]
    exact present_leafEntry
  rw [procFreepagetable, trampolineVa_eq, trapframeVa_eq]
  apply Total.bind (unmap_kept h.space (by decide) htr)
  intro _ m₁ hm₁
  apply Total.bind (unmap_kept hm₁.2 (by decide) htf)
  intro _ m₂ hm₂
  have hkept : ∀ v, v ≠ trampolinePage → v ≠ trapframePage →
      cleared (cleared g trampolinePage 1) trapframePage 1 v = g v := by
    intro v htr htf
    rw [cleared, if_neg (by omega), cleared, if_neg (by omega)]
  have huser : ∀ v < pageCount sz,
      cleared (cleared g trampolinePage 1) trapframePage 1 v = g v := by
    intro v hv
    apply hkept v
    · simp only [trampolinePage]
      omega
    · simp only [trapframePage]
      omega
  have hspace := hm₂.2
  rw [← framesOf_congr (v := 0) (fun i hi => huser _ (by omega))] at hspace
  apply (uvmfree_spec hspace ?_ ?_ hn).mono
  · intro _ m' hm'
    exact ⟨(hm₁.1.trans hm₂.1).trans hm'.1, hm'.2⟩
  · intro v hv
    rw [huser v hv]
    exact h.map.user v hv
  · intro v hv hnv
    by_cases htf : v = trapframePage
    · rw [cleared, if_pos (by omega)]
    · by_cases htr : v = trampolinePage
      · rw [cleared, if_neg (by omega), cleared, if_pos (by omega)]
      · rw [hkept v htr htf]
        exact h.map.none v hv hnv htf htr

/-! ## `proc_pagetable` -/

theorem userMap_empty (tf : Nat) : UserMap
    (Function.update (Function.update (fun _ => 0) trampolinePage
      (leafEntry Image.trampoline (pteR ||| pteX))) trapframePage
      (leafEntry tf (pteR ||| pteW))) 0 tf := by
  constructor
  case user => exact fun i hi => absurd hi (Nat.not_lt_zero i)
  case trapframe => rw [Function.update_self]
  case trampoline => rw [Function.update_of_ne (by decide), Function.update_self]
  case none =>
      intro v _ _ htf htr
      rw [Function.update_of_ne htf, Function.update_of_ne htr]

omit [Image] in
theorem cleared_update_zero (v e : Nat) :
    cleared (Function.update (fun _ => 0) v e) v 1 = fun _ => 0 := by
  funext w
  rw [cleared]
  by_cases hw : v ≤ w ∧ w < v + 1
  · rw [if_pos hw]
  · rw [if_neg hw, Function.update_of_ne (by omega)]

theorem procPagetable_spec (h : Stock X m U) (tf : Nat) :
    Total (procPagetable tf) m fun result m' => Within X m m' ∧ match result with
      | none => Stock X m' U
      | some r => ∃ g, UserSpace X m' r g 0 tf U := by
  rw [procPagetable]
  apply Total.bind (uvmcreate_spec h)
  intro result m₁ hm₁
  obtain ⟨hwithin₁, hresult⟩ := hm₁
  cases result with
  | none => exact Total.pure ⟨hwithin₁, hresult⟩
  | some r =>
      have hspace₁ : Space X m₁ r (fun _ => 0) U := hresult
      simp only [trampolineVa_eq, trapframeVa_eq]
      have hcode : Maps (pteR ||| pteX) := by decide
      have hdata : Maps (pteR ||| pteW) := by decide
      apply Total.bind (mappages_page hspace₁ (by decide) not_present_zero hcode)
      intro mapped m₂ hm₂
      have hwithin₂ := hwithin₁.trans hm₂.1
      cases mapped with
      | false =>
          apply Total.bind (uvmfree_bare hm₂.2 (fun v _ => not_present_zero))
          intro _ m' hm'
          exact Total.pure ⟨hwithin₂.trans hm'.1, hm'.2⟩
      | true =>
          have hspace₂ : Space X m₂ r (Function.update (fun _ => 0) trampolinePage
              (leafEntry Image.trampoline (pteR ||| pteX))) U := hm₂.2
          apply Total.bind (mappages_page hspace₂ (by decide) ?_ hdata)
          · intro mapped m₃ hm₃
            have hwithin₃ := hwithin₂.trans hm₃.1
            cases mapped with
            | true =>
                apply Total.pure
                refine ⟨hwithin₃, _, ?_, userMap_empty tf⟩
                rw [framesOf, zero_add]
                exact hm₃.2
            | false =>
                have hpresent : Present (Function.update (fun _ => 0) trampolinePage
                    (leafEntry Image.trampoline (pteR ||| pteX)) trampolinePage) := by
                  rw [Function.update_self]
                  exact present_leafEntry
                apply Total.bind (unmap_kept hm₃.2 (by decide) hpresent)
                intro _ m₄ hm₄
                rw [cleared_update_zero] at hm₄
                apply Total.bind (uvmfree_bare hm₄.2 (fun v _ => not_present_zero))
                intro _ m' hm'
                exact Total.pure ⟨(hwithin₃.trans hm₄.1).trans hm'.1, hm'.2⟩
          · rw [Function.update_of_ne (by decide)]
            exact not_present_zero

end SyscallSched.Xv6
