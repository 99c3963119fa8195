import SyscallSched.Xv6.ProcTable

/-!
# How many pages an allocation needs

A page table of a process takes three pages before any user page is mapped:
its root and the two pages below it on the path to the trampoline, which the
trapframe shares.
-/

namespace SyscallSched.Xv6

open SyscallSched.Foundation

/-- The levels missing on the path to page number `v`. -/
def missing (m : Mem) : Nat → Nat → Nat → Nat
  | 0, _, _ => 0
  | level + 1, pa, v =>
      if Present (m.page pa (v / 512 ^ (level + 1) % 512)) then
        missing m level (pte2pa (m.page pa (v / 512 ^ (level + 1) % 512))) v
      else
        level + 1

section

variable {m : Mem} {level pa v : Nat}

theorem missing_le : missing m level pa v ≤ level := by
  induction level generalizing pa with
  | zero => exact Nat.le_refl 0
  | succ level ih =>
      rw [missing]
      split
      case isTrue => exact Nat.le_succ_of_le ih
      case isFalse => exact Nat.le_refl _

theorem missing_zero (h : ∀ i, m.page pa i = 0) : missing m level pa v = level := by
  cases level with
  | zero => rfl
  | succ level => rw [missing, h, if_neg not_present_zero]

theorem missing_of_slot {a : PteAddr} (h : slotAt m level pa v = some a) :
    missing m level pa v = 0 := by
  induction level generalizing pa with
  | zero => rfl
  | succ level ih =>
      simp only [slotAt, missing] at h ⊢
      by_cases hp : Present (m.page pa (v / 512 ^ (level + 1) % 512))
      · rw [if_pos hp] at h ⊢
        exact ih h
      · rw [if_neg hp] at h
        contradiction

/-- Page numbers that share the lowest table share their path to it. -/
theorem slotAt_neighbour {w : Nat} {a : PteAddr} (h : slotAt m level pa v = some a)
    (hw : w / 512 = v / 512) : ∃ b, slotAt m level pa w = some b := by
  induction level generalizing pa with
  | zero => exact ⟨_, rfl⟩
  | succ level ih =>
      have hindex : w / 512 ^ (level + 1) = v / 512 ^ (level + 1) := by
        rw [Nat.pow_succ', ← Nat.div_div_eq_div_mul, hw, Nat.div_div_eq_div_mul]
      simp only [slotAt, hindex] at h ⊢
      by_cases hp : Present (m.page pa (v / 512 ^ (level + 1) % 512))
      · rw [if_pos hp] at h ⊢
        exact ih h
      · rw [if_neg hp] at h
        contradiction

end

variable [Image]

/-- `walk` with allocation fails exactly when the free list is too short. -/
theorem walkLevel_count {m : Mem} {level pa va : Nat}
    (hnd : (↑m.freelist + tables m level pa).Nodup)
    (hfree : ∀ q ∈ m.freelist, Frame q) :
    Total (walkLevel va true level pa) m fun result m' =>
      if result.isSome then
        m'.freelist.length + missing m level pa (va / pgSize) = m.freelist.length
      else
        m.freelist.length < missing m level pa (va / pgSize) := by
  induction level generalizing m pa with
  | zero => exact Total.of_eq (a := some ⟨pa, px 0 va⟩) (t := m) rfl rfl
  | succ level ih =>
      have hk := index_lt (level + 1) (va / pgSize)
      rw [walkLevel]
      apply Total.bind_eq load_run
      rw [px_eq]
      by_cases hp : Present (m.page pa (va / pgSize / 512 ^ (level + 1) % 512))
      · have hnd' := Multiset.nodup_of_le (Multiset.add_le_add_left (child_le hk hp)) hnd
        rw [if_pos hp, missing, if_pos hp]
        exact ih hnd' hfree
      · rw [if_neg hp, if_pos rfl, missing, if_neg hp]
        cases hlist : m.freelist with
        | nil =>
            apply Total.bind_eq (kalloc_nil hlist)
            exact Total.pure (Nat.succ_pos level)
        | cons q rest =>
            have hqpa := head_ne_root hnd hlist
            have hrest : ∀ r ∈ (linked m pa (va / pgSize / 512 ^ (level + 1) % 512)
                q rest).freelist, Frame r := by
              intro r hr
              apply hfree r
              rw [hlist]
              exact List.mem_cons_of_mem q hr
            apply Total.bind_eq (kalloc_cons hlist)
            apply Total.bind_eq memset_run
            apply Total.bind_eq store_run
            apply (ih (linked_grows_nodup hnd hlist hqpa) hrest).mono
            intro result m' hm'
            rw [missing_zero (linked_page_fresh hqpa)] at hm'
            have hlength : (linked m pa (va / pgSize / 512 ^ (level + 1) % 512) q
                rest).freelist.length = rest.length := rfl
            rw [hlength] at hm'
            cases result with
            | some a =>
                have hcount : m'.freelist.length + level = rest.length := hm'
                change m'.freelist.length + (level + 1) = rest.length + 1
                omega
            | none =>
                have hshort : rest.length < level := hm'
                change rest.length + 1 < level + 1
                omega

variable {X U : Multiset Nat} {m : Mem} {r v tf : Nat} {g : Nat → Nat}

theorem mappages_count {pa perm : Nat} (h : Space X m r g U) (hv : v < 2 ^ 26)
    (habsent : ¬ Present (g v)) :
    Total (mappages r (v * pgSize) pgSize pa perm) m fun mapped m' =>
      if mapped then
        m'.freelist.length + missing m 2 r v = m.freelist.length ∧
          ∃ a, slotAt m' 2 r v = some a
      else
        m.freelist.length < missing m 2 r v := by
  have haligned : v * pgSize % pgSize = 0 := Nat.mul_mod_left v pgSize
  have hva : ¬ maxVa ≤ v * pgSize := Nat.not_le.mpr (page_va_lt hv)
  rw [mappages, if_neg (not_not.mpr haligned), if_neg (by decide), if_neg (by decide)]
  change Total (mapLoop r perm 1 (v * pgSize) pa) m _
  rw [mapLoop, walk, if_neg hva]
  apply Total.bind ((walkLevel_alloc h.stock_nodup h.free_frame).and
    (walkLevel_count h.stock_nodup h.free_frame))
  intro result m₁ hm₁
  obtain ⟨⟨hgrown, hresult⟩, hcount⟩ := hm₁
  rw [va_page] at hresult hcount
  have hspace := h.of_grown hgrown
  cases result with
  | none => exact Total.pure hcount
  | some a =>
      apply Total.bind_eq loadPte_run
      have hentry := hspace.slot_entry (page_lt_reach hv) hresult.symm
      rw [hentry, if_neg habsent]
      apply Total.bind_eq storePte_run
      have hnd := (Multiset.nodup_add.mp hspace.stock_nodup).2.1
      have hwritten := written_slot hnd hresult.symm (pa2pte pa ||| perm ||| pteV)
      apply Total.pure
      refine ⟨hcount, a, ?_⟩
      rw [hwritten.slotAt_eq, ← hresult]

omit [Image] in
theorem uvmcreate_count :
    Total uvmcreate m fun result m' => match result with
      | none => m.freelist.length = 0
      | some r => m'.freelist.length + 1 = m.freelist.length ∧ ∀ i, m'.page r i = 0 := by
  rw [uvmcreate]
  cases hlist : m.freelist with
  | nil =>
      apply Total.bind_eq (kalloc_nil hlist)
      exact Total.pure rfl
  | cons root rest =>
      apply Total.bind_eq (kalloc_cons hlist)
      apply Total.bind_eq memset_run
      apply Total.pure
      refine ⟨rfl, ?_⟩
      intro i
      rw [Mem.setPage_page_self, Nat.zero_mul]

theorem procPagetable_count (h : Stock X m U) (tf : Nat) :
    Total (procPagetable tf) m fun result m' =>
      if result.isSome then m'.freelist.length + 3 = m.freelist.length
      else m.freelist.length < 3 := by
  have hcode : Maps (pteR ||| pteX) := by decide
  rw [procPagetable]
  apply Total.bind ((uvmcreate_spec h).and uvmcreate_count)
  intro result m₁ hm₁
  obtain ⟨⟨-, hspace⟩, hcount⟩ := hm₁
  cases result with
  | none =>
      apply Total.pure
      change m.freelist.length < 3
      have hzero : m.freelist.length = 0 := hcount
      omega
  | some r =>
      have hspace₁ : Space X m₁ r (fun _ => 0) U := hspace
      obtain ⟨hlength₁, hzero⟩ : m₁.freelist.length + 1 = m.freelist.length ∧
        ∀ i, m₁.page r i = 0 := hcount
      simp only [trampolineVa_eq, trapframeVa_eq]
      apply Total.bind ((mappages_page hspace₁ (by decide) not_present_zero hcode).and
        (mappages_count hspace₁ (by decide) not_present_zero))
      intro mapped m₂ hm₂
      obtain ⟨⟨-, hspace₂⟩, hcount₂⟩ := hm₂
      rw [missing_zero hzero] at hcount₂
      cases mapped with
      | false =>
          have hshort : m₁.freelist.length < 2 := hcount₂
          apply Total.bind (uvmfree_bare hspace₂ (fun v _ => not_present_zero))
          intro _ m' _
          apply Total.pure
          change m.freelist.length < 3
          omega
      | true =>
          obtain ⟨hlength₂, a, hslot⟩ : m₂.freelist.length + 2 = m₁.freelist.length ∧
            ∃ a, slotAt m₂ 2 r trampolinePage = some a := hcount₂
          obtain ⟨b, hslot'⟩ := slotAt_neighbour (w := trapframePage) hslot (by decide)
          have habsent : ¬ Present (Function.update (fun _ => 0) trampolinePage
              (leafEntry Image.trampoline (pteR ||| pteX)) trapframePage) := by
            rw [Function.update_of_ne (by decide)]
            exact not_present_zero
          apply Total.bind (mappages_count hspace₂ (by decide) habsent)
          intro mapped m₃ hm₃
          rw [missing_of_slot hslot'] at hm₃
          cases mapped with
          | false => exact absurd hm₃ (Nat.not_lt_zero _)
          | true =>
              apply Total.pure
              have hlength₃ : m₃.freelist.length + 0 = m₂.freelist.length := hm₃.1
              change m₃.freelist.length + 3 = m.freelist.length
              omega

end SyscallSched.Xv6
