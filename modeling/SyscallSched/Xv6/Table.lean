import SyscallSched.Foundation.Ownership
import SyscallSched.Xv6.Memory
import SyscallSched.Xv6.Vm

/-!
# A page table as a tree of pages

The tree that hangs from a table page is read off the memory: `tables` are its
pages, `leafAt` is the entry for a page number in the lowest level, 0 where a
level is missing, and `slotAt` is where that entry lies.  A page number is
counted modulo the reach of the tree, `512 ^ (level + 1)`.
-/

namespace SyscallSched.Xv6

open SyscallSched.Foundation

@[irreducible] def entries : Finset Nat := Finset.range 512

theorem mem_entries {i : Nat} : i ∈ entries ↔ i < 512 := by
  rw [entries, Finset.mem_range]

def tables (m : Mem) : Nat → Nat → Multiset Nat
  | 0, pa => {pa}
  | level + 1, pa =>
      {pa} + ∑ i ∈ entries,
        if Present (m.page pa i) then tables m level (pte2pa (m.page pa i)) else 0

def leafAt (m : Mem) : Nat → Nat → Nat → Nat
  | 0, pa, v => m.page pa (v % 512)
  | level + 1, pa, v =>
      if Present (m.page pa (v / 512 ^ (level + 1) % 512)) then
        leafAt m level (pte2pa (m.page pa (v / 512 ^ (level + 1) % 512))) v
      else
        0

def slotAt (m : Mem) : Nat → Nat → Nat → Option PteAddr
  | 0, pa, v => some ⟨pa, v % 512⟩
  | level + 1, pa, v =>
      if Present (m.page pa (v / 512 ^ (level + 1) % 512)) then
        slotAt m level (pte2pa (m.page pa (v / 512 ^ (level + 1) % 512))) v
      else
        none

/-- Entries of inner pages point to pages of the next level, entries of the
lowest level map pages. -/
def Shaped (m : Mem) : Nat → Nat → Prop
  | 0, pa => ∀ i < 512, Present (m.page pa i) → Maps (m.page pa i)
  | level + 1, pa => ∀ i < 512, Present (m.page pa i) →
      ¬ Maps (m.page pa i) ∧ Shaped m level (pte2pa (m.page pa i))

def subtables (m : Mem) (level e : Nat) : Multiset Nat :=
  if Present e then tables m level (pte2pa e) else 0

variable {m m' : Mem} {level pa v w : Nat}

theorem tables_succ : tables m (level + 1) pa =
    {pa} + ∑ i ∈ entries, subtables m level (m.page pa i) := rfl

theorem subtables_present {e : Nat} (h : Present e) :
    subtables m level e = tables m level (pte2pa e) := if_pos h

theorem subtables_absent {e : Nat} (h : ¬ Present e) : subtables m level e = 0 :=
  if_neg h

theorem index_lt (level v : Nat) : v / 512 ^ level % 512 < 512 :=
  Nat.mod_lt _ (by decide)

theorem root_mem_tables : pa ∈ tables m level pa := by
  cases level with
  | zero => exact Multiset.mem_singleton_self pa
  | succ level =>
      rw [tables_succ]
      exact Multiset.mem_add.mpr (Or.inl (Multiset.mem_singleton_self pa))

theorem subtables_le {i : Nat} (hi : i < 512) :
    subtables m level (m.page pa i) ≤ tables m (level + 1) pa := by
  rw [tables_succ]
  have hle := share_le_sum (f := fun i => subtables m level (m.page pa i))
    (mem_entries.mpr hi)
  exact hle.trans (Multiset.le_add_left _ _)

theorem child_le {i : Nat} (hi : i < 512) (hp : Present (m.page pa i)) :
    tables m level (pte2pa (m.page pa i)) ≤ tables m (level + 1) pa := by
  rw [← subtables_present hp]
  exact subtables_le hi

/-! ## Memories that agree on the tree -/

def Agree (m m' : Mem) (level pa : Nat) : Prop :=
  ∀ q ∈ tables m level pa, m'.page q = m.page q

theorem Agree.root (h : Agree m m' level pa) : m'.page pa = m.page pa :=
  h pa root_mem_tables

theorem Agree.child {i : Nat} (h : Agree m m' (level + 1) pa) (hi : i < 512)
    (hp : Present (m.page pa i)) : Agree m m' level (pte2pa (m.page pa i)) := by
  intro q hq
  exact h q (Multiset.mem_of_le (child_le hi hp) hq)

theorem Agree.tables_eq (h : Agree m m' level pa) :
    tables m' level pa = tables m level pa := by
  induction level generalizing pa with
  | zero => rfl
  | succ level ih =>
      rw [tables_succ, tables_succ, h.root]
      congr 1
      apply Finset.sum_congr rfl
      intro i hi
      by_cases hp : Present (m.page pa i)
      · rw [subtables_present hp, subtables_present hp]
        exact ih (h.child (mem_entries.mp hi) hp)
      · rw [subtables_absent hp, subtables_absent hp]

theorem Agree.leafAt_eq (h : Agree m m' level pa) :
    leafAt m' level pa v = leafAt m level pa v := by
  induction level generalizing pa with
  | zero => simp only [leafAt, h.root]
  | succ level ih =>
      simp only [leafAt, h.root]
      by_cases hp : Present (m.page pa (v / 512 ^ (level + 1) % 512))
      · rw [if_pos hp, if_pos hp]
        exact ih (h.child (index_lt _ _) hp)
      · rw [if_neg hp, if_neg hp]

theorem Agree.slotAt_eq (h : Agree m m' level pa) :
    slotAt m' level pa v = slotAt m level pa v := by
  induction level generalizing pa with
  | zero => rfl
  | succ level ih =>
      simp only [slotAt, h.root]
      by_cases hp : Present (m.page pa (v / 512 ^ (level + 1) % 512))
      · rw [if_pos hp, if_pos hp]
        exact ih (h.child (index_lt _ _) hp)
      · rw [if_neg hp, if_neg hp]

theorem Agree.shaped (h : Agree m m' level pa) (hs : Shaped m level pa) :
    Shaped m' level pa := by
  induction level generalizing pa with
  | zero =>
      intro i hi hp
      rw [h.root] at hp ⊢
      exact hs i hi hp
  | succ level ih =>
      intro i hi hp
      rw [h.root] at hp ⊢
      constructor
      case left => exact (hs i hi hp).1
      case right => exact ih (h.child hi hp) (hs i hi hp).2

theorem Agree.trans {m'' : Mem} (h : Agree m m' level pa) (h' : Agree m' m'' level pa) :
    Agree m m'' level pa := by
  intro q hq
  rw [← h q hq]
  apply h' q
  rw [h.tables_eq]
  exact hq

/-! ## Slots -/

theorem slotAt_mem {a : PteAddr} (h : slotAt m level pa v = some a) :
    a.table ∈ tables m level pa := by
  induction level generalizing pa with
  | zero =>
      simp only [slotAt, Option.some.injEq] at h
      subst h
      exact root_mem_tables
  | succ level ih =>
      simp only [slotAt] at h
      by_cases hp : Present (m.page pa (v / 512 ^ (level + 1) % 512))
      · rw [if_pos hp] at h
        exact Multiset.mem_of_le (child_le (index_lt _ _) hp) (ih h)
      · rw [if_neg hp] at h
        contradiction

theorem leafAt_of_slot {a : PteAddr} (h : slotAt m level pa v = some a) :
    leafAt m level pa v = m.page a.table a.index := by
  induction level generalizing pa with
  | zero =>
      simp only [slotAt, Option.some.injEq] at h
      subst h
      rfl
  | succ level ih =>
      simp only [slotAt, leafAt] at h ⊢
      by_cases hp : Present (m.page pa (v / 512 ^ (level + 1) % 512))
      · rw [if_pos hp] at h ⊢
        exact ih h
      · rw [if_neg hp] at h
        contradiction

theorem leafAt_of_no_slot (h : slotAt m level pa v = none) :
    leafAt m level pa v = 0 := by
  induction level generalizing pa with
  | zero => simp [slotAt] at h
  | succ level ih =>
      simp only [slotAt, leafAt] at h ⊢
      by_cases hp : Present (m.page pa (v / 512 ^ (level + 1) % 512))
      · rw [if_pos hp] at h ⊢
        exact ih h
      · rw [if_neg hp]

theorem slot_of_present (h : Present (leafAt m level pa v)) :
    ∃ a, slotAt m level pa v = some a := by
  cases hs : slotAt m level pa v with
  | some a => exact ⟨a, rfl⟩
  | none =>
      rw [leafAt_of_no_slot hs] at h
      exact absurd (by decide) h

theorem Shaped.leaf_maps (hs : Shaped m level pa) (hp : Present (leafAt m level pa v)) :
    Maps (leafAt m level pa v) := by
  induction level generalizing pa with
  | zero => exact hs _ (Nat.mod_lt v (by decide)) hp
  | succ level ih =>
      simp only [leafAt] at hp ⊢
      by_cases hentry : Present (m.page pa (v / 512 ^ (level + 1) % 512))
      · rw [if_pos hentry] at hp ⊢
        exact ih (hs _ (index_lt _ _) hentry).2 hp
      · rw [if_neg hentry] at hp
        exact absurd (by decide) hp

/-! ## Changing one subtree -/

section

variable {F : Multiset Nat} {k : Nat}

theorem root_not_mem (hnd : (F + tables m (level + 1) pa).Nodup) {j : Nat} (hj : j < 512) :
    pa ∉ F + subtables m level (m.page pa j) := by
  rw [tables_succ, add_left_comm] at hnd
  have hdis := (Multiset.nodup_add.mp hnd).2.2
  have hpa := Multiset.disjoint_left.mp hdis (Multiset.mem_singleton_self pa)
  intro h
  apply hpa
  have hle := share_le_sum (f := fun i => subtables m level (m.page pa i))
    (mem_entries.mpr hj)
  exact Multiset.mem_of_le (Multiset.add_le_add_left hle) h

theorem subtables_disjoint (hnd : (F + tables m (level + 1) pa).Nodup) {j : Nat}
    (hj : j < 512) (hk : k < 512) (hjk : j ≠ k) :
    Disjoint (subtables m level (m.page pa j)) (F + subtables m level (m.page pa k)) := by
  rw [tables_succ, add_left_comm] at hnd
  have hsum := (Multiset.nodup_add.mp hnd).2.1
  obtain ⟨_, hnodup, hF⟩ := Multiset.nodup_add.mp hsum
  have hle := share_le_sum (f := fun i => subtables m level (m.page pa i))
    (mem_entries.mpr hj)
  have hshares := shares_disjoint hnodup (mem_entries.mpr hj) (mem_entries.mpr hk) hjk
  rw [Multiset.disjoint_left] at hF hshares ⊢
  intro q hq hq'
  cases Multiset.mem_add.mp hq' with
  | inl h => exact hF h (Multiset.mem_of_le hle hq)
  | inr h => exact hshares hq h

structure Changed (m m' : Mem) (level pa k : Nat) : Prop where
  root : ∀ j < 512, j ≠ k → m'.page pa j = m.page pa j
  other : ∀ j < 512, j ≠ k → Present (m.page pa j) →
    Agree m m' level (pte2pa (m.page pa j))

theorem changed_of_nodup (hk : k < 512) (hnd : (F + tables m (level + 1) pa).Nodup)
    (hroot : ∀ j < 512, j ≠ k → m'.page pa j = m.page pa j)
    (hpage : ∀ q, q ≠ pa → q ∉ F + subtables m level (m.page pa k) →
      m'.page q = m.page q) : Changed m m' level pa k := by
  constructor
  case root => exact hroot
  case other =>
      intro j hj hjk hp q hq
      rw [← subtables_present hp] at hq
      have hdis := subtables_disjoint hnd hj hk hjk
      apply hpage q
      · intro hqpa
        rw [hqpa] at hq
        exact root_not_mem hnd hj (Multiset.mem_add.mpr (Or.inr hq))
      · exact Multiset.disjoint_left.mp hdis hq

theorem Changed.tables_eq (h : Changed m m' level pa k) (hk : k < 512) :
    tables m' (level + 1) pa + subtables m level (m.page pa k) =
      tables m (level + 1) pa + subtables m' level (m'.page pa k) := by
  rw [tables_succ, tables_succ, add_assoc, add_assoc]
  congr 1
  apply sum_change_share (mem_entries.mpr hk)
  intro j hj hjk
  rw [h.root j (mem_entries.mp hj) hjk]
  by_cases hp : Present (m.page pa j)
  · rw [subtables_present hp, subtables_present hp]
    exact (h.other j (mem_entries.mp hj) hjk hp).tables_eq
  · rw [subtables_absent hp, subtables_absent hp]

theorem Changed.leafAt_eq (h : Changed m m' level pa k)
    (hv : v / 512 ^ (level + 1) % 512 ≠ k) :
    leafAt m' (level + 1) pa v = leafAt m (level + 1) pa v := by
  simp only [leafAt, h.root _ (index_lt _ _) hv]
  by_cases hp : Present (m.page pa (v / 512 ^ (level + 1) % 512))
  · rw [if_pos hp, if_pos hp]
    exact (h.other _ (index_lt _ _) hv hp).leafAt_eq
  · rw [if_neg hp, if_neg hp]

theorem Changed.slotAt_eq (h : Changed m m' level pa k)
    (hv : v / 512 ^ (level + 1) % 512 ≠ k) :
    slotAt m' (level + 1) pa v = slotAt m (level + 1) pa v := by
  simp only [slotAt, h.root _ (index_lt _ _) hv]
  by_cases hp : Present (m.page pa (v / 512 ^ (level + 1) % 512))
  · rw [if_pos hp, if_pos hp]
    exact (h.other _ (index_lt _ _) hv hp).slotAt_eq
  · rw [if_neg hp, if_neg hp]

theorem Changed.shaped (h : Changed m m' level pa k) (hs : Shaped m (level + 1) pa)
    (hk : Present (m'.page pa k) →
      ¬ Maps (m'.page pa k) ∧ Shaped m' level (pte2pa (m'.page pa k))) :
    Shaped m' (level + 1) pa := by
  intro i hi hp
  by_cases hik : i = k
  · subst hik
    exact hk hp
  · rw [h.root i hi hik] at hp ⊢
    constructor
    case left => exact (hs i hi hp).1
    case right => exact (h.other i hi hik hp).shaped (hs i hi hp).2

end

/-! ## Writing an entry of the lowest level -/

theorem same_slot_iff (hdigit : w / 512 ^ (level + 1) % 512 = v / 512 ^ (level + 1) % 512) :
    w % 512 ^ (level + 1 + 1) = v % 512 ^ (level + 1 + 1) ↔
      w % 512 ^ (level + 1) = v % 512 ^ (level + 1) := by
  rw [Nat.mod_pow_succ, Nat.mod_pow_succ (x := v), hdigit]
  exact Nat.add_right_cancel_iff

theorem index_eq_of_same_slot (h : w % 512 ^ (level + 1 + 1) = v % 512 ^ (level + 1 + 1)) :
    w / 512 ^ (level + 1) % 512 = v / 512 ^ (level + 1) % 512 := by
  have hdiv := congrArg (· / 512 ^ (level + 1)) h
  simpa only [Nat.pow_succ _ (level + 1), Nat.mod_mul_right_div_self] using hdiv

structure Written (m m' : Mem) (level pa v e : Nat) : Prop where
  tables_eq : tables m' level pa = tables m level pa
  slotAt_eq : ∀ w, slotAt m' level pa w = slotAt m level pa w
  leafAt_eq : ∀ w, leafAt m' level pa w =
    if w % 512 ^ (level + 1) = v % 512 ^ (level + 1) then e else leafAt m level pa w
  shaped : Shaped m level pa → (Present e → Maps e) → Shaped m' level pa

theorem written_lowest (e : Nat) :
    Written m (m.setWord pa (v % 512) e) 0 pa v e := by
  constructor
  case tables_eq => rfl
  case slotAt_eq => exact fun _ => rfl
  case leafAt_eq =>
      intro w
      simp only [leafAt, Mem.setWord_page_self, Nat.zero_add, Nat.pow_one]
  case shaped =>
      intro hs he i hi
      rw [Mem.setWord_page_self]
      by_cases hiv : i = v % 512
      · rw [if_pos hiv]
        exact he
      · rw [if_neg hiv]
        exact hs i hi

theorem written_slot (hnd : (tables m level pa).Nodup) {a : PteAddr}
    (hslot : slotAt m level pa v = some a) (e : Nat) :
    Written m (m.setWord a.table a.index e) level pa v e := by
  induction level generalizing pa with
  | zero =>
      simp only [slotAt, Option.some.injEq] at hslot
      subst hslot
      exact written_lowest e
  | succ level ih =>
      have hk := index_lt (level + 1) v
      simp only [slotAt] at hslot
      by_cases hp : Present (m.page pa (v / 512 ^ (level + 1) % 512))
      case neg =>
          rw [if_neg hp] at hslot
          contradiction
      rw [if_pos hp] at hslot
      have hchild := ih (Multiset.nodup_of_le (child_le hk hp) hnd) hslot
      have hmem := slotAt_mem hslot
      rw [← subtables_present hp] at hmem
      rw [← zero_add (tables m (level + 1) pa)] at hnd
      have hroot : (m.setWord a.table a.index e).page pa = m.page pa := by
        apply Mem.setWord_page_ne
        intro hpa
        rw [← hpa] at hmem
        exact root_not_mem hnd hk (Multiset.mem_add.mpr (Or.inr hmem))
      have hchanged : Changed m (m.setWord a.table a.index e) level pa
          (v / 512 ^ (level + 1) % 512) := by
        apply changed_of_nodup hk hnd
        · intro j _ _
          rw [hroot]
        · intro q _ hq
          apply Mem.setWord_page_ne
          intro hqa
          apply hq
          rw [zero_add, hqa]
          exact hmem
      constructor
      case tables_eq =>
          have htables := hchanged.tables_eq hk
          rw [hroot, subtables_present hp, subtables_present hp,
            hchild.tables_eq] at htables
          exact add_right_cancel htables
      case slotAt_eq =>
          intro w
          by_cases hw : w / 512 ^ (level + 1) % 512 = v / 512 ^ (level + 1) % 512
          · simp only [slotAt, hroot, hw, hchild.slotAt_eq]
          · exact hchanged.slotAt_eq hw
      case leafAt_eq =>
          intro w
          by_cases hw : w / 512 ^ (level + 1) % 512 = v / 512 ^ (level + 1) % 512
          · simp only [leafAt, hroot, hw, if_pos hp, hchild.leafAt_eq, same_slot_iff hw]
          · rw [if_neg (mt index_eq_of_same_slot hw)]
            exact hchanged.leafAt_eq hw
      case shaped =>
          intro hs he
          apply hchanged.shaped hs
          rw [hroot]
          intro _
          exact ⟨(hs _ hk hp).1, hchild.shaped (hs _ hk hp).2 he⟩

end SyscallSched.Xv6
