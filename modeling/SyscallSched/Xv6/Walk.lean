import SyscallSched.Xv6.Table

/-!
# What `walk` does to the tree

Without `alloc`, `walk` only looks up the slot of a page number.  With `alloc`
it moves pages from the free list into the tree: free pages and table pages
together stay the same, and no entry of the lowest level changes.
-/

namespace SyscallSched.Xv6

open SyscallSched.Foundation

/-- Only pages of `X` were changed, and nothing was freed twice. -/
structure Within (X : Multiset Nat) (m m' : Mem) : Prop where
  page : ∀ q, q ∉ X → m'.page q = m.page q
  refreed : m'.refreed = m.refreed

namespace Within

variable {X Y : Multiset Nat} {m m' m'' : Mem}

theorem refl (X : Multiset Nat) (m : Mem) : Within X m m :=
  ⟨fun _ _ => rfl, rfl⟩

theorem trans (h : Within X m m') (h' : Within X m' m'') : Within X m m'' :=
  ⟨fun q hq => (h'.page q hq).trans (h.page q hq), h'.refreed.trans h.refreed⟩

theorem mono (h : Within X m m') (hXY : X ≤ Y) : Within Y m m' :=
  ⟨fun q hq => h.page q fun hX => hq (Multiset.mem_of_le hXY hX), h.refreed⟩

theorem agree {level pa : Nat} (h : Within X m m')
    (hdis : Disjoint (tables m level pa) X) : Agree m m' level pa :=
  fun q hq => h.page q (Multiset.disjoint_left.mp hdis hq)

end Within

/-! ## Outcomes of the memory operations -/

section

variable {m : Mem} {pa i w c : Nat}

theorem load_run : load pa i m = .ok (m.page pa i, m) := rfl

theorem store_run : store pa i w m = .ok ((), m.setWord pa i w) := rfl

theorem loadPte_run {a : PteAddr} : loadPte a m = .ok (m.page a.table a.index, m) := rfl

theorem storePte_run {a : PteAddr} :
    storePte a w m = .ok ((), m.setWord a.table a.index w) := rfl

theorem memset_run : memset pa c m =
    .ok ((), m.setPage pa fun _ => c * 0x0101010101010101) := rfl

def taken (m : Mem) (r : Nat) (rest : List Nat) : Mem :=
  Mem.setPage { m with freelist := rest } r fun _ => 5 * 0x0101010101010101

theorem kalloc_nil (h : m.freelist = []) : kalloc m = .ok (none, m) := by
  have hget : (get : MemM Mem) m = .ok (m, m) := rfl
  rw [kalloc, Total.run_bind hget, h]
  rfl

theorem kalloc_cons {r : Nat} {rest : List Nat} (h : m.freelist = r :: rest) :
    kalloc m = .ok (some r, taken m r rest) := by
  have hget : (get : MemM Mem) m = .ok (m, m) := rfl
  rw [kalloc, Total.run_bind hget, h]
  rfl

def freed (m : Mem) (q : Nat) : Mem :=
  { m.setPage q fun _ => 1 * 0x0101010101010101 with
    freelist := q :: m.freelist
    refreed := if q ∈ m.freelist then q :: m.refreed else m.refreed }

theorem kfree_run [Image] {q : Nat} (h : Frame q) : kfree q m = .ok ((), freed m q) := by
  have hguard : ¬ (q % pgSize ≠ 0 ∨ q < Image.kernelEnd ∨ physTop ≤ q) := by
    simp only [Frame] at h
    omega
  rw [kfree, if_neg hguard, Total.run_bind memset_run]
  rfl

theorem within_setPage (m : Mem) (q : Nat) (words : Nat → Nat) :
    Within {q} m (m.setPage q words) := by
  constructor
  case page =>
      intro p hp
      exact m.setPage_page_ne words (fun h => hp (Multiset.mem_singleton.mpr h))
  case refreed => rfl

theorem within_freed {q : Nat} (h : q ∉ m.freelist) : Within {q} m (freed m q) := by
  constructor
  case page => exact (within_setPage m q _).page
  case refreed =>
      change (if q ∈ m.freelist then q :: m.refreed else m.refreed) = m.refreed
      rw [if_neg h]

end

/-! ## Looking up -/

theorem walkLevel_lookup {m : Mem} {level pa va : Nat} :
    walkLevel va false level pa m = .ok (slotAt m level pa (va / pgSize), m) := by
  induction level generalizing pa with
  | zero =>
      simp only [walkLevel, slotAt, px_eq, Nat.pow_zero, Nat.div_one]
      rfl
  | succ level ih =>
      rw [walkLevel, Total.run_bind load_run, px_eq, slotAt]
      by_cases hp : Present (m.page pa (va / pgSize / 512 ^ (level + 1) % 512))
      · rw [if_pos hp, if_pos hp]
        exact ih
      · rw [if_neg hp, if_neg hp]
        rfl

theorem walk_lookup {m : Mem} {pa va : Nat} (hva : va < maxVa) :
    walk pa va false m = .ok (slotAt m 2 pa (va / pgSize), m) := by
  rw [walk, if_neg (Nat.not_le.mpr hva)]
  exact walkLevel_lookup

theorem walk_present {m : Mem} {pa v : Nat} (hv : v * pgSize < maxVa)
    (hp : Present (leafAt m 2 pa v)) :
    ∃ a, walk pa (v * pgSize) false m = .ok (some a, m) ∧
      slotAt m 2 pa v = some a ∧ m.page a.table a.index = leafAt m 2 pa v := by
  obtain ⟨a, hslot⟩ := slot_of_present hp
  refine ⟨a, ?_, hslot, (leafAt_of_slot hslot).symm⟩
  rw [walk_lookup hv, Nat.mul_div_cancel v (by decide), hslot]

/-! ## A fresh table page -/

section

variable {m : Mem} {level pa v : Nat}

theorem not_present_zero : ¬ Present 0 := by decide

theorem tables_zero (h : ∀ i, m.page pa i = 0) : tables m level pa = {pa} := by
  cases level with
  | zero => rfl
  | succ level =>
      have hsum : ∑ i ∈ entries, subtables m level (m.page pa i) = 0 := by
        apply Finset.sum_eq_zero
        intro i _
        rw [h i, subtables_absent not_present_zero]
      rw [tables_succ, hsum, add_zero]

theorem leafAt_zero (h : ∀ i, m.page pa i = 0) : leafAt m level pa v = 0 := by
  cases level with
  | zero => exact h _
  | succ level => rw [leafAt, h, if_neg not_present_zero]

theorem shaped_zero (h : ∀ i, m.page pa i = 0) : Shaped m level pa := by
  cases level with
  | zero =>
      intro i _ hp
      rw [h i] at hp
      exact absurd hp not_present_zero
  | succ level =>
      intro i _ hp
      rw [h i] at hp
      exact absurd hp not_present_zero

end

/-! ## Looking up with allocation -/

/-- The tree at `pa` took table pages from the free list and changed nothing else. -/
structure Grown (m m' : Mem) (level pa : Nat) : Prop where
  frames : ↑m'.freelist + tables m' level pa = ↑m.freelist + tables m level pa
  within : Within (↑m.freelist + tables m level pa) m m'
  leafAt_eq : ∀ v, leafAt m' level pa v = leafAt m level pa v
  slotAt_keeps : ∀ v a, slotAt m level pa v = some a → slotAt m' level pa v = some a
  shaped : Shaped m level pa → Shaped m' level pa

theorem Grown.refl (m : Mem) (level pa : Nat) : Grown m m level pa :=
  ⟨rfl, Within.refl _ _, fun _ => rfl, fun _ _ => id, id⟩

section

variable {m m' : Mem} {level pa k : Nat}

theorem Grown.of_child (hnd : (↑m.freelist + tables m (level + 1) pa).Nodup)
    (hk : k < 512) (hp : Present (m.page pa k))
    (h : Grown m m' level (pte2pa (m.page pa k))) :
    Grown m m' (level + 1) pa ∧ m'.page pa k = m.page pa k := by
  have hwithin := h.within
  rw [← subtables_present hp] at hwithin
  have hroot : m'.page pa = m.page pa := hwithin.page pa (root_not_mem hnd hk)
  have hchanged : Changed m m' level pa k := by
    apply changed_of_nodup hk hnd
    · intro j _ _
      rw [hroot]
    · intro q _ hq
      exact hwithin.page q hq
  have htables := hchanged.tables_eq hk
  rw [hroot, subtables_present hp, subtables_present hp] at htables
  constructor
  case right => rw [hroot]
  case left =>
      constructor
      case frames =>
          apply add_right_cancel (b := tables m level (pte2pa (m.page pa k)))
          rw [add_assoc, htables, add_left_comm, h.frames, add_left_comm, add_assoc]
      case within =>
          exact hwithin.mono (Multiset.add_le_add_left (subtables_le hk))
      case leafAt_eq =>
          intro v
          by_cases hv : v / 512 ^ (level + 1) % 512 = k
          · simp only [leafAt, hroot, hv, if_pos hp, h.leafAt_eq]
          · exact hchanged.leafAt_eq hv
      case slotAt_keeps =>
          intro v a ha
          by_cases hv : v / 512 ^ (level + 1) % 512 = k
          · simp only [slotAt, hroot, hv, if_pos hp] at ha ⊢
            exact h.slotAt_keeps v a ha
          · rw [hchanged.slotAt_eq hv]
            exact ha
      case shaped =>
          intro hs
          apply hchanged.shaped hs
          rw [hroot]
          intro _
          exact ⟨(hs k hk hp).1, h.shaped (hs k hk hp).2⟩

def linked (m : Mem) (pa k q : Nat) (rest : List Nat) : Mem :=
  ((taken m q rest).setPage q fun _ => 0).setWord pa k (pa2pte q ||| pteV)

theorem linked_page_fresh {q : Nat} {rest : List Nat} (h : q ≠ pa) (i : Nat) :
    (linked m pa k q rest).page q i = 0 := by
  rw [linked, Mem.setWord_page_ne _ _ _ h, Mem.setPage_page_self]

theorem linked_page_root {q : Nat} {rest : List Nat} (h : q ≠ pa) (i : Nat) :
    (linked m pa k q rest).page pa i = if i = k then pa2pte q ||| pteV else m.page pa i := by
  rw [linked, Mem.setWord_page_self, Mem.setPage_page_ne _ _ h.symm, taken,
    Mem.setPage_page_ne _ _ h.symm]

theorem linked_page_other {q r : Nat} {rest : List Nat} (hpa : r ≠ pa) (hq : r ≠ q) :
    (linked m pa k q rest).page r = m.page r := by
  rw [linked, Mem.setWord_page_ne _ _ _ hpa, Mem.setPage_page_ne _ _ hq, taken,
    Mem.setPage_page_ne _ _ hq]

/-- The memories agree but for the entry `k` of the page `pa` and the pages of the stock `F`,
in which the page below that entry was. -/
structure Linked (F : Multiset Nat) (m m' : Mem) (pa k q : Nat) : Prop where
  root : ∀ i, m'.page pa i = if i = k then pa2pte q ||| pteV else m.page pa i
  other : ∀ r, r ≠ pa → r ∉ F → m'.page r = m.page r

theorem linked_of_within {F : Multiset Nat} {q : Nat} {rest : List Nat} (hpa : pa ∉ F)
    (hqpa : q ≠ pa) (hq : q ∈ F) (h : Within F (linked m pa k q rest) m') :
    Linked F m m' pa k q := by
  constructor
  case root =>
      intro i
      rw [h.page pa hpa]
      exact linked_page_root hqpa i
  case other =>
      intro r hr hrF
      rw [h.page r hrF]
      apply linked_page_other hr
      rintro rfl
      exact hrF hq

theorem Linked.changed {F : Multiset Nat} {q : Nat} (h : Linked F m m' pa k q)
    (hnd : (F + tables m (level + 1) pa).Nodup) (hk : k < 512)
    (hp : ¬ Present (m.page pa k)) : Changed m m' level pa k := by
  apply changed_of_nodup hk hnd
  · intro j _ hjk
    rw [h.root j, if_neg hjk]
  · intro r hr hrF
    rw [subtables_absent hp, add_zero] at hrF
    exact h.other r hr hrF

theorem Linked.within {F : Multiset Nat} {q : Nat} (h : Linked F m m' pa k q)
    (hrefreed : m'.refreed = m.refreed) : Within (F + tables m level pa) m m' := by
  constructor
  case refreed => exact hrefreed
  case page =>
      intro r hr
      have hrX := fun hmem => hr (Multiset.mem_add.mpr hmem)
      apply h.other r
      · rintro rfl
        exact hrX (Or.inr root_mem_tables)
      · exact fun hmem => hrX (Or.inl hmem)

theorem Grown.of_linked [Image] {q : Nat} {rest : List Nat}
    (hnd : (↑m.freelist + tables m (level + 1) pa).Nodup)
    (hfree : m.freelist = q :: rest) (hq : Frame q)
    (hk : k < 512) (hp : ¬ Present (m.page pa k))
    (h : Grown (linked m pa k q rest) m' level q) :
    Grown m m' (level + 1) pa ∧ m'.page pa k = pa2pte q ||| pteV := by
  have hpafree : pa ∉ (↑m.freelist : Multiset Nat) := by
    have hpa := root_not_mem hnd hk
    rw [subtables_absent hp, add_zero] at hpa
    exact hpa
  have hqfree : q ∈ (↑m.freelist : Multiset Nat) := by
    rw [hfree]
    exact List.mem_cons_self
  have hqpa : q ≠ pa := fun heq => hpafree (heq ▸ hqfree)
  have hstock : (↑rest : Multiset Nat) + {q} = ↑m.freelist := by
    rw [hfree, ← Multiset.cons_coe, add_comm, Multiset.singleton_add]
  have htables₁ : tables (linked m pa k q rest) level q = {q} :=
    tables_zero (linked_page_fresh hqpa)
  have hlist₁ : (linked m pa k q rest).freelist = rest := rfl
  have hwithin := h.within
  rw [htables₁, hlist₁, hstock] at hwithin
  have hframes := h.frames
  rw [htables₁, hlist₁, hstock] at hframes
  have hlinked := linked_of_within hpafree hqpa hqfree hwithin
  have hentry : m'.page pa k = pa2pte q ||| pteV := by
    rw [hlinked.root k, if_pos rfl]
  have hchanged := hlinked.changed hnd hk hp
  have htables := hchanged.tables_eq hk
  rw [subtables_absent hp, add_zero, hentry, subtables_present present_node,
    pte2pa_node hq] at htables
  constructor
  case right => exact hentry
  case left =>
      constructor
      case frames => rw [htables, add_left_comm, hframes, add_comm]
      case within => exact hlinked.within hwithin.refreed
      case leafAt_eq =>
          intro v
          by_cases hv : v / 512 ^ (level + 1) % 512 = k
          · simp only [leafAt, hv, hentry, if_pos present_node, pte2pa_node hq,
              h.leafAt_eq, leafAt_zero (linked_page_fresh hqpa), if_neg hp]
          · exact hchanged.leafAt_eq hv
      case slotAt_keeps =>
          intro v a ha
          by_cases hv : v / 512 ^ (level + 1) % 512 = k
          · simp only [slotAt, hv, if_neg hp] at ha
            contradiction
          · rw [hchanged.slotAt_eq hv]
            exact ha
      case shaped =>
          intro hs
          apply hchanged.shaped hs
          rw [hentry, pte2pa_node hq]
          intro _
          exact ⟨not_maps_node, h.shaped (shaped_zero (linked_page_fresh hqpa))⟩

theorem linked_grows_nodup {q : Nat} {rest : List Nat}
    (hnd : (↑m.freelist + tables m (level + 1) pa).Nodup)
    (hfree : m.freelist = q :: rest) (hqpa : q ≠ pa) :
    (↑(linked m pa k q rest).freelist + tables (linked m pa k q rest) level q).Nodup := by
  rw [tables_zero (linked_page_fresh hqpa)]
  change ((↑rest : Multiset Nat) + {q}).Nodup
  rw [add_comm, Multiset.singleton_add, Multiset.cons_coe, ← hfree]
  exact (Multiset.nodup_add.mp hnd).1

theorem head_ne_root {q : Nat} {rest : List Nat}
    (hnd : (↑m.freelist + tables m level pa).Nodup) (hfree : m.freelist = q :: rest) :
    q ≠ pa := by
  intro heq
  have hdis := (Multiset.nodup_add.mp hnd).2.2
  have hq : q ∈ (↑m.freelist : Multiset Nat) := by
    rw [hfree]
    exact List.mem_cons_self
  rw [heq] at hq
  exact Multiset.disjoint_left.mp hdis hq root_mem_tables

theorem walkLevel_alloc [Image] {va : Nat}
    (hnd : (↑m.freelist + tables m level pa).Nodup)
    (hfree : ∀ q ∈ m.freelist, Frame q) :
    Total (walkLevel va true level pa) m fun r m' =>
      Grown m m' level pa ∧ r = slotAt m' level pa (va / pgSize) := by
  induction level generalizing m pa with
  | zero =>
      apply Total.of_eq (a := some ⟨pa, px 0 va⟩) (t := m) rfl
      simp only [slotAt, px_eq, Nat.pow_zero, Nat.div_one, and_true]
      exact Grown.refl m 0 pa
  | succ level ih =>
      have hk := index_lt (level + 1) (va / pgSize)
      rw [walkLevel]
      apply Total.bind_eq load_run
      rw [px_eq]
      by_cases hp : Present (m.page pa (va / pgSize / 512 ^ (level + 1) % 512))
      · rw [if_pos hp]
        have hnd' := Multiset.nodup_of_le (Multiset.add_le_add_left (child_le hk hp)) hnd
        apply (ih hnd' hfree).mono
        intro r m' h
        obtain ⟨hgrown, hentry⟩ := h.1.of_child hnd hk hp
        refine ⟨hgrown, ?_⟩
        rw [slotAt, hentry, if_pos hp]
        exact h.2
      · rw [if_neg hp, if_pos rfl]
        cases hlist : m.freelist with
        | nil =>
            apply Total.bind_eq (kalloc_nil hlist)
            apply Total.pure
            refine ⟨Grown.refl m _ pa, ?_⟩
            rw [slotAt, if_neg hp]
        | cons q rest =>
            have hqpa := head_ne_root hnd hlist
            have hq : Frame q := hfree q (by rw [hlist]; exact List.mem_cons_self)
            apply Total.bind_eq (kalloc_cons hlist)
            apply Total.bind_eq memset_run
            apply Total.bind_eq store_run
            have hrest : ∀ r ∈ (linked m pa (va / pgSize / 512 ^ (level + 1) % 512)
                q rest).freelist, Frame r := by
              intro r hr
              apply hfree r
              rw [hlist]
              exact List.mem_cons_of_mem q hr
            apply (ih (linked_grows_nodup hnd hlist hqpa) hrest).mono
            intro r m' h
            obtain ⟨hgrown, hentry⟩ := h.1.of_linked hnd hlist hq hk hp
            refine ⟨hgrown, ?_⟩
            rw [slotAt, hentry, if_pos present_node, pte2pa_node hq]
            exact h.2

theorem walk_alloc [Image] {va : Nat} (hva : va < maxVa)
    (hnd : (↑m.freelist + tables m 2 pa).Nodup) (hfree : ∀ q ∈ m.freelist, Frame q) :
    Total (walk pa va true) m fun r m' =>
      Grown m m' 2 pa ∧ r = slotAt m' 2 pa (va / pgSize) := by
  rw [walk, if_neg (Nat.not_le.mpr hva)]
  exact walkLevel_alloc hnd hfree

end

end SyscallSched.Xv6
