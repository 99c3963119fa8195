import SyscallSched.Xv6.Boot
import SyscallSched.Xv6.PageMap

/-!
# Every table that can be built

`Built` are the tables that come from `uvmcreate` by calls of `mappages` and `uvmunmap`,
with anything happening in between that leaves the pages of the table alone.
-/

namespace SyscallSched.Xv6

open SyscallSched.Foundation

/-- `kalloc` hands out pages that are not in the tree, each once, until it fails. -/
structure Supply [Image] (m : Mem) (r : Nat) : Prop where
  nodup : (↑m.freelist + tables m 2 r).Nodup
  frame : ∀ q ∈ m.freelist, Frame q

def Given (va npages p : Nat) : Prop :=
  va ≤ p * pgSize ∧ p * pgSize < (va + npages * pgSize) % 2 ^ 64

instance (va npages p : Nat) : Decidable (Given va npages p) :=
  inferInstanceAs (Decidable (_ ∧ _))

/-- `uvmunmap` with `do_free` is to free no interior page of the table itself. -/
def Spares (m : Mem) (r va npages : Nat) (doFree : Bool) : Prop :=
  doFree = true → ∀ p e, Given va npages p → entryAt m r p = some e → pte2pa e ∉ tables m 2 r

inductive Built [Image] : Mem → Nat → Prop
  | create {m m' : Mem} {r : Nat} (hnd : m.freelist.Nodup) (hframe : ∀ q ∈ m.freelist, Frame q)
      (hrun : uvmcreate m = .ok (some r, m')) : Built m' r
  | map {m m' : Mem} {r va size pa perm : Nat} {done : Bool} (h : Built m r) (hs : Supply m r)
      (hperm : Maps perm) (hpa : pa < 2 ^ 64)
      (hrun : mappages r va size pa perm m = .ok (done, m')) : Built m' r
  | unmap {m m' : Mem} {r va npages : Nat} {doFree : Bool} (h : Built m r)
      (hspares : Spares m r va npages doFree)
      (hrun : uvmunmap r va npages doFree m = .ok ((), m')) : Built m' r
  | elsewhere {m m' : Mem} {r : Nat} (h : Built m r)
      (hkept : ∀ q ∈ tables m 2 r, m'.page q = m.page q) : Built m' r

section

variable [Image] {X U : Multiset Nat} {m m' : Mem} {r v n va size pa perm npages : Nat}
  {g : Nat → Nat} {done doFree : Bool}

/-! ## Tables and address spaces -/

theorem Tree.space (h : Tree m r) (hs : Supply m r) :
    Space (↑m.freelist + tables m 2 r) m r (leafAt m 2 r) 0 := by
  constructor
  case frames => rw [add_zero]
  case nodup => exact hs.nodup
  case valid =>
      intro q hq
      cases Multiset.mem_add.mp hq with
      | inl hq => exact hs.frame q hq
      | inr hq => exact h.frame q hq
  case shaped => exact h.shaped
  case leaf => exact fun _ _ => rfl

theorem Space.tree (h : Space X m r g U) (hlow : ∀ w < 512 ^ 3, Present (g w) → w < 2 ^ 26) :
    Tree m r := by
  constructor
  case nodup => exact Multiset.nodup_of_le h.tables_le h.nodup
  case frame => exact fun q hq => h.valid q (Multiset.mem_of_le h.tables_le hq)
  case shaped => exact h.shaped
  case low =>
      intro w hw
      rw [h.leaf w hw]
      exact hlow w hw

theorem Tree.supply_of_empty (h : Tree m r) (hempty : m.freelist = []) : Supply m r := by
  constructor
  case nodup =>
      rw [hempty, Multiset.coe_nil, zero_add]
      exact h.nodup
  case frame =>
      rw [hempty]
      exact fun q hq => absurd hq List.not_mem_nil

theorem created_space (hnd : m.freelist.Nodup) (hframe : ∀ q ∈ m.freelist, Frame q)
    (hrun : uvmcreate m = .ok (some r, m')) : Space ↑m.freelist m' r (fun _ => 0) 0 := by
  have hstock : Stock (↑m.freelist) m 0 := ⟨add_zero _, hnd, hframe⟩
  exact ((uvmcreate_spec hstock).outcome hrun).2

/-! ## The calls -/

theorem Tree.mappages_ok (h : Tree m r) (hs : Supply m r) (hperm : Maps perm)
    (hpa : pa < 2 ^ 64) (hrun : mappages r va size pa perm m = .ok (done, m')) :
    ∃ k ≤ size / pgSize, (done = true ↔ k = size / pgSize) ∧
      (∀ i < k, va / pgSize + i < 2 ^ 26 ∧ ¬ Present (leafAt m 2 r (va / pgSize + i))) ∧
      Space (↑m.freelist + tables m 2 r) m' r
        (mapped (leafAt m 2 r) (va / pgSize) k pa perm) 0 := by
  rw [mappages] at hrun
  split_ifs at hrun with haligned hsize hzero
  · cases hrun
  · cases hrun
  · cases hrun
  have hva : va / pgSize * pgSize = va :=
    Nat.div_mul_cancel (Nat.dvd_of_mod_eq_zero (not_not.mp haligned))
  rw [← hva] at hrun
  exact mapLoop_ok (h.space hs) hperm hpa hrun

theorem mapped_low (h : Tree m r) {k : Nat} (hbound : ∀ i < k, v + i < 2 ^ 26) :
    ∀ w < 512 ^ 3, Present (mapped (leafAt m 2 r) v k pa perm w) → w < 2 ^ 26 := by
  intro w hw hp
  rw [mapped] at hp
  split_ifs at hp with hin
  · have hlt := hbound (w - v) (by omega)
    omega
  · exact h.low w hw hp

theorem uvmunmap_eq (r npages : Nat) (doFree : Bool) (haligned : va % pgSize = 0) :
    ∃ n, (∀ p, Given va npages p ↔ va / pgSize ≤ p ∧ p < va / pgSize + n) ∧
      uvmunmap r va npages doFree = unmapLoop r doFree n (va / pgSize * pgSize) := by
  have hva : va / pgSize * pgSize = va :=
    Nat.div_mul_cancel (Nat.dvd_of_mod_eq_zero haligned)
  refine ⟨pageSteps va ((va + npages * pgSize) % 2 ^ 64), ?_, ?_⟩
  · intro p
    rw [Given]
    generalize (va + npages * pgSize) % 2 ^ 64 = limit
    simp only [pageSteps, pgSize] at *
    omega
  · rw [uvmunmap, if_neg (not_not.mpr haligned), hva]

theorem Tree.uvmunmap_ok (h : Tree m r) (hspares : Spares m r va npages doFree)
    (hrun : uvmunmap r va npages doFree m = .ok ((), m')) :
    ∃ n, (∀ p, Given va npages p ↔ va / pgSize ≤ p ∧ p < va / pgSize + n) ∧
      (∀ i < n, entryAt m r (va / pgSize + i) ≠ none) ∧
      Removed m m' r (va / pgSize) n := by
  have haligned : va % pgSize = 0 := by
    by_cases haligned : va % pgSize = 0
    · exact haligned
    · rw [uvmunmap, if_pos haligned] at hrun
      cases hrun
  obtain ⟨n, hgiven, heq⟩ := uvmunmap_eq r npages doFree haligned
  rw [heq] at hrun
  have hbound := h.unmapLoop_ok_bound (by
    intro htrue i hi hlt hp
    apply hspares htrue _ _ ((hgiven (va / pgSize + i)).mpr (by omega))
    exact entryAt_some.mpr ⟨hlt, hp, rfl⟩) hrun
  obtain ⟨t, hrun', hremoved⟩ := h.unmapLoop_removes (fun i hi => (hbound i hi).1)
    (fun htrue i hi => (hbound i hi).2 htrue)
  rw [hrun] at hrun'
  cases hrun'
  refine ⟨n, hgiven, ?_, hremoved⟩
  intro i hi
  obtain ⟨hlt, hp⟩ := (hbound i hi).1
  rw [entryAt_some.mpr ⟨hlt, hp, rfl⟩]
  exact Option.some_ne_none _

/-- Where the mappings exist, `uvmunmap` comes to its end. -/
theorem Tree.uvmunmap_returns (h : Tree m r) (haligned : va % pgSize = 0)
    (hbound : ∀ i < npages, ∃ e, entryAt m r (va / pgSize + i) = some e ∧
      (doFree = true → Freeable m r (pte2pa e))) :
    ∃ m', uvmunmap r va npages doFree m = .ok ((), m') ∧
      Removed m m' r (va / pgSize) npages := by
  have hleaf : ∀ i < npages, (va / pgSize + i < 2 ^ 26 ∧
      Present (leafAt m 2 r (va / pgSize + i))) ∧
      (doFree = true → Freeable m r (pte2pa (leafAt m 2 r (va / pgSize + i)))) := by
    intro i hi
    obtain ⟨e, he, hfree⟩ := hbound i hi
    obtain ⟨hlt, hp, rfl⟩ := entryAt_some.mp he
    exact ⟨⟨hlt, hp⟩, hfree⟩
  have hsteps : pageSteps va ((va + npages * pgSize) % 2 ^ 64) = npages := by
    cases npages with
    | zero =>
        simp only [pageSteps, pgSize]
        omega
    | succ n =>
        have hlast := (hleaf n (Nat.lt_succ_self n)).1.1
        simp only [pageSteps, pgSize] at *
        omega
  obtain ⟨m', hrun, hremoved⟩ := h.unmapLoop_removes (fun i hi => (hleaf i hi).1)
    (fun htrue i hi => (hleaf i hi).2 htrue)
  refine ⟨m', ?_, hremoved⟩
  rw [Nat.div_mul_cancel (Nat.dvd_of_mod_eq_zero haligned)] at hrun
  rw [uvmunmap, if_neg (not_not.mpr haligned), hsteps, hrun]

/-! ## Runs -/

theorem Built.tree (h : Built m r) : Tree m r := by
  induction h with
  | create hnd hframe hrun =>
      exact (created_space hnd hframe hrun).tree fun _ _ hp => absurd hp not_present_zero
  | map _ hs hperm hpa hrun ih =>
      obtain ⟨k, -, -, hbound, hspace⟩ := ih.mappages_ok hs hperm hpa hrun
      exact hspace.tree (mapped_low ih fun i hi => (hbound i hi).1)
  | unmap _ hspares hrun ih =>
      obtain ⟨n, -, -, hremoved⟩ := ih.uvmunmap_ok hspares hrun
      exact hremoved.tree
  | elsewhere _ hkept ih => exact ih.agree hkept

/-! ## What the calls do to the map -/

theorem Space.entryAt_mapped {k : Nat} (h : Space X m' r (mapped (leafAt m 2 r) v k pa perm) U)
    (hbound : ∀ i < k, v + i < 2 ^ 26) :
    entryAt m' r = bindRun (entryAt m r) v k fun i => leafEntry (runAddr pa i) perm := by
  funext p
  rw [bindRun]
  by_cases hp : p < 2 ^ 26
  · rw [entryAt_eq, h.leaf p (page_lt_reach hp), mapped]
    split_ifs with hin hfound
    · rfl
    · exact absurd ⟨hp, present_leafEntry⟩ hfound
    · rw [entryAt_eq, if_pos ‹_›]
    · rw [entryAt_eq, if_neg ‹_›]
  · have hout : ¬ (v ≤ p ∧ p < v + k) := by
      rintro ⟨hge, hlt⟩
      have hlt' := hbound (p - v) (by omega)
      omega
    rw [entryAt_high hp, if_neg hout, entryAt_high hp]

theorem Removed.entryAt_eq (h : Removed m m' r v n) :
    entryAt m' r = dropRun (entryAt m r) v n := by
  funext p
  rw [dropRun]
  by_cases hp : p < 2 ^ 26
  · rw [Xv6.entryAt_eq, Xv6.entryAt_eq, h.leaf p (page_lt_reach hp), cleared]
    split_ifs with hin hzero
    · exact absurd hzero.2 not_present_zero
    · rfl
    · rfl
    · rfl
  · rw [entryAt_high hp, entryAt_high hp, ite_self]

/-! ## Slots -/

theorem walk_slot {alloc : Bool} {result : Option PteAddr} (h : Space X m r g U)
    (hrun : walk r va alloc m = .ok (result, m')) :
    result = slotAt m' 2 r (va / pgSize) ∧ Grown m m' 2 r ∧ va / pgSize < 2 ^ 26 := by
  have hva := walk_ok_lt hrun
  have hpage := page_lt_of_va hva
  cases alloc with
  | false =>
      rw [walk_lookup hva] at hrun
      cases hrun
      exact ⟨rfl, Grown.refl m 2 r, hpage⟩
  | true =>
      obtain ⟨hgrown, hresult⟩ := (walk_alloc hva h.stock_nodup h.free_frame).outcome hrun
      exact ⟨hresult, hgrown, hpage⟩

theorem Space.same_slot {alloc alloc' : Bool} {s s' : PteAddr} {m₁ m₂ : Mem} {va' : Nat}
    (h : Space X m r g U) (hrun : walk r va alloc m = .ok (some s, m₁))
    (hrun' : walk r va' alloc' m₁ = .ok (some s', m₂)) :
    s = s' ↔ va / pgSize = va' / pgSize := by
  obtain ⟨hs, hgrown, hpage⟩ := walk_slot h hrun
  have h₁ := h.of_grown hgrown
  obtain ⟨hs', hgrown', hpage'⟩ := walk_slot h₁ hrun'
  have h₂ := h₁.of_grown hgrown'
  have hkept := hgrown'.slotAt_keeps _ _ hs.symm
  constructor
  · rintro rfl
    have hnd := Multiset.nodup_of_le h₂.tables_le h₂.nodup
    have hmod := slotAt_inj hnd hkept hs'.symm
    rw [Nat.mod_eq_of_lt (page_lt_reach hpage), Nat.mod_eq_of_lt (page_lt_reach hpage')] at hmod
    exact hmod
  · intro hsame
    rw [← hsame, hkept] at hs'
    exact Option.some.inj hs'.symm

/-! ## A page table is a finite map -/

/-- The map is finite.  `walk` gives two addresses one slot exactly if they are on one page.
`mappages` binds the pages that it is given, or a first part of them if `kalloc` fails, and
`uvmunmap` removes those that it is given; neither touches another binding.  No two ways
lead to one interior page, and without bindings `freewalk` frees each of them once. -/
theorem pageTable_map (h : Built m r) (hs : Supply m r) :
    (∀ p, entryAt m r p ≠ none → p < maxVa / pgSize) ∧
    (∀ va va' alloc alloc' s s' m₁ m₂, walk r va alloc m = .ok (some s, m₁) →
      walk r va' alloc' m₁ = .ok (some s', m₂) → (s = s' ↔ va / pgSize = va' / pgSize)) ∧
    (∀ va size pa perm done m', Maps perm → pa < 2 ^ 64 →
      mappages r va size pa perm m = .ok (done, m') →
      ∃ k ≤ size / pgSize, (done = true ↔ k = size / pgSize) ∧
        (∀ i < k, entryAt m r (va / pgSize + i) = none) ∧
        entryAt m' r = bindRun (entryAt m r) (va / pgSize) k fun i =>
          leafEntry (runAddr pa i) perm) ∧
    (∀ pa perm, pa < 2 ^ 64 → perm < 1024 → pte2pa (leafEntry pa perm) = pgRoundDown pa ∧
      pteFlags (leafEntry pa perm) = perm ||| pteV) ∧
    (∀ va npages doFree m', Spares m r va npages doFree →
      uvmunmap r va npages doFree m = .ok ((), m') → ∀ p,
        (Given va npages p → entryAt m r p ≠ none) ∧
        entryAt m' r p = if Given va npages p then none else entryAt m r p) ∧
    (∀ va npages doFree, va % pgSize = 0 →
      (∀ i < npages, ∃ e, entryAt m r (va / pgSize + i) = some e ∧
        (doFree = true → Freeable m r (pte2pa e))) →
      ∃ m', uvmunmap r va npages doFree m = .ok ((), m') ∧
        entryAt m' r = dropRun (entryAt m r) (va / pgSize) npages) ∧
    (∀ is js q, Path m r is q → Path m r js q → is = js) ∧
    ((∀ p, entryAt m r p = none) →
      ∃ m' freed, freewalk stackDepth r m = .ok ((), m') ∧ m'.refreed = m.refreed ∧
        (↑m'.freelist : Multiset Nat) = ↑m.freelist + freed ∧ freed.Nodup ∧
        ∀ q, q ∈ freed ↔ ∃ is, Path m r is q) := by
  have ht := h.tree
  have hspace := ht.space hs
  refine ⟨?_, ?_, ?_, ?_, ?_, ?_, ?_, ?_⟩
  · intro p hp
    by_cases hlow : p < 2 ^ 26
    · exact hlow.trans_le (by decide)
    · exact absurd (entryAt_high hlow) hp
  · intro va va' alloc alloc' s s' m₁ m₂ hrun hrun'
    exact hspace.same_slot hrun hrun'
  · intro va size pa perm done m' hperm hpa hrun
    obtain ⟨k, hk, hdone, hbound, hspace'⟩ := ht.mappages_ok hs hperm hpa hrun
    refine ⟨k, hk, hdone, ?_, hspace'.entryAt_mapped fun i hi => (hbound i hi).1⟩
    intro i hi
    rw [entryAt_eq, if_neg (fun hboth => (hbound i hi).2 hboth.2)]
  · intro pa perm hpa hperm
    exact ⟨pte2pa_leafEntry_word hpa hperm, pteFlags_leafEntry hperm⟩
  · intro va npages doFree m' hspares hrun p
    obtain ⟨n, hgiven, hbound, hremoved⟩ := ht.uvmunmap_ok hspares hrun
    constructor
    · intro hp
      obtain ⟨hge, hlt⟩ := (hgiven p).mp hp
      have hdist : va / pgSize + (p - va / pgSize) = p := by omega
      rw [← hdist]
      exact hbound _ (by omega)
    · rw [hremoved.entryAt_eq, dropRun]
      simp only [hgiven]
  · intro va npages doFree haligned hbound
    obtain ⟨m', hrun, hremoved⟩ := ht.uvmunmap_returns haligned hbound
    exact ⟨m', hrun, hremoved.entryAt_eq⟩
  · intro is js q hpath hpath'
    exact hpath.unique ht.shaped ht.nodup hpath'
  · intro hnone
    have hbare : ∀ w < 512 ^ 3, ¬ Present (leafAt m 2 r w) := by
      intro w hw hp
      have hentry := hnone w
      rw [entryAt_eq, if_pos ⟨ht.low w hw hp, hp⟩] at hentry
      cases hentry
    obtain ⟨_, m', hrun, hwithin, hstock⟩ := hspace.freewalk_spec hbare
    refine ⟨m', tables m 2 r, hrun, hwithin.refreed, ?_, ht.nodup, ?_⟩
    · rw [← hstock.frames, add_zero]
    · intro q
      constructor
      · exact exists_path ht.shaped
      · rintro ⟨is, hpath⟩
        exact hpath.mem_tables ht.shaped

end

/-! ## A table of three pages -/

def threePages : Mem where
  freelist := [0x80026000, 0x80025000, 0x80024000]
  page := fun _ _ => 0
  refreed := []

def emptyTable : Mem :=
  (taken threePages 0x80026000 [0x80025000, 0x80024000]).setPage 0x80026000 fun _ => 0

section

attribute [local instance] builtImage

theorem threePages_frame : ∀ q ∈ threePages.freelist, Frame q := by
  intro q hq
  simp only [threePages, List.mem_cons, List.not_mem_nil, or_false] at hq
  rcases hq with rfl | rfl | rfl <;> exact ⟨by decide, by decide, by decide⟩

theorem emptyTable_created : uvmcreate threePages = .ok (some 0x80026000, emptyTable) := rfl

theorem emptyTable_built : Built emptyTable 0x80026000 :=
  .create (by decide) threePages_frame emptyTable_created

theorem emptyTable_supply : Supply emptyTable 0x80026000 :=
  have h := created_space (by decide) threePages_frame emptyTable_created
  ⟨h.stock_nodup, h.free_frame⟩

theorem emptyTable_entryAt (p : Nat) : entryAt emptyTable 0x80026000 p = none := by
  have hleaf : leafAt emptyTable 2 0x80026000 p = 0 := leafAt_zero fun _ => rfl
  rw [entryAt_eq, hleaf, if_neg (fun h => not_present_zero h.2)]

theorem pageTable_map_device :
    (∃ m₁ m₂, mappages 0x80026000 0 8192 0x10000000 6 emptyTable = .ok (true, m₁) ∧
      (∀ p, entryAt m₁ 0x80026000 p =
        if p < 2 then some (leafEntry (runAddr 0x10000000 p) 6) else none) ∧
      uvmunmap 0x80026000 0 2 false m₁ = .ok ((), m₂) ∧
      ∀ p, entryAt m₂ 0x80026000 p = none) ∧
    ∃ m' freed, freewalk stackDepth 0x80026000 emptyTable = .ok ((), m') ∧
      (↑m'.freelist : Multiset Nat) = ↑emptyTable.freelist + freed ∧ freed.Nodup := by
  have hempty := pageTable_map emptyTable_built emptyTable_supply
  constructor
  case right =>
      obtain ⟨m', freed, hrun, -, hlist, hnd, -⟩ := hempty.2.2.2.2.2.2.2 emptyTable_entryAt
      exact ⟨m', freed, hrun, hlist, hnd⟩
  case left =>
      have heval : (mappages 0x80026000 0 8192 0x10000000 6 emptyTable).toOption.map
          (fun p => (p.1, p.2.freelist)) = some (true, []) := by decide +kernel
      cases hrun : mappages 0x80026000 0 8192 0x10000000 6 emptyTable with
      | error e =>
          rw [hrun] at heval
          cases heval
      | ok p =>
          obtain ⟨done, m₁⟩ := p
          rw [hrun] at heval
          obtain ⟨rfl, hlist⟩ := Prod.mk.inj (Option.some.inj heval)
          obtain ⟨k, -, hdone, -, hentry⟩ :=
            hempty.2.2.1 0 8192 0x10000000 6 true m₁ (by decide) (by decide) hrun
          obtain rfl := hdone.mp rfl
          have hbound : ∀ p, entryAt m₁ 0x80026000 p =
              if p < 2 then some (leafEntry (runAddr 0x10000000 p) 6) else none := by
            intro p
            rw [hentry, bindRun, emptyTable_entryAt]
            simp [pgSize]
          have hbuilt := emptyTable_built.map emptyTable_supply (by decide) (by decide) hrun
          have hfull := pageTable_map hbuilt (hbuilt.tree.supply_of_empty hlist)
          obtain ⟨m₂, hrun₂, hdropped⟩ := hfull.2.2.2.2.2.1 0 2 false (by decide) (by
            intro i hi
            have hpage : 0 / pgSize + i = i := by simp
            rw [hpage, hbound, if_pos hi]
            exact ⟨_, rfl, fun h => by cases h⟩)
          refine ⟨m₁, m₂, rfl, hbound, hrun₂, ?_⟩
          intro p
          rw [hdropped, dropRun, hbound]
          simp only [Nat.zero_div, Nat.zero_le, true_and, Nat.zero_add]
          split_ifs <;> rfl

/-- The page mapped at 0 is the one that holds the entries of this run: to free it changes
the entry of page 1.  2^52 pages from 0 on are none in 64 bits, so that page 0 stays. -/
theorem uvmunmap_own_page : ∃ m, Built m 0x80026000 ∧ Supply m 0x80026000 ∧
    (∃ m', uvmunmap 0x80026000 0 1 true m = .ok ((), m') ∧
      entryAt m 0x80026000 1 = some (leafEntry 0x80025000 6) ∧
      entryAt m' 0x80026000 1 = some 0x0101010101010101) ∧
    uvmunmap 0x80026000 0 (2 ^ 52) false m = .ok ((), m) ∧
    entryAt m 0x80026000 0 = some (leafEntry 0x80024000 6) := by
  have heval : (mappages 0x80026000 0 8192 0x80024000 6 emptyTable).toOption.bind (fun p =>
      (uvmunmap 0x80026000 0 1 true p.2).toOption.map fun q =>
        (p.2.freelist, entryAt p.2 0x80026000 0, entryAt p.2 0x80026000 1,
          entryAt q.2 0x80026000 1)) =
      some ([], some (leafEntry 0x80024000 6), some (leafEntry 0x80025000 6),
        some 0x0101010101010101) := by
    decide +kernel
  cases hrun : mappages 0x80026000 0 8192 0x80024000 6 emptyTable with
  | error e =>
      rw [hrun] at heval
      cases heval
  | ok p =>
      rw [hrun] at heval
      change (uvmunmap 0x80026000 0 1 true p.2).toOption.map _ = _ at heval
      have hbuilt := emptyTable_built.map emptyTable_supply (by decide) (by decide) hrun
      cases hrun' : uvmunmap 0x80026000 0 1 true p.2 with
      | error e =>
          rw [hrun'] at heval
          cases heval
      | ok q =>
          rw [hrun'] at heval
          simp only [Except.toOption, Option.map_some, Option.some.injEq, Prod.mk.injEq] at heval
          obtain ⟨hlist, hzero, hone, hlost⟩ := heval
          have hnone : pageSteps 0 ((0 + 2 ^ 52 * pgSize) % 2 ^ 64) = 0 := by decide
          have hguard : ¬ 0 % pgSize ≠ 0 := by decide
          refine ⟨p.2, hbuilt, hbuilt.tree.supply_of_empty hlist, ⟨q.2, hrun', hone, hlost⟩, ?_,
            hzero⟩
          rw [uvmunmap, if_neg hguard, hnone]
          rfl

end

end SyscallSched.Xv6
