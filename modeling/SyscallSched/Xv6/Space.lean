import SyscallSched.Xv6.Walk

/-!
# An address space and the pages it stands on

`Space X m r g U` says that the table rooted at `r` maps page number `v` by the
entry `g v`, and that the free pages, the pages of the table and the held pages
`U` are the pool `X`, every page of it once.  An operation on the address space
keeps the pool and moves pages between the three parts.
-/

namespace SyscallSched.Xv6

open SyscallSched.Foundation

variable [Image]

structure Space (X : Multiset Nat) (m : Mem) (r : Nat) (g : Nat → Nat)
    (U : Multiset Nat) : Prop where
  frames : ↑m.freelist + tables m 2 r + U = X
  nodup : X.Nodup
  valid : ∀ q ∈ X, Frame q
  shaped : Shaped m 2 r
  leaf : ∀ v < 512 ^ 3, leafAt m 2 r v = g v

def Kept (U : Multiset Nat) (m m' : Mem) : Prop :=
  ∀ q ∈ U, m'.page q = m.page q

namespace Kept

variable {U V X : Multiset Nat} {m m' m'' : Mem}

omit [Image]

theorem refl (U : Multiset Nat) (m : Mem) : Kept U m m := fun _ _ => rfl

theorem trans (h : Kept U m m') (h' : Kept U m' m'') : Kept U m m'' :=
  fun q hq => (h' q hq).trans (h q hq)

theorem mono (h : Kept V m m') (hUV : U ≤ V) : Kept U m m' :=
  fun q hq => h q (Multiset.mem_of_le hUV hq)

theorem of_within (h : Within X m m') (hdis : Disjoint X U) : Kept U m m' :=
  fun q hq => h.page q (Multiset.disjoint_right.mp hdis hq)

end Kept

namespace Space

variable {X U : Multiset Nat} {m m' : Mem} {r v : Nat} {g g' : Nat → Nat}

theorem congr (h : Space X m r g U) (hg : ∀ v < 512 ^ 3, g v = g' v) :
    Space X m r g' U :=
  { h with leaf := fun v hv => (h.leaf v hv).trans (hg v hv) }

theorem stock_le (h : Space X m r g U) : ↑m.freelist + tables m 2 r ≤ X := by
  rw [← h.frames]
  exact Multiset.le_add_right _ _

theorem freelist_le (h : Space X m r g U) : ↑m.freelist ≤ X :=
  (Multiset.le_add_right _ _).trans h.stock_le

theorem tables_le (h : Space X m r g U) : tables m 2 r ≤ X :=
  (Multiset.le_add_left _ _).trans h.stock_le

theorem held_le (h : Space X m r g U) : U ≤ X := by
  rw [← h.frames]
  exact Multiset.le_add_left _ _

theorem stock_nodup (h : Space X m r g U) : (↑m.freelist + tables m 2 r).Nodup :=
  Multiset.nodup_of_le h.stock_le h.nodup

theorem free_frame (h : Space X m r g U) : ∀ q ∈ m.freelist, Frame q :=
  fun q hq => h.valid q (Multiset.mem_of_le h.freelist_le hq)

theorem held_disjoint (h : Space X m r g U) :
    Disjoint (↑m.freelist + tables m 2 r) U := by
  have hnd := h.nodup
  rw [← h.frames] at hnd
  exact (Multiset.nodup_add.mp hnd).2.2

theorem tables_disjoint_held (h : Space X m r g U) : Disjoint (tables m 2 r) U :=
  h.held_disjoint.mono_left (Multiset.le_add_left _ _)

theorem of_grown (h : Space X m r g U) (hgrown : Grown m m' 2 r) :
    Space X m' r g U := by
  constructor
  case frames => rw [hgrown.frames, h.frames]
  case nodup => exact h.nodup
  case valid => exact h.valid
  case shaped => exact hgrown.shaped h.shaped
  case leaf =>
      intro v hv
      rw [hgrown.leafAt_eq, h.leaf v hv]

theorem slot_entry {a : PteAddr} (h : Space X m r g U) (hv : v < 512 ^ 3)
    (hslot : slotAt m 2 r v = some a) : m.page a.table a.index = g v := by
  rw [← leafAt_of_slot hslot, h.leaf v hv]

theorem agree_of_within (h : Space X m r g U) (hwithin : Within U m m') :
    Agree m m' 2 r :=
  hwithin.agree h.tables_disjoint_held

theorem rebase {X' U' : Multiset Nat} (h : Space X m r g U) (hagree : Agree m m' 2 r)
    (hframes : ↑m'.freelist + tables m 2 r + U' = X') (hnd : X'.Nodup)
    (hvalid : ∀ q ∈ X', Frame q) : Space X' m' r g U' := by
  constructor
  case frames => rw [hagree.tables_eq, hframes]
  case nodup => exact hnd
  case valid => exact hvalid
  case shaped => exact hagree.shaped h.shaped
  case leaf =>
      intro v hv
      rw [hagree.leafAt_eq, h.leaf v hv]

theorem of_agree (h : Space X m r g U) (hagree : Agree m m' 2 r) {U' : Multiset Nat}
    (hframes : ↑m'.freelist + tables m 2 r + U' = X) : Space X m' r g U' :=
  h.rebase hagree hframes h.nodup h.valid

theorem write_held (h : Space X m r g U) (hwithin : Within U m m')
    (hlist : m'.freelist = m.freelist) : Space X m' r g U := by
  apply h.of_agree (h.agree_of_within hwithin)
  rw [hlist, h.frames]

/-! ## Pages that an operation has no use for -/

section

variable {V : Multiset Nat} {α : Type}

/-- The same table over a pool without the pages `U`. -/
theorem narrow (h : Space X m r g (V + U)) :
    Space (↑m.freelist + tables m 2 r + V) m r g V := by
  have hle : ↑m.freelist + tables m 2 r + V ≤ X := by
    rw [← h.frames, ← add_assoc]
    exact Multiset.le_add_right _ _
  constructor
  case frames => rfl
  case nodup => exact Multiset.nodup_of_le hle h.nodup
  case valid => exact fun q hq => h.valid q (Multiset.mem_of_le hle hq)
  case shaped => exact h.shaped
  case leaf => exact h.leaf

theorem frame {x : MemM α} (h : Space X m r g (V + U))
    (hx : Total x m fun _ m' => Within (↑m.freelist + tables m 2 r + V) m m') :
    Total x m fun _ m' => Kept U m m' := by
  have hnd := h.nodup
  rw [← h.frames, ← add_assoc] at hnd
  apply hx.mono
  intro _ m' hm'
  exact Kept.of_within hm' (Multiset.nodup_add.mp hnd).2.2

theorem frame_all {x : MemM α} (h : Space X m r g U)
    (hx : ∀ Y, Space Y m r g 0 → Total x m fun _ m' => Within Y m m') :
    Total x m fun _ m' => Kept U m m' := by
  rw [← zero_add U] at h
  exact h.frame (hx _ h.narrow)

end

/-! ## The allocator -/

theorem kalloc_take {q : Nat} {rest : List Nat} (h : Space X m r g U)
    (hlist : m.freelist = q :: rest) : Space X (taken m q rest) r g (q ::ₘ U) := by
  have hagree : Agree m (taken m q rest) 2 r := by
    intro p hp
    apply Mem.setPage_page_ne
    intro hpq
    have hdis := (Multiset.nodup_add.mp h.stock_nodup).2.2
    apply Multiset.disjoint_left.mp hdis ?_ hp
    rw [hlist, hpq]
    exact List.mem_cons_self
  apply h.of_agree hagree
  change (↑rest : Multiset Nat) + tables m 2 r + (q ::ₘ U) = X
  rw [← h.frames, hlist, ← Multiset.cons_coe, Multiset.add_cons, Multiset.cons_add,
    Multiset.cons_add]

theorem kalloc_spec (h : Space X m r g U) :
    Total kalloc m fun result m' => Within X m m' ∧ match result with
      | none => m' = m
      | some q => Space X m' r g (q ::ₘ U) := by
  cases hlist : m.freelist with
  | nil => exact Total.of_eq (kalloc_nil hlist) ⟨Within.refl X m, rfl⟩
  | cons q rest =>
      have htaken := h.kalloc_take hlist
      apply Total.of_eq (kalloc_cons hlist)
      refine ⟨?_, htaken⟩
      have hq : ({q} : Multiset Nat) ≤ X := by
        apply Multiset.singleton_le.mpr
        exact Multiset.mem_of_le htaken.held_le (Multiset.mem_cons_self q U)
      have hset := within_setPage { m with freelist := rest } q
        (fun _ => 5 * 0x0101010101010101)
      constructor
      case page => exact (hset.mono hq).page
      case refreed => rfl

theorem kalloc_kept (h : Space X m r g U) : Total kalloc m fun _ m' => Kept U m m' :=
  h.frame_all fun _ hY => hY.kalloc_spec.mono fun _ _ hm' => hm'.1

theorem setPage_spec {q : Nat} (h : Space X m r g (q ::ₘ U)) (words : Nat → Nat) :
    Space X (m.setPage q words) r g (q ::ₘ U) ∧ Within X m (m.setPage q words) := by
  have hle : ({q} : Multiset Nat) ≤ q ::ₘ U :=
    Multiset.singleton_le.mpr (Multiset.mem_cons_self q U)
  have hwithin := within_setPage m q words
  exact ⟨h.write_held (hwithin.mono hle) rfl, hwithin.mono (hle.trans h.held_le)⟩

theorem setPage_kept {q : Nat} (h : Space X m r g (q ::ₘ U)) (words : Nat → Nat) :
    Kept U m (m.setPage q words) := by
  have hnd := Multiset.nodup_of_le h.held_le h.nodup
  intro p hp
  apply m.setPage_page_ne
  rintro rfl
  exact (Multiset.nodup_cons.mp hnd).1 hp

theorem kfree_spec {q : Nat} (h : Space X m r g (q ::ₘ U)) :
    Total (kfree q) m fun _ m' =>
      Space X m' r g U ∧ Within X m m' ∧ Agree m m' 2 r := by
  have hmem : q ∈ X := Multiset.mem_of_le h.held_le (Multiset.mem_cons_self q U)
  have hfresh : q ∉ m.freelist := by
    intro hq
    have hle : (↑m.freelist : Multiset Nat) ≤ ↑m.freelist + tables m 2 r :=
      Multiset.le_add_right _ _
    exact Multiset.disjoint_left.mp h.held_disjoint (Multiset.mem_of_le hle hq)
      (Multiset.mem_cons_self q U)
  have hwithin := within_freed hfresh
  have hagree : Agree m (freed m q) 2 r :=
    (hwithin.mono (Multiset.singleton_le.mpr (Multiset.mem_cons_self q U))).agree
      h.tables_disjoint_held
  apply Total.of_eq (kfree_run (h.valid q hmem))
  refine ⟨?_, hwithin.mono (Multiset.singleton_le.mpr hmem), hagree⟩
  apply h.of_agree hagree
  change (↑(q :: m.freelist) : Multiset Nat) + tables m 2 r + U = X
  rw [← Multiset.cons_coe, ← h.frames, Multiset.cons_add, Multiset.cons_add,
    Multiset.add_cons]

theorem kfree_kept {q : Nat} (h : Space X m r g (q ::ₘ U)) :
    Total (kfree q) m fun _ m' => Kept U m m' := by
  rw [← Multiset.singleton_add] at h
  exact h.frame (h.narrow.kfree_spec.mono fun _ _ hm' => hm'.2.1)

end Space

end SyscallSched.Xv6

/-!
## Mapping and unmapping pages

`mappages` of one page and `uvmunmap`, as operations on the map `g` of an
address space.
-/

namespace SyscallSched.Xv6

open SyscallSched.Foundation

variable [Image] {X U : Multiset Nat} {m : Mem} {r v n : Nat} {g : Nat → Nat}

theorem Space.write_leaf {a : PteAddr} {e : Nat} (h : Space X m r g U)
    (hv : v < 512 ^ 3) (hslot : slotAt m 2 r v = some a) (he : Present e → Maps e) :
    Space X (m.setWord a.table a.index e) r (Function.update g v e) U ∧
      Within X m (m.setWord a.table a.index e) := by
  have hnd := (Multiset.nodup_add.mp h.stock_nodup).2.1
  have hwritten := written_slot hnd hslot e
  constructor
  case left =>
      constructor
      case frames =>
          rw [hwritten.tables_eq]
          exact h.frames
      case nodup => exact h.nodup
      case valid => exact h.valid
      case shaped => exact hwritten.shaped h.shaped he
      case leaf =>
          intro w hw
          rw [hwritten.leafAt_eq, Nat.mod_eq_of_lt hw, Nat.mod_eq_of_lt hv,
            Function.update_apply, h.leaf w hw]
  case right =>
      have htable := Multiset.mem_of_le h.tables_le (slotAt_mem hslot)
      exact (within_setPage m a.table _).mono (Multiset.singleton_le.mpr htable)

omit [Image] in
theorem page_lt_reach (hv : v < 2 ^ 26) : v < 512 ^ 3 := by
  omega

omit [Image] in
theorem page_va_lt (hv : v < 2 ^ 26) : v * pgSize < maxVa := by
  simp only [pgSize, maxVa]
  omega

omit [Image] in
theorem page_lt_of_va {va : Nat} (h : va < maxVa) : va / pgSize < 2 ^ 26 := by
  simp only [maxVa, pgSize] at *
  omega

omit [Image] in
theorem va_page (v : Nat) : v * pgSize / pgSize = v :=
  Nat.mul_div_cancel v (by decide)

/-! ## `mappages` -/

theorem mapLoop_page {pa perm : Nat} (h : Space X m r g U) (hv : v < 2 ^ 26)
    (habsent : ¬ Present (g v)) (hperm : Maps perm) :
    Total (mapLoop r perm 1 (v * pgSize) pa) m fun mapped m' => Within X m m' ∧
      if mapped then Space X m' r (Function.update g v (leafEntry pa perm)) U
      else Space X m' r g U := by
  rw [mapLoop]
  apply Total.bind (walk_alloc (page_va_lt hv) h.stock_nodup h.free_frame)
  intro result m₁ hwalk
  obtain ⟨hgrown, hresult⟩ := hwalk
  have hspace := h.of_grown hgrown
  have hwithin := hgrown.within.mono h.stock_le
  rw [va_page] at hresult
  cases result with
  | none => exact Total.pure ⟨hwithin, hspace⟩
  | some a =>
      apply Total.bind_eq loadPte_run
      have hentry := hspace.slot_entry (page_lt_reach hv) hresult.symm
      rw [hentry, if_neg habsent]
      apply Total.bind_eq storePte_run
      obtain ⟨hspace', hwithin'⟩ := hspace.write_leaf (page_lt_reach hv) hresult.symm
        (fun _ => maps_leafEntry hperm)
      exact Total.pure ⟨hwithin.trans hwithin', hspace'⟩

theorem mappages_page {pa perm : Nat} (h : Space X m r g U) (hv : v < 2 ^ 26)
    (habsent : ¬ Present (g v)) (hperm : Maps perm) :
    Total (mappages r (v * pgSize) pgSize pa perm) m fun mapped m' => Within X m m' ∧
      if mapped then Space X m' r (Function.update g v (leafEntry pa perm)) U
      else Space X m' r g U := by
  have haligned : v * pgSize % pgSize = 0 := Nat.mul_mod_left v pgSize
  rw [mappages, if_neg (not_not.mpr haligned), if_neg (by decide), if_neg (by decide)]
  exact mapLoop_page h hv habsent hperm

/-! ## `uvmunmap` -/

def framesOf (g : Nat → Nat) : Nat → Nat → Multiset Nat
  | _, 0 => 0
  | v, n + 1 => pte2pa (g v) ::ₘ framesOf g (v + 1) n

def cleared (g : Nat → Nat) (v n : Nat) : Nat → Nat :=
  fun w => if v ≤ w ∧ w < v + n then 0 else g w

omit [Image] in
theorem framesOf_pa_congr {g' : Nat → Nat}
    (h : ∀ i < n, pte2pa (g' (v + i)) = pte2pa (g (v + i))) :
    framesOf g' v n = framesOf g v n := by
  induction n generalizing v with
  | zero => rfl
  | succ n ih =>
      have hhead : pte2pa (g' v) = pte2pa (g v) := h 0 (Nat.succ_pos n)
      rw [framesOf, framesOf, ih, hhead]
      intro i hi
      rw [Nat.add_assoc, Nat.add_comm 1 i]
      exact h (i + 1) (Nat.succ_lt_succ hi)

omit [Image] in
theorem framesOf_congr {g' : Nat → Nat} (h : ∀ i < n, g' (v + i) = g (v + i)) :
    framesOf g' v n = framesOf g v n :=
  framesOf_pa_congr fun i hi => by rw [h i hi]

theorem when_kfree_spec {doFree : Bool} {q : Nat}
    (h : Space X m r g ((if doFree then {q} else 0) + U)) :
    Total (when doFree (kfree q)) m fun _ m' =>
      Space X m' r g U ∧ Within X m m' ∧ Agree m m' 2 r := by
  unfold when
  cases doFree with
  | true =>
      simp only [if_true, Multiset.singleton_add] at h ⊢
      exact h.kfree_spec
  | false =>
      simp only [Bool.false_eq_true, if_false, zero_add] at h ⊢
      exact Total.pure ⟨h, Within.refl X m, fun _ _ => rfl⟩

omit [Image] in
theorem framesOf_succ_if {doFree : Bool} :
    (if doFree then framesOf g v (n + 1) else 0) + U =
      (if doFree then {pte2pa (g v)} else 0) +
        ((if doFree then framesOf g (v + 1) n else 0) + U) := by
  cases doFree with
  | true =>
      simp only [if_true, framesOf]
      rw [Multiset.cons_add, Multiset.singleton_add]
  | false => simp only [Bool.false_eq_true, if_false, zero_add]

omit [Image] in
theorem cleared_succ : cleared (Function.update g v 0) (v + 1) n = cleared g v (n + 1) := by
  funext w
  simp only [cleared, Function.update_apply]
  by_cases hw : w = v
  · simp [hw]
  · have hiff : v + 1 ≤ w ∧ w < v + 1 + n ↔ v ≤ w ∧ w < v + (n + 1) := by omega
    simp only [if_neg hw, hiff]

theorem unmapLoop_spec {doFree : Bool}
    (h : Space X m r g ((if doFree then framesOf g v n else 0) + U))
    (hn : v + n ≤ 2 ^ 26) (hpresent : ∀ i < n, Present (g (v + i))) :
    Total (unmapLoop r doFree n (v * pgSize)) m fun _ m' =>
      Within X m m' ∧ Space X m' r (cleared g v n) U := by
  induction n generalizing m g v with
  | zero =>
      have hcleared : cleared g v 0 = g := by
        funext w
        rw [cleared, if_neg (by omega)]
      have hheld : (if doFree then framesOf g v 0 else 0) + U = U := by
        cases doFree <;> exact zero_add U
      rw [hheld] at h
      rw [hcleared]
      exact Total.pure ⟨Within.refl X m, h⟩
  | succ n ih =>
      have hv : v < 2 ^ 26 := by omega
      have hpv : Present (g v) := hpresent 0 (Nat.succ_pos n)
      have hleaf := h.leaf v (page_lt_reach hv)
      have hmaps : Maps (g v) := by
        rw [← hleaf] at hpv ⊢
        exact h.shaped.leaf_maps hpv
      obtain ⟨a, hwalk, hslot, hentry⟩ := walk_present (page_va_lt hv) (hleaf.symm ▸ hpv)
      rw [hleaf] at hentry
      rw [framesOf_succ_if] at h
      rw [unmapLoop]
      apply Total.bind_eq hwalk
      apply Total.bind_eq loadPte_run
      rw [hentry, if_neg hpv, if_neg (flags_ne_of_maps hmaps)]
      apply Total.bind (when_kfree_spec h)
      intro _ m₁ hfree
      obtain ⟨hspace, hwithin, hagree⟩ := hfree
      apply Total.bind_eq storePte_run
      have hslot₁ : slotAt m₁ 2 r v = some a := by
        rw [hagree.slotAt_eq, hslot]
      obtain ⟨hspace', hwithin'⟩ := hspace.write_leaf (page_lt_reach hv) hslot₁
        (fun h0 => absurd h0 not_present_zero)
      have hupdate : ∀ i, Function.update g v 0 (v + 1 + i) = g (v + 1 + i) := by
        intro i
        exact Function.update_of_ne (by omega) 0 g
      rw [← framesOf_congr (fun i _ => hupdate i)] at hspace'
      have hnext : (v + 1) * pgSize = v * pgSize + pgSize := Nat.succ_mul v pgSize
      rw [← hnext, ← cleared_succ]
      apply (ih hspace' (by omega) ?_).mono
      · intro _ m' hm'
        exact ⟨(hwithin.trans hwithin').trans hm'.1, hm'.2⟩
      · intro i hi
        rw [hupdate i, Nat.add_assoc, Nat.add_comm 1 i]
        exact hpresent (i + 1) (Nat.succ_lt_succ hi)

theorem uvmunmap_spec {doFree : Bool}
    (h : Space X m r g ((if doFree then framesOf g v n else 0) + U))
    (hn : v + n ≤ 2 ^ 26) (hpresent : ∀ i < n, Present (g (v + i))) :
    Total (uvmunmap r (v * pgSize) n doFree) m fun _ m' =>
      Within X m m' ∧ Space X m' r (cleared g v n) U := by
  have haligned : v * pgSize % pgSize = 0 := Nat.mul_mod_left v pgSize
  have hlimit : (v * pgSize + n * pgSize) % 2 ^ 64 = (v + n) * pgSize := by
    rw [← Nat.add_mul, Nat.mod_eq_of_lt]
    simp only [pgSize]
    omega
  rw [uvmunmap, if_neg (not_not.mpr haligned), hlimit, pageSteps_mul]
  exact unmapLoop_spec h hn hpresent

end SyscallSched.Xv6
