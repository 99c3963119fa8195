import SyscallSched.Xv6.Freewalk

/-!
# A page table as a finite map

`entryAt` is what `walk` finds for a page number.  `mappages` binds a run of page
numbers, `uvmunmap` removes one; both are followed over any number of pages and on every
path on which they return.
-/

namespace SyscallSched.Xv6

open SyscallSched.Foundation

/-! ## The tree of interior pages -/

/-- The way down from the page `p` by the entries with these indices, which are valid and
have none of `PTE_R`, `PTE_W`, `PTE_X`. -/
inductive Path (m : Mem) : Nat → List Nat → Nat → Prop
  | here (p : Nat) : Path m p [] p
  | down {p i q : Nat} {is : List Nat} (hi : i < 512) (hp : Present (m.page p i))
      (hnode : ¬ Maps (m.page p i)) (hrest : Path m (pte2pa (m.page p i)) is q) :
      Path m p (i :: is) q

section

variable {m : Mem} {level pa v w q : Nat}

theorem Path.mem_tables {is : List Nat} (hs : Shaped m level pa) (h : Path m pa is q) :
    q ∈ tables m level pa := by
  induction level generalizing pa is with
  | zero =>
      cases h with
      | here => exact root_mem_tables
      | down hi hp hnode hrest => exact absurd (hs _ hi hp) hnode
  | succ level ih =>
      cases h with
      | here => exact root_mem_tables
      | down hi hp hnode hrest =>
          exact Multiset.mem_of_le (child_le hi hp) (ih (hs _ hi hp).2 hrest)

theorem exists_path (hs : Shaped m level pa) (hq : q ∈ tables m level pa) :
    ∃ is, Path m pa is q := by
  induction level generalizing pa with
  | zero =>
      rw [tables, Multiset.mem_singleton] at hq
      rw [hq]
      exact ⟨[], .here pa⟩
  | succ level ih =>
      rw [tables_succ, Multiset.mem_add, Multiset.mem_singleton, Multiset.mem_sum] at hq
      cases hq with
      | inl hroot =>
          rw [hroot]
          exact ⟨[], .here pa⟩
      | inr hbelow =>
          obtain ⟨i, hi, hq⟩ := hbelow
          have hi := mem_entries.mp hi
          by_cases hp : Present (m.page pa i)
          · rw [subtables_present hp] at hq
            obtain ⟨is, hpath⟩ := ih (hs i hi hp).2 hq
            exact ⟨i :: is, .down hi hp (hs i hi hp).1 hpath⟩
          · rw [subtables_absent hp] at hq
            exact absurd hq (Multiset.notMem_zero q)

theorem root_not_below (hnd : (tables m (level + 1) pa).Nodup) {i : Nat} (hi : i < 512) :
    pa ∉ subtables m level (m.page pa i) := by
  rw [← zero_add (tables m (level + 1) pa)] at hnd
  intro h
  exact root_not_mem hnd hi (Multiset.mem_add.mpr (Or.inr h))

theorem below_disjoint (hnd : (tables m (level + 1) pa).Nodup) {i j : Nat} (hi : i < 512)
    (hj : j < 512) (hij : i ≠ j) (hq : q ∈ subtables m level (m.page pa i)) :
    q ∉ subtables m level (m.page pa j) := by
  rw [← zero_add (tables m (level + 1) pa)] at hnd
  have hdis := subtables_disjoint hnd hi hj hij
  rw [zero_add] at hdis
  exact Multiset.disjoint_left.mp hdis hq

theorem Path.unique {is js : List Nat} (hs : Shaped m level pa)
    (hnd : (tables m level pa).Nodup) (h : Path m pa is q) (h' : Path m pa js q) :
    is = js := by
  induction level generalizing pa is js with
  | zero =>
      cases h with
      | down hi hp hnode hrest => exact absurd (hs _ hi hp) hnode
      | here =>
          cases h' with
          | here => rfl
          | down hi hp hnode hrest => exact absurd (hs _ hi hp) hnode
  | succ level ih =>
      have hbelow : ∀ {i ks}, i < 512 → Present (m.page pa i) →
          Path m (pte2pa (m.page pa i)) ks q → q ∈ subtables m level (m.page pa i) := by
        intro i ks hi hp hpath
        rw [subtables_present hp]
        exact hpath.mem_tables (hs i hi hp).2
      cases h with
      | here =>
          cases h' with
          | here => rfl
          | down hj hp _ hrest => exact absurd (hbelow hj hp hrest) (root_not_below hnd hj)
      | @down _ i _ is hi hp hnode hrest =>
          cases h' with
          | here => exact absurd (hbelow hi hp hrest) (root_not_below hnd hi)
          | @down _ j _ js hj hp' _ hrest' =>
              by_cases hij : i = j
              · subst hij
                have hchild := Multiset.nodup_of_le (child_le hi hp) hnd
                rw [ih (hs i hi hp).2 hchild hrest hrest']
              · exact absurd (hbelow hj hp' hrest')
                  (below_disjoint hnd hi hj hij (hbelow hi hp hrest))

/-! ## Slots -/

theorem slotAt_inj {a : PteAddr} (hnd : (tables m level pa).Nodup)
    (hv : slotAt m level pa v = some a) (hw : slotAt m level pa w = some a) :
    v % 512 ^ (level + 1) = w % 512 ^ (level + 1) := by
  induction level generalizing pa with
  | zero =>
      simp only [slotAt, Option.some.injEq] at hv hw
      rw [← hv, PteAddr.mk.injEq] at hw
      rw [Nat.zero_add, Nat.pow_one]
      exact hw.2.symm
  | succ level ih =>
      have hbelow : ∀ {u}, slotAt m (level + 1) pa u = some a →
          Present (m.page pa (u / 512 ^ (level + 1) % 512)) ∧
          slotAt m level (pte2pa (m.page pa (u / 512 ^ (level + 1) % 512))) u = some a := by
        intro u hu
        rw [slotAt] at hu
        split_ifs at hu with hp
        exact ⟨hp, hu⟩
      obtain ⟨hpv, hv⟩ := hbelow hv
      obtain ⟨hpw, hw⟩ := hbelow hw
      by_cases hdigit : v / 512 ^ (level + 1) % 512 = w / 512 ^ (level + 1) % 512
      · rw [same_slot_iff hdigit]
        rw [← hdigit] at hw
        exact ih (Multiset.nodup_of_le (child_le (index_lt _ _) hpv) hnd) hv hw
      · have hmem := slotAt_mem hv
        have hmem' := slotAt_mem hw
        rw [← subtables_present hpv] at hmem
        rw [← subtables_present hpw] at hmem'
        exact absurd hmem' (below_disjoint hnd (index_lt _ _) (index_lt _ _) hdigit hmem)

theorem walk_ok_lt {va : Nat} {alloc : Bool} {p : Option PteAddr × Mem}
    (h : walk pa va alloc m = .ok p) : va < maxVa := by
  by_cases hva : maxVa ≤ va
  · rw [walk, if_pos hva] at h
    cases h
  · exact Nat.not_le.mp hva

end

/-! ## The map -/

def entryAt (m : Mem) (r p : Nat) : Option Nat :=
  match walk r (p * pgSize) false m with
  | .ok (some pte, _) =>
      if Present (m.page pte.table pte.index) then some (m.page pte.table pte.index) else none
  | _ => none

def bindRun (f : Nat → Option Nat) (v n : Nat) (e : Nat → Nat) : Nat → Option Nat :=
  fun p => if v ≤ p ∧ p < v + n then some (e (p - v)) else f p

def dropRun (f : Nat → Option Nat) (v n : Nat) : Nat → Option Nat :=
  fun p => if v ≤ p ∧ p < v + n then none else f p

def runAddr (pa i : Nat) : Nat := (pa + i * pgSize) % 2 ^ 64

def mapped (g : Nat → Nat) (v n pa perm : Nat) : Nat → Nat :=
  fun w => if v ≤ w ∧ w < v + n then leafEntry (runAddr pa (w - v)) perm else g w

section

variable {m : Mem} {r p v n pa perm : Nat} {g : Nat → Nat}

theorem entryAt_eq : entryAt m r p =
    if p < 2 ^ 26 ∧ Present (leafAt m 2 r p) then some (leafAt m 2 r p) else none := by
  by_cases hp : p < 2 ^ 26
  · rw [entryAt, walk_lookup (page_va_lt hp), va_page]
    cases hs : slotAt m 2 r p with
    | none => simp [leafAt_of_no_slot hs]
    | some a => simp only [leafAt_of_slot hs, hp, true_and]
  · have hva : maxVa ≤ p * pgSize := by
      simp only [maxVa, pgSize]
      omega
    rw [entryAt, walk, if_pos hva, if_neg (fun h => hp h.1)]
    rfl

theorem entryAt_some {e : Nat} :
    entryAt m r p = some e ↔ p < 2 ^ 26 ∧ Present e ∧ leafAt m 2 r p = e := by
  rw [entryAt_eq, Option.ite_none_right_eq_some, Option.some.injEq]
  constructor
  · rintro ⟨⟨hp, hpresent⟩, rfl⟩
    exact ⟨hp, hpresent, rfl⟩
  · rintro ⟨hp, hpresent, rfl⟩
    exact ⟨⟨hp, hpresent⟩, rfl⟩

theorem entryAt_high (hp : ¬ p < 2 ^ 26) : entryAt m r p = none := by
  rw [entryAt_eq, if_neg (fun hboth => hp hboth.1)]

theorem runAddr_zero (hpa : pa < 2 ^ 64) : runAddr pa 0 = pa := by
  rw [runAddr, Nat.zero_mul, Nat.add_zero, Nat.mod_eq_of_lt hpa]

theorem runAddr_succ (pa i : Nat) :
    runAddr ((pa + pgSize) % 2 ^ 64) i = runAddr pa (i + 1) := by
  rw [runAddr, runAddr, Nat.mod_add_mod, Nat.succ_mul, Nat.add_assoc, Nat.add_comm pgSize]

theorem pte2pa_leafEntry_word (hpa : pa < 2 ^ 64) (hperm : perm < 1024) :
    pte2pa (leafEntry pa perm) = pgRoundDown pa := by
  have hpage : pa2pte pa = pa2pte (pgRoundDown pa) := by
    simp only [pa2pte, pgRoundDown, pgSize, Nat.shiftRight_eq_div_pow, Nat.shiftLeft_eq]
    omega
  have haligned : pgRoundDown pa % pgSize = 0 := by
    rw [pgRoundDown, Nat.mul_mod_left]
  have hlt : pgRoundDown pa < 2 ^ 64 := (Nat.div_mul_le_self pa pgSize).trans_lt hpa
  have hflags : perm ||| pteV < 1024 := Nat.or_lt_two_pow (n := 10) hperm (by decide)
  rw [leafEntry, Nat.or_assoc, hpage, pte2pa_or haligned hlt hflags]

theorem mapped_zero : mapped g v 0 pa perm = g := by
  funext w
  exact if_neg (by omega)

theorem mapped_succ (hpa : pa < 2 ^ 64) :
    mapped (Function.update g v (leafEntry pa perm)) (v + 1) n ((pa + pgSize) % 2 ^ 64) perm =
      mapped g v (n + 1) pa perm := by
  funext w
  simp only [mapped, Function.update_apply]
  by_cases hw : w = v
  · subst hw
    rw [if_neg (by omega), if_pos rfl, if_pos (by omega), Nat.sub_self, runAddr_zero hpa]
  · have hiff : v + 1 ≤ w ∧ w < v + 1 + n ↔ v ≤ w ∧ w < v + (n + 1) := by omega
    simp only [if_neg hw, hiff]
    by_cases hin : v ≤ w ∧ w < v + (n + 1)
    · have hdist : w - (v + 1) + 1 = w - v := by omega
      rw [if_pos hin, if_pos hin, runAddr_succ, hdist]
    · rw [if_neg hin, if_neg hin]

end

/-! ## Binding a run -/

section

variable [Image] {X U : Multiset Nat} {m m' : Mem} {r v n : Nat} {g : Nat → Nat}

/-- Whenever the loop returns it has bound some first part of the run, of page numbers that
were not bound and lie below `MAXVA`, and it returns 0 for the whole run only. -/
theorem mapLoop_ok {pa perm : Nat} {done : Bool} (h : Space X m r g U) (hperm : Maps perm)
    (hpa : pa < 2 ^ 64) (hrun : mapLoop r perm n (v * pgSize) pa m = .ok (done, m')) :
    ∃ k ≤ n, (done = true ↔ k = n) ∧ (∀ i < k, v + i < 2 ^ 26 ∧ ¬ Present (g (v + i))) ∧
      Space X m' r (mapped g v k pa perm) U := by
  induction n generalizing m g v pa with
  | zero =>
      cases hrun
      refine ⟨0, Nat.le_refl 0, by simp, fun i hi => absurd hi (Nat.not_lt_zero i), ?_⟩
      rw [mapped_zero]
      exact h
  | succ n ih =>
      obtain ⟨result, m₁, hwalk, hrest⟩ := bind_ok hrun
      have hva := walk_ok_lt hwalk
      have hv := page_lt_of_va hva
      rw [va_page] at hv
      obtain ⟨hgrown, hresult⟩ := (walk_alloc hva h.stock_nodup h.free_frame).outcome hwalk
      have hspace := h.of_grown hgrown
      rw [va_page] at hresult
      cases result with
      | none =>
          cases hrest
          refine ⟨0, Nat.zero_le _, by simp, fun i hi => absurd hi (Nat.not_lt_zero i), ?_⟩
          rw [mapped_zero]
          exact hspace
      | some a =>
          have hentry := hspace.slot_entry (page_lt_reach hv) hresult.symm
          dsimp only at hrest
          rw [Total.run_bind loadPte_run, hentry] at hrest
          by_cases hp : Present (g v)
          · rw [if_pos hp] at hrest
            cases hrest
          rw [if_neg hp, Total.run_bind storePte_run, ← Nat.succ_mul] at hrest
          obtain ⟨hspace', -⟩ := hspace.write_leaf (page_lt_reach hv) hresult.symm
            (fun _ => maps_leafEntry hperm)
          obtain ⟨k, hk, hdone, habsent, hend⟩ := ih hspace' (Nat.mod_lt _ (by decide)) hrest
          refine ⟨k + 1, Nat.succ_le_succ hk, by rw [hdone, Nat.add_right_cancel_iff], ?_, ?_⟩
          · intro i hi
            cases i with
            | zero => exact ⟨hv, hp⟩
            | succ i =>
                have hi := habsent i (Nat.lt_of_succ_lt_succ hi)
                rw [Function.update_of_ne (by omega)] at hi
                rw [Nat.add_comm i 1, ← Nat.add_assoc]
                exact hi
          · rw [← mapped_succ hpa]
            exact hend

end

/-! ## Removing a run -/

structure Tree [Image] (m : Mem) (r : Nat) : Prop where
  nodup : (tables m 2 r).Nodup
  frame : ∀ q ∈ tables m 2 r, Frame q
  shaped : Shaped m 2 r
  low : ∀ v < 512 ^ 3, Present (leafAt m 2 r v) → v < 2 ^ 26

structure Removed [Image] (m m' : Mem) (r v n : Nat) : Prop where
  tree : Tree m' r
  tables_eq : tables m' 2 r = tables m 2 r
  leaf : ∀ w < 512 ^ 3, leafAt m' 2 r w = cleared (leafAt m 2 r) v n w

section

variable [Image] {m m' : Mem} {r v n : Nat} {doFree : Bool}

theorem Tree.agree (h : Tree m r) (hagree : Agree m m' 2 r) : Tree m' r := by
  constructor
  case nodup =>
      rw [hagree.tables_eq]
      exact h.nodup
  case frame =>
      rw [hagree.tables_eq]
      exact h.frame
  case shaped => exact hagree.shaped h.shaped
  case low =>
      intro w hw hp
      rw [hagree.leafAt_eq] at hp
      exact h.low w hw hp

theorem kfree_ok_frame {q : Nat} {p : Unit × Mem} (h : kfree q m = .ok p) : Frame q := by
  rw [kfree] at h
  split_ifs at h with hguard
  · cases h
  · simp only [Frame]
    omega

/-- What `uvmunmap` may free: a page of the allocator that is not in the tree. -/
def Freeable (m : Mem) (r q : Nat) : Prop := Frame q ∧ q ∉ tables m 2 r

theorem when_kfree_agree {q : Nat} (h : doFree = true → Freeable m r q) :
    ∃ m', when doFree (kfree q) m = .ok ((), m') ∧ Agree m m' 2 r := by
  cases doFree with
  | false => exact ⟨m, rfl, fun _ _ => rfl⟩
  | true =>
      obtain ⟨hframe, hout⟩ := h rfl
      refine ⟨freed m q, kfree_run hframe, ?_⟩
      intro p hp
      apply Mem.setPage_page_ne
      rintro rfl
      exact hout hp

theorem Tree.clear_slot {a : PteAddr} (h : Tree m r) (hv : v < 512 ^ 3)
    (hslot : slotAt m 2 r v = some a) : Removed m (m.setWord a.table a.index 0) r v 1 := by
  have hwritten := written_slot h.nodup hslot 0
  have hleaf : ∀ w < 512 ^ 3, leafAt (m.setWord a.table a.index 0) 2 r w =
      cleared (leafAt m 2 r) v 1 w := by
    intro w hw
    have hiff : w = v ↔ v ≤ w ∧ w < v + 1 := by omega
    rw [hwritten.leafAt_eq, Nat.mod_eq_of_lt hw, Nat.mod_eq_of_lt hv, cleared]
    simp only [hiff]
  constructor
  case tree =>
      constructor
      case nodup =>
          rw [hwritten.tables_eq]
          exact h.nodup
      case frame =>
          rw [hwritten.tables_eq]
          exact h.frame
      case shaped => exact hwritten.shaped h.shaped (fun h0 => absurd h0 not_present_zero)
      case low =>
          intro w hw hp
          rw [hleaf w hw, cleared] at hp
          split_ifs at hp
          · exact absurd hp not_present_zero
          · exact h.low w hw hp
  case tables_eq => exact hwritten.tables_eq
  case leaf => exact hleaf

theorem Tree.unmapLoop_step (h : Tree m r) (hv : v < 2 ^ 26) (hp : Present (leafAt m 2 r v))
    (hfree : doFree = true → Freeable m r (pte2pa (leafAt m 2 r v))) :
    ∃ m₁, Removed m m₁ r v 1 ∧ ∀ n, unmapLoop r doFree (n + 1) (v * pgSize) m =
      unmapLoop r doFree n ((v + 1) * pgSize) m₁ := by
  obtain ⟨a, hwalk, hslot, hentry⟩ := walk_present (page_va_lt hv) hp
  obtain ⟨m₂, hkfree, hagree⟩ := when_kfree_agree hfree
  have hslot₂ : slotAt m₂ 2 r v = some a := by
    rw [hagree.slotAt_eq, hslot]
  have hremoved := (h.agree hagree).clear_slot (page_lt_reach hv) hslot₂
  refine ⟨m₂.setWord a.table a.index 0, ?_, ?_⟩
  · constructor
    case tree => exact hremoved.tree
    case tables_eq => rw [hremoved.tables_eq, hagree.tables_eq]
    case leaf =>
        intro w hw
        rw [hremoved.leaf w hw, cleared, cleared, hagree.leafAt_eq]
  · intro n
    have hflags := flags_ne_of_maps (h.shaped.leaf_maps hp)
    rw [unmapLoop, Total.run_bind hwalk]
    dsimp only
    rw [Total.run_bind loadPte_run, hentry, if_neg hp, if_neg hflags, Total.run_bind hkfree,
      Total.run_bind storePte_run, ← Nat.succ_mul]

/-- The loop does not get past a page number without an entry, nor past a page that
`kfree` refuses. -/
theorem unmapLoop_ok_head {p : Unit × Mem}
    (hrun : unmapLoop r doFree (n + 1) (v * pgSize) m = .ok p) :
    v < 2 ^ 26 ∧ Present (leafAt m 2 r v) ∧
      (doFree = true → Frame (pte2pa (leafAt m 2 r v))) := by
  obtain ⟨result, m₁, hwalk, hrest⟩ := bind_ok (u := p.2) (b := p.1) hrun
  have hva := walk_ok_lt hwalk
  rw [walk_lookup hva, va_page] at hwalk
  cases hwalk
  cases hs : slotAt m 2 r v with
  | none =>
      rw [hs] at hrest
      cases hrest
  | some a =>
      rw [hs] at hrest
      dsimp only at hrest
      rw [Total.run_bind loadPte_run, ← leafAt_of_slot hs] at hrest
      have hv := page_lt_of_va hva
      rw [va_page] at hv
      by_cases hp : Present (leafAt m 2 r v)
      · rw [if_neg hp] at hrest
        split_ifs at hrest
        · cases hrest
        obtain ⟨_, m₂, hkfree, -⟩ := bind_ok hrest
        refine ⟨hv, hp, ?_⟩
        rintro rfl
        rw [when, if_pos rfl] at hkfree
        exact kfree_ok_frame hkfree
      · rw [if_pos (not_not.mp hp)] at hrest
        cases hrest

omit [Image] in
theorem cleared_one_succ {g : Nat → Nat} :
    cleared (cleared g v 1) (v + 1) n = cleared g v (n + 1) := by
  funext w
  simp only [cleared]
  split_ifs <;> first | rfl | omega

theorem Removed.next {m₁ : Mem} (h₁ : Removed m m₁ r v 1) (h : Removed m₁ m' r (v + 1) n) :
    Removed m m' r v (n + 1) := by
  constructor
  case tree => exact h.tree
  case tables_eq => rw [h.tables_eq, h₁.tables_eq]
  case leaf =>
      intro w hw
      rw [h.leaf w hw, ← cleared_one_succ]
      change (if v + 1 ≤ w ∧ w < v + 1 + n then 0 else leafAt m₁ 2 r w) =
        if v + 1 ≤ w ∧ w < v + 1 + n then 0 else cleared (leafAt m 2 r) v 1 w
      rw [h₁.leaf w hw]

theorem Removed.later {m₁ : Mem} {i : Nat} (h₁ : Removed m m₁ r v 1)
    (hi : v + (i + 1) < 2 ^ 26) : leafAt m₁ 2 r (v + 1 + i) = leafAt m 2 r (v + (i + 1)) := by
  have hnext : v + 1 + i = v + (i + 1) := by omega
  rw [hnext, h₁.leaf _ (page_lt_reach hi), cleared, if_neg (by omega)]

theorem Tree.unmapLoop_removes (h : Tree m r)
    (hbound : ∀ i < n, v + i < 2 ^ 26 ∧ Present (leafAt m 2 r (v + i)))
    (hfree : doFree = true → ∀ i < n, Freeable m r (pte2pa (leafAt m 2 r (v + i)))) :
    ∃ m', unmapLoop r doFree n (v * pgSize) m = .ok ((), m') ∧ Removed m m' r v n := by
  induction n generalizing m v with
  | zero =>
      refine ⟨m, rfl, h, rfl, ?_⟩
      intro w _
      rw [cleared, if_neg (by omega)]
  | succ n ih =>
      obtain ⟨hv, hp⟩ := hbound 0 (Nat.succ_pos n)
      obtain ⟨m₁, hremoved, hrun⟩ := h.unmapLoop_step hv hp
        (fun htrue => hfree htrue 0 (Nat.succ_pos n))
      obtain ⟨m', hrest, hdone⟩ := ih (v := v + 1) hremoved.tree (by
        intro i hi
        obtain ⟨hlt, hpi⟩ := hbound (i + 1) (Nat.succ_lt_succ hi)
        rw [hremoved.later hlt]
        exact ⟨by omega, hpi⟩) (by
        intro htrue i hi
        have hlt := (hbound (i + 1) (Nat.succ_lt_succ hi)).1
        rw [Freeable, hremoved.tables_eq, hremoved.later hlt]
        exact hfree htrue (i + 1) (Nat.succ_lt_succ hi))
      exact ⟨m', (hrun n).trans hrest, hremoved.next hdone⟩

theorem Tree.unmapLoop_ok_bound (h : Tree m r)
    (hout : doFree = true → ∀ i < n, v + i < 2 ^ 26 → Present (leafAt m 2 r (v + i)) →
      pte2pa (leafAt m 2 r (v + i)) ∉ tables m 2 r)
    {p : Unit × Mem} (hrun : unmapLoop r doFree n (v * pgSize) m = .ok p) :
    ∀ i < n, (v + i < 2 ^ 26 ∧ Present (leafAt m 2 r (v + i))) ∧
      (doFree = true → Freeable m r (pte2pa (leafAt m 2 r (v + i)))) := by
  induction n generalizing m v with
  | zero => exact fun i hi => absurd hi (Nat.not_lt_zero i)
  | succ n ih =>
      obtain ⟨hv, hp, hframe⟩ := unmapLoop_ok_head hrun
      have hfree : doFree = true → Freeable m r (pte2pa (leafAt m 2 r v)) := by
        intro htrue
        exact ⟨hframe htrue, hout htrue 0 (Nat.succ_pos n) hv hp⟩
      obtain ⟨m₁, hremoved, hstep⟩ := h.unmapLoop_step hv hp hfree
      rw [hstep n] at hrun
      have hrest := ih (v := v + 1) hremoved.tree (by
        intro htrue i hi hlt hpi
        have hlt' : v + (i + 1) < 2 ^ 26 := by omega
        rw [hremoved.later hlt'] at hpi ⊢
        rw [hremoved.tables_eq]
        exact hout htrue (i + 1) (Nat.succ_lt_succ hi) hlt' hpi) hrun
      intro i hi
      cases i with
      | zero => exact ⟨⟨hv, hp⟩, hfree⟩
      | succ i =>
          obtain ⟨⟨hlt, hpi⟩, hfreei⟩ := hrest i (Nat.lt_of_succ_lt_succ hi)
          have hlt' : v + (i + 1) < 2 ^ 26 := by omega
          rw [Freeable, hremoved.tables_eq, hremoved.later hlt'] at hfreei
          rw [hremoved.later hlt'] at hpi
          exact ⟨⟨hlt', hpi⟩, hfreei⟩

end

end SyscallSched.Xv6
