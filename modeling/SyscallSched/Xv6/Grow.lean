import SyscallSched.Xv6.UserMap

/-!
# Growing and shrinking a process

`uvmdealloc` and `uvmalloc` on the map of a process.  A growth that fails half
way leaves the map as it was.
-/

namespace SyscallSched.Xv6

open SyscallSched.Foundation

variable [Image] {X U : Multiset Nat} {m : Mem} {r n tf : Nat} {g : Nat → Nat}

/-! ## Shrinking -/

theorem UserSpace.unmap_from {k : Nat} (h : UserSpace X m r g n tf U) (hk : k ≤ n) :
    Total (uvmunmap r (k * pgSize) (n - k) true) m fun _ m' =>
      Within X m m' ∧ Kept (framesOf g 0 k + U) m m' ∧
        UserSpace X m' r (cleared g k (n - k)) k tf U := by
  have hn := h.pages_le
  have hspace := h.space
  obtain ⟨d, rfl⟩ := Nat.exists_eq_add_of_le hk
  rw [Nat.add_sub_cancel_left]
  rw [framesOf_add, Nat.zero_add, add_comm (framesOf g 0 k), add_assoc] at hspace
  have hpresent : ∀ i < d, Present (g (k + i)) := fun i hi => h.map.user _ (by omega)
  have hnarrow : Space (↑m.freelist + tables m 2 r + framesOf g k d) m r g
      (framesOf g k d + 0) := by
    rw [add_zero]
    exact hspace.narrow
  have hwithin : Total (uvmunmap r (k * pgSize) d true) m fun _ m' =>
      Within (↑m.freelist + tables m 2 r + framesOf g k d) m m' :=
    (uvmunmap_spec hnarrow (by omega) hpresent).mono fun _ _ hm' => hm'.1
  have hkept := hspace.frame hwithin
  apply ((uvmunmap_spec hspace (by omega) hpresent).and hkept).mono
  intro _ m' hm'
  obtain ⟨hm', hkept'⟩ := hm'
  refine ⟨hm'.1, hkept', ?_⟩
  constructor
  case space =>
      have hkept : framesOf (cleared g k d) 0 k = framesOf g 0 k := by
        apply framesOf_congr
        intro i hi
        rw [cleared, if_neg (by omega)]
      rw [hkept]
      exact hm'.2
  case map =>
      have hcut := h.map.cut hk (by simp only [trapframePage]; omega)
      rw [Nat.add_sub_cancel_left] at hcut
      exact hcut

omit [Image] in
theorem cleared_none (k : Nat) : cleared g k 0 = g := by
  funext v
  rw [cleared, if_neg (by omega)]

theorem uvmdealloc_spec {oldsz newsz : Nat}
    (h : UserSpace X m r g (pageCount oldsz) tf U) :
    Total (uvmdealloc r oldsz newsz) m fun sz m' => Within X m m' ∧
      sz = min oldsz newsz ∧ Kept (framesOf g 0 (pageCount sz) + U) m m' ∧
      UserSpace X m' r (cleared g (pageCount sz) (pageCount oldsz - pageCount sz))
        (pageCount sz) tf U := by
  have hn := h.pages_le
  by_cases hle : oldsz ≤ newsz
  · rw [uvmdealloc, if_pos hle]
    apply Total.pure
    rw [Nat.sub_self, cleared_none, Nat.min_eq_left hle]
    exact ⟨Within.refl X m, rfl, Kept.refl _ m, h⟩
  · rw [uvmdealloc, if_neg hle]
    have hk : pageCount newsz ≤ pageCount oldsz := pageCount_mono (by omega)
    have hdiv : (pageCount oldsz * pgSize - pageCount newsz * pgSize) / pgSize =
        pageCount oldsz - pageCount newsz := by
      rw [← Nat.sub_mul, va_page]
    rw [pgRoundUp_eq (by omega), pgRoundUp_eq (by omega), hdiv]
    have hunmap : Total (when (pageCount newsz * pgSize < pageCount oldsz * pgSize)
        (uvmunmap r (pageCount newsz * pgSize) (pageCount oldsz - pageCount newsz) true)) m
        fun _ m' => Within X m m' ∧ Kept (framesOf g 0 (pageCount newsz) + U) m m' ∧
          UserSpace X m' r (cleared g (pageCount newsz) (pageCount oldsz - pageCount newsz))
            (pageCount newsz) tf U := by
      rw [when]
      by_cases hlt : pageCount newsz * pgSize < pageCount oldsz * pgSize
      · rw [if_pos hlt]
        exact h.unmap_from hk
      · have heq : pageCount newsz = pageCount oldsz := by
          simp only [pgSize] at hlt
          omega
        rw [if_neg hlt, heq, Nat.sub_self, cleared_none]
        exact Total.pure ⟨Within.refl X m, Kept.refl _ m, h⟩
    apply Total.bind hunmap
    intro _ m' hm'
    rw [Nat.min_eq_right (by omega)]
    exact Total.pure ⟨hm'.1, rfl, hm'.2⟩

/-! ## Growing -/

structure Extends (g : Nat → Nat) (n : Nat) (g' : Nat → Nat) (n' : Nat) : Prop where
  kept : ∀ v < n, g' v = g v
  user : ∀ v, n ≤ v → v < n' → g' v &&& pteU ≠ 0

omit [Image] in
theorem maps_userPerm (xperm : Nat) : Maps (pteR ||| pteU ||| xperm) := by
  rw [Maps, Nat.and_or_distrib_right]
  intro h
  exact absurd (Nat.or_eq_zero_iff.mp h).1 (by decide)

omit [Image] in
theorem user_userPerm (xperm : Nat) : (pteR ||| pteU ||| xperm) &&& pteU ≠ 0 := by
  rw [Nat.and_or_distrib_right]
  intro h
  exact absurd (Nat.or_eq_zero_iff.mp h).1 (by decide)

structure Filled (m : Mem) (g : Nat → Nat) (n j : Nat) (c : Nat → Nat → Nat) (f : Nat → Nat) :
    Prop where
  page : ∀ v, n ≤ v → v < j → m.page (pte2pa (g v)) = c v
  flags : ∀ v, n ≤ v → v < j → pteFlags (g v) = f v

omit [Image] in
theorem Filled.none {c : Nat → Nat → Nat} {f : Nat → Nat} : Filled m g n n c f :=
  ⟨fun v hv hv' => absurd hv' (by omega), fun v hv hv' => absurd hv' (by omega)⟩

omit [Image] in
theorem framesOf_mono {k : Nat} (hk : k ≤ n) : framesOf g 0 k ≤ framesOf g 0 n := by
  obtain ⟨d, rfl⟩ := Nat.exists_eq_add_of_le hk
  rw [framesOf_add]
  exact Multiset.le_add_right _ _

omit [Image] in
theorem mem_framesOf_zero {v : Nat} (hv : v < n) : pte2pa (g v) ∈ framesOf g 0 n := by
  have hmem : pte2pa (g (0 + v)) ∈ framesOf g 0 n := mem_framesOf hv
  rw [Nat.zero_add] at hmem
  exact hmem

theorem Filled.push {q perm j : Nat} {c : Nat → Nat → Nat} {f : Nat → Nat} {m' : Mem}
    (h : Filled m g n j c f) (hkept : Kept (framesOf g 0 j) m m') (hq : Frame q)
    (hperm : perm < 1024) (hpage : m'.page q = c j)
    (hflags : pteFlags (leafEntry q perm) = f j) :
    Filled m' (Function.update g j (leafEntry q perm)) n (j + 1) c f := by
  constructor
  case page =>
      intro v hnv hvj
      by_cases hv : v = j
      · rw [hv, Function.update_self, pte2pa_leafEntry hq hperm, hpage]
      · have hlt : v < j := by omega
        rw [Function.update_of_ne hv, hkept _ (mem_framesOf_zero hlt)]
        exact h.page v hnv hlt
  case flags =>
      intro v hnv hvj
      by_cases hv : v = j
      · rw [hv, Function.update_self, hflags]
      · rw [Function.update_of_ne hv]
        exact h.flags v hnv (by omega)

structure Growing (X : Multiset Nat) (m : Mem) (r : Nat) (g₀ : Nat → Nat) (n : Nat)
    (g : Nat → Nat) (j tf : Nat) (U : Multiset Nat) : Prop where
  now : UserSpace X m r g j tf U
  le : n ≤ j
  start : UserMap g₀ n tf
  outside : ∀ v < 512 ^ 3, v < n ∨ j ≤ v → g v = g₀ v

section

variable {g₀ : Nat → Nat} {j : Nat}

theorem Growing.kept {v : Nat} (h : Growing X m r g₀ n g j tf U) (hv : v < n) :
    g v = g₀ v := by
  have hle := h.le
  have hj := h.now.pages_le
  exact h.outside v (by omega) (Or.inl hv)

theorem Growing.frames_eq (h : Growing X m r g₀ n g j tf U) :
    framesOf g 0 n = framesOf g₀ 0 n :=
  framesOf_congr fun i hi => h.kept (by omega)

theorem Growing.first_le (h : Growing X m r g₀ n g j tf U) :
    framesOf g₀ 0 n + U ≤ framesOf g 0 j + U := by
  rw [← h.frames_eq]
  exact Multiset.add_le_add_right (framesOf_mono h.le)

theorem Growing.restored {m' : Mem} (h : Growing X m r g₀ n g j tf U)
    (hcut : UserSpace X m' r (cleared g n (j - n)) n tf U) :
    UserSpace X m' r g₀ n tf U := by
  have hj := h.now.pages_le
  apply hcut.congr
  intro v hv
  rw [cleared]
  by_cases hin : n ≤ v ∧ v < n + (j - n)
  · rw [if_pos hin]
    apply h.start.none v hv hin.1
    · simp only [trapframePage]
      omega
    · simp only [trampolinePage]
      omega
  · have hle := h.le
    rw [if_neg hin]
    exact (h.outside v hv (by omega)).symm

theorem Growing.undo (h : Growing X m r g₀ n g j tf U) :
    Total (uvmdealloc r (j * pgSize) (n * pgSize)) m fun _ m' =>
      Within X m m' ∧ Kept (framesOf g₀ 0 n + U) m m' ∧ UserSpace X m' r g₀ n tf U := by
  have hspace := h.now
  rw [← pageCount_mul j] at hspace
  apply (uvmdealloc_spec hspace).mono
  intro sz m' hm'
  obtain ⟨hwithin, hsz, hkept, hshrunk⟩ := hm'
  have hmin : sz = n * pgSize := by
    rw [hsz]
    exact Nat.min_eq_right (Nat.mul_le_mul_right pgSize h.le)
  rw [hmin, pageCount_mul, h.frames_eq] at hkept
  rw [hmin, pageCount_mul, pageCount_mul] at hshrunk
  exact ⟨hwithin, hkept, h.restored hshrunk⟩

theorem Growing.push {q perm : Nat} {m' : Mem} (h : Growing X m r g₀ n g j tf U)
    (hj : j < 32768) (hq : Frame q) (hperm : perm < 1024)
    (hspace : Space X m' r (Function.update g j (leafEntry q perm))
      (q ::ₘ (framesOf g 0 j + U))) :
    Growing X m' r g₀ n (Function.update g j (leafEntry q perm)) (j + 1) tf U := by
  have hle := h.le
  constructor
  case now =>
      constructor
      case space =>
          have hframes : framesOf (Function.update g j (leafEntry q perm)) 0 (j + 1) =
              q ::ₘ framesOf g 0 j := by
            rw [framesOf_succ, Nat.zero_add, Function.update_self, pte2pa_leafEntry hq hperm]
            congr 1
            apply framesOf_congr
            intro i hi
            exact Function.update_of_ne (by omega) _ g
          rw [hframes, Multiset.cons_add]
          exact hspace
      case map =>
          exact h.now.map.push (by simp only [trapframePage]; omega) present_leafEntry
  case le => omega
  case start => exact h.start
  case outside =>
      intro v hv hvj
      rw [Function.update_of_ne (by omega)]
      exact h.outside v hv (by omega)

theorem Growing.of_space {m' : Mem} (h : Growing X m r g₀ n g j tf U)
    (hspace : Space X m' r g (framesOf g 0 j + U)) : Growing X m' r g₀ n g j tf U :=
  { h with now := ⟨hspace, h.now.map⟩ }

theorem Growing.next_absent {q : Nat} {m' : Mem} (h : Growing X m r g₀ n g j tf U)
    (hspace : Space X m' r g (q ::ₘ (framesOf g 0 j + U))) :
    j < 32768 ∧ ¬ Present (g j) := by
  have hcard := Multiset.card_le_card hspace.held_le
  rw [Multiset.card_cons, Multiset.card_add, card_framesOf] at hcard
  have hpool := card_pool_le hspace.nodup hspace.valid
  have hj : j < 32768 := by omega
  refine ⟨hj, ?_⟩
  have hzero : g j = 0 := by
    apply h.now.map.none j (by omega) (Nat.le_refl j)
    · simp only [trapframePage]
      omega
    · simp only [trampolinePage]
      omega
  rw [hzero]
  exact not_present_zero

theorem Growing.map_next {q perm : Nat} {m' : Mem} (h : Growing X m r g₀ n g j tf U)
    (hspace : Space X m' r g (q ::ₘ (framesOf g 0 j + U)))
    (hperm : perm < 1024) (hmaps : Maps perm) :
    Total (mappages r (j * pgSize) pgSize q perm) m' fun mapped m'' => Within X m' m'' ∧
      Kept (q ::ₘ (framesOf g 0 j + U)) m' m'' ∧
      if mapped then
        Growing X m'' r g₀ n (Function.update g j (leafEntry q perm)) (j + 1) tf U
      else
        Space X m'' r g (q ::ₘ (framesOf g 0 j + U)) := by
  obtain ⟨hj, habsent⟩ := h.next_absent hspace
  have hq : Frame q :=
    hspace.valid q (Multiset.mem_of_le hspace.held_le (Multiset.mem_cons_self _ _))
  have hframe : Total (mappages r (j * pgSize) pgSize q perm) m' fun _ m'' =>
      Kept (q ::ₘ (framesOf g 0 j + U)) m' m'' := by
    apply hspace.frame_all
    intro Y hY
    exact (mappages_page hY (by omega) habsent hmaps).mono fun _ _ hm'' => hm''.1
  apply ((mappages_page hspace (by omega) habsent hmaps).and hframe).mono
  intro mapped m'' hm''
  obtain ⟨hm'', hkept⟩ := hm''
  refine ⟨hm''.1, hkept, ?_⟩
  cases mapped with
  | false => exact hm''.2
  | true => exact h.push hj hq hperm hm''.2

theorem Growing.fill_next {q perm : Nat} {m' : Mem} (h : Growing X m r g₀ n g j tf U)
    (hspace : Space X m' r g (q ::ₘ (framesOf g 0 j + U))) (words : Nat → Nat)
    (hperm : perm < 1024) (hmaps : Maps perm) :
    Total (mappages r (j * pgSize) pgSize q perm) (m'.setPage q words) fun mapped m'' =>
      Within X m' m'' ∧ Kept (framesOf g 0 j + U) m' m'' ∧
      if mapped then
        Growing X m'' r g₀ n (Function.update g j (leafEntry q perm)) (j + 1) tf U ∧
          m''.page q = words
      else
        Space X m'' r g (q ::ₘ (framesOf g 0 j + U)) := by
  obtain ⟨hspace₂, hwithin₂⟩ := hspace.setPage_spec words
  apply (h.map_next hspace₂ hperm hmaps).mono
  intro mapped m'' hm''
  obtain ⟨hwithin, hkept, hresult⟩ := hm''
  refine ⟨hwithin₂.trans hwithin, ?_, ?_⟩
  · exact (hspace.setPage_kept words).trans (hkept.mono (Multiset.le_cons_self _ q))
  · cases mapped with
    | false => exact hresult
    | true =>
        refine ⟨hresult, ?_⟩
        rw [hkept q (Multiset.mem_cons_self q _), Mem.setPage_page_self]

def userFlags (xperm : Nat) : Nat := pteR ||| pteU ||| xperm ||| pteV

theorem allocLoop_spec {newsz xperm k : Nat} (h : Growing X m r g₀ n g j tf U)
    (hfilled : Filled m g n j (fun _ _ => 0) (fun _ => userFlags xperm))
    (hxperm : xperm < 1024) (hk : j + k = pageCount newsz) :
    Total (allocLoop r (n * pgSize) newsz xperm k (j * pgSize)) m fun sz m' =>
      Within X m m' ∧ Kept (framesOf g₀ 0 n + U) m m' ∧
        (sz = 0 ∧ UserSpace X m' r g₀ n tf U ∨
          sz = newsz ∧ ∃ g', UserSpace X m' r g' (pageCount newsz) tf U ∧
            (∀ v < n, g' v = g₀ v) ∧
            Filled m' g' n (pageCount newsz) (fun _ _ => 0) (fun _ => userFlags xperm)) := by
  induction k generalizing m g j with
  | zero =>
      rw [← hk]
      apply Total.pure
      exact ⟨Within.refl X m, Kept.refl _ m, Or.inr ⟨rfl, g, h.now, fun v hv => h.kept hv,
        hfilled⟩⟩
  | succ k ih =>
      rw [allocLoop]
      apply Total.bind (h.now.space.kalloc_spec.and h.now.space.kalloc_kept)
      intro result m₁ hm₁
      obtain ⟨⟨hwithin₁, hresult⟩, hkept₁⟩ := hm₁
      cases result with
      | none =>
          have hsame : m₁ = m := hresult
          rw [hsame]
          apply Total.bind h.undo
          intro _ m' hm'
          exact Total.pure ⟨hm'.1, hm'.2.1, Or.inl ⟨rfl, hm'.2.2⟩⟩
      | some q =>
          have hspace₁ : Space X m₁ r g (q ::ₘ (framesOf g 0 j + U)) := hresult
          have hperm : pteR ||| pteU ||| xperm < 1024 :=
            Nat.or_lt_two_pow (n := 10) (by decide) hxperm
          have hq : Frame q :=
            hspace₁.valid q (Multiset.mem_of_le hspace₁.held_le (Multiset.mem_cons_self _ _))
          apply Total.bind_eq memset_run
          apply Total.bind (h.fill_next hspace₁ _ hperm (maps_userPerm xperm))
          intro mapped m₃ hm₃
          obtain ⟨hwithin₃, hkept₃, hresult₃⟩ := hm₃
          have hwithin := hwithin₁.trans hwithin₃
          have hkept := hkept₁.trans hkept₃
          cases mapped with
          | true =>
              have hgrown : Growing X m₃ r g₀ n
                  (Function.update g j (leafEntry q (pteR ||| pteU ||| xperm)))
                  (j + 1) tf U := hresult₃.1
              have hpage : m₃.page q = fun _ => 0 := by
                rw [hresult₃.2]
              have hfilled' := hfilled.push (hkept.mono (Multiset.le_add_right _ U)) hq hperm
                hpage (pteFlags_leafEntry hperm)
              rw [if_pos rfl, ← Nat.succ_mul]
              apply (ih hgrown hfilled' (by omega)).mono
              intro sz m' hm'
              exact ⟨hwithin.trans hm'.1, (hkept.mono h.first_le).trans hm'.2.1, hm'.2.2⟩
          | false =>
              have hspace₃ : Space X m₃ r g (q ::ₘ (framesOf g 0 j + U)) := hresult₃
              rw [if_neg Bool.false_ne_true]
              apply Total.bind (hspace₃.kfree_spec.and hspace₃.kfree_kept)
              intro _ m₄ hm₄
              obtain ⟨hm₄, hkept₄⟩ := hm₄
              apply Total.bind (h.of_space hm₄.1).undo
              intro _ m' hm'
              apply Total.pure
              refine ⟨(hwithin.trans hm₄.2.1).trans hm'.1, ?_, Or.inl ⟨rfl, hm'.2.2⟩⟩
              exact ((hkept.trans hkept₄).mono h.first_le).trans hm'.2.1

theorem UserSpace.growing (h : UserSpace X m r g n tf U) :
    Growing X m r g n g n tf U :=
  ⟨h, Nat.le_refl n, h.map, fun _ _ _ => rfl⟩

structure Extended (m' : Mem) (g : Nat → Nat) (n : Nat) (g' : Nat → Nat) (n' xperm : Nat) :
    Prop where
  kept : ∀ v < n, g' v = g v
  filled : Filled m' g' n n' (fun _ _ => 0) (fun _ => userFlags xperm)

theorem uvmalloc_extended {oldsz newsz xperm : Nat}
    (h : UserSpace X m r g (pageCount oldsz) tf U) (hxperm : xperm < 1024) :
    Total (uvmalloc r oldsz newsz xperm) m fun sz m' => Within X m m' ∧
      Kept (framesOf g 0 (pageCount oldsz) + U) m m' ∧
      (sz = 0 ∧ UserSpace X m' r g (pageCount oldsz) tf U ∨
        sz = max oldsz newsz ∧ ∃ g', UserSpace X m' r g' (pageCount sz) tf U ∧
          Extended m' g (pageCount oldsz) g' (pageCount sz) xperm) := by
  have hn := h.pages_le
  by_cases hlt : newsz < oldsz
  · rw [uvmalloc, if_pos hlt]
    apply Total.pure
    refine ⟨Within.refl X m, Kept.refl _ m, Or.inr ⟨(Nat.max_eq_left hlt.le).symm, g, h, ?_⟩⟩
    exact ⟨fun _ _ => rfl, Filled.none⟩
  · have hcount : pageCount oldsz ≤ pageCount newsz := pageCount_mono (by omega)
    rw [uvmalloc, if_neg hlt, pgRoundUp_eq (by omega), pageSteps_count]
    apply (allocLoop_spec h.growing Filled.none hxperm (by omega)).mono
    intro sz m' hm'
    refine ⟨hm'.1, hm'.2.1, hm'.2.2.imp id ?_⟩
    intro hgrown
    obtain ⟨rfl, g', hspace, hkept, hfilled⟩ := hgrown
    exact ⟨(Nat.max_eq_right (by omega)).symm, g', hspace, hkept, hfilled⟩

omit [Image] in
theorem Extended.extends {m' : Mem} {g' : Nat → Nat} {n' xperm : Nat}
    (h : Extended m' g n g' n' xperm) : Extends g n g' n' := by
  constructor
  case kept => exact h.kept
  case user =>
      intro v hnv hv
      rw [← pteFlags_and (by decide), h.filled.flags v hnv hv, userFlags,
        Nat.and_or_distrib_right]
      intro hzero
      exact user_userPerm xperm (Nat.or_eq_zero_iff.mp hzero).1

theorem uvmalloc_spec {oldsz newsz xperm : Nat}
    (h : UserSpace X m r g (pageCount oldsz) tf U) (hxperm : xperm < 1024) :
    Total (uvmalloc r oldsz newsz xperm) m fun sz m' => Within X m m' ∧
      (sz = 0 ∧ UserSpace X m' r g (pageCount oldsz) tf U ∨
        sz = max oldsz newsz ∧ ∃ g', UserSpace X m' r g' (pageCount sz) tf U ∧
          Extends g (pageCount oldsz) g' (pageCount sz)) := by
  apply (uvmalloc_extended h hxperm).mono
  intro sz m' hm'
  obtain ⟨hwithin, -, hresult⟩ := hm'
  refine ⟨hwithin, hresult.imp id ?_⟩
  intro hgrown
  obtain ⟨hsz, g', hspace, hext⟩ := hgrown
  exact ⟨hsz, g', hspace, hext.extends⟩

end

end SyscallSched.Xv6
