import SyscallSched.Xv6.ProcTable

/-!
# Writing into user pages

`copyout` and the reading of a file segment write into pages that the process
maps for the user, and change nothing else.
-/

namespace SyscallSched.Xv6

open SyscallSched.Foundation

structure Wrote (Y : Multiset Nat) (m m' : Mem) : Prop where
  within : Within Y m m'
  freelist : m'.freelist = m.freelist

namespace Wrote

variable {Y Z : Multiset Nat} {m m' m'' : Mem}

theorem refl (Y : Multiset Nat) (m : Mem) : Wrote Y m m := ⟨Within.refl Y m, rfl⟩

theorem trans (h : Wrote Y m m') (h' : Wrote Y m' m'') : Wrote Y m m'' :=
  ⟨h.within.trans h'.within, h'.freelist.trans h.freelist⟩

theorem mono (h : Wrote Y m m') (hYZ : Y ≤ Z) : Wrote Z m m' :=
  ⟨h.within.mono hYZ, h.freelist⟩

theorem writeBytes (m : Mem) (pa off : Nat) (bytes : List Nat) :
    Wrote {pa} m (m.writeBytes pa off bytes) := by
  induction bytes generalizing m off with
  | nil => exact refl {pa} m
  | cons b bytes ih =>
      have hfirst : Wrote {pa} m (m.setWord pa (off / 8)
          (Mem.setByte (m.page pa (off / 8)) (off % 8) b)) :=
        ⟨within_setPage m pa _, rfl⟩
      exact hfirst.trans (ih _ _)

end Wrote

variable [Image] {X U : Multiset Nat} {m : Mem} {r n tf : Nat} {g : Nat → Nat}

theorem UserSpace.user_le (h : UserSpace X m r g n tf U) : framesOf g 0 n ≤ X :=
  (Multiset.le_add_right _ _).trans h.space.held_le

theorem UserSpace.wrote {m' : Mem} (h : UserSpace X m r g n tf U)
    (hw : Wrote (framesOf g 0 n) m m') : UserSpace X m' r g n tf U :=
  ⟨h.space.write_held (hw.within.mono (Multiset.le_add_right _ _)) hw.freelist, h.map⟩

theorem UserMap.user_page {v : Nat} (h : UserMap g n tf) (hv : v < 512 ^ 3)
    (hp : Present (g v)) (hu : g v &&& pteU ≠ 0) : v < n := by
  by_contra hnv
  by_cases htf : v = trapframePage
  · rw [htf, h.trapframe, leafEntry_user] at hu
    exact hu (by decide)
  · by_cases htr : v = trampolinePage
    · rw [htr, h.trampoline, leafEntry_user] at hu
      exact hu (by decide)
    · rw [h.none v hv (by omega) htf htr] at hp
      exact not_present_zero hp

omit [Image] in
theorem user_frame_le {v : Nat} (hv : v < n) :
    ({pte2pa (g v)} : Multiset Nat) ≤ framesOf g 0 n := by
  exact Multiset.singleton_le.mpr (mem_framesOf_zero hv)

/-! ## Bytes -/

omit [Image] in
theorem setWord_byte (m : Mem) (pa o o' b : Nat) :
    pageByte (m.setWord pa (o / 8) (Mem.setByte (m.page pa (o / 8)) (o % 8) b)) pa o' =
      if o' = o then b % 256 else pageByte m pa o' := by
  have hdigit : ∀ j, digit 256 (Mem.setByte (m.page pa (o / 8)) (o % 8) b) j =
      if j = o % 8 then b % 256 else digit 256 (m.page pa (o / 8)) j :=
    fun j => digit_replaceDigit (Nat.mod_lt b (by decide))
  rw [pageByte, Mem.setWord_page_self]
  by_cases hword : o' / 8 = o / 8
  · rw [if_pos hword, hdigit]
    by_cases hbyte : o' % 8 = o % 8
    · rw [if_pos hbyte, if_pos (by omega)]
    · rw [if_neg hbyte, if_neg (by omega), pageByte, hword]
  · rw [if_neg hword, if_neg (by omega), pageByte]

omit [Image] in
theorem writeBytes_outside {pa off o : Nat} {bytes : List Nat}
    (h : o < off ∨ off + bytes.length ≤ o) :
    pageByte (m.writeBytes pa off bytes) pa o = pageByte m pa o := by
  induction bytes generalizing m off with
  | nil => rfl
  | cons b bytes ih =>
      rw [List.length_cons] at h
      rw [Mem.writeBytes, ih (by omega), setWord_byte, if_neg (by omega)]

omit [Image] in
theorem writeBytes_inside {pa off i : Nat} {bytes : List Nat} (hi : i < bytes.length) :
    pageByte (m.writeBytes pa off bytes) pa (off + i) = bytes[i] % 256 := by
  induction bytes generalizing m off i with
  | nil => exact absurd hi (Nat.not_lt_zero i)
  | cons b bytes ih =>
      rw [Mem.writeBytes]
      cases i with
      | zero =>
          rw [writeBytes_outside (Or.inl (by omega)), setWord_byte, if_pos (Nat.add_zero _)]
          rfl
      | succ i =>
          have hoff : off + (i + 1) = off + 1 + i := by omega
          rw [hoff]
          exact ih (Nat.lt_of_succ_lt_succ hi)

/-- `m'` is `m` with the bytes `src` at the address `va` of the first `n` pages. -/
structure Spliced (m m' : Mem) (g : Nat → Nat) (n va : Nat) (src : List Nat) : Prop where
  below : ∀ i < src.length, (va + i) / pgSize < n
  bytes : ∀ i (hi : i < src.length), mapByte m' g (va + i) = src[i] % 256
  others : ∀ w, w / pgSize < n → w < va ∨ va + src.length ≤ w →
    mapByte m' g w = mapByte m g w

omit [Image] in
theorem Spliced.nil (m : Mem) (g : Nat → Nat) (n va : Nat) : Spliced m m g n va [] :=
  ⟨fun i hi => absurd hi (Nat.not_lt_zero i), fun i hi => absurd hi (Nat.not_lt_zero i),
    fun _ _ _ => rfl⟩

omit [Image] in
theorem Spliced.nil_at {m' : Mem} {va : Nat} (h : Spliced m m' g n va []) (va' : Nat) :
    Spliced m m' g n va' [] :=
  ⟨fun i hi => absurd hi (Nat.not_lt_zero i), fun i hi => absurd hi (Nat.not_lt_zero i),
    fun w hw _ => h.others w hw (Nat.lt_or_ge w va)⟩

omit [Image] in
theorem Spliced.append {m₁ m' : Mem} {va k : Nat} {src : List Nat} (hk : k ≤ src.length)
    (h : Spliced m m₁ g n va (src.take k)) (h' : Spliced m₁ m' g n (va + k) (src.drop k)) :
    Spliced m m' g n va src := by
  have htake : (src.take k).length = k := List.length_take_of_le hk
  have hdrop : (src.drop k).length = src.length - k := List.length_drop
  constructor
  case below =>
      intro i hi
      by_cases hik : i < k
      · exact h.below i (by omega)
      · have hrest := h'.below (i - k) (by omega)
        have heq : va + k + (i - k) = va + i := by omega
        rw [heq] at hrest
        exact hrest
  case bytes =>
      intro i hi
      by_cases hik : i < k
      · have hpage := h.below i (by omega)
        rw [h'.others _ hpage (by omega), h.bytes i (by omega), List.getElem_take]
      · have hrest := h'.bytes (i - k) (by omega)
        have heq : va + k + (i - k) = va + i := by omega
        rw [heq, List.getElem_drop] at hrest
        rw [hrest]
        congr 2
        omega
  case others =>
      intro w hw hout
      rw [h'.others w hw (by omega), h.others w hw (by omega)]

theorem UserSpace.frame_inj {v w : Nat} (h : UserSpace X m r g n tf U) (hv : v < n)
    (hw : w < n) (heq : pte2pa (g v) = pte2pa (g w)) : v = w := by
  have hnd : (framesOf g 0 n).Nodup := Multiset.nodup_of_le h.user_le h.space.nodup
  by_contra hne
  -- the earlier of the two is in the frames before the later one
  have hclash : ∀ a b, a < b → b < n → pte2pa (g a) ≠ pte2pa (g b) := by
    intro a b hab hb hsame
    have hprefix := Multiset.nodup_of_le (framesOf_mono hb) hnd
    rw [framesOf_succ, Nat.zero_add, Multiset.nodup_cons, ← hsame] at hprefix
    exact hprefix.1 (mem_framesOf_zero hab)
  cases Nat.lt_or_gt_of_ne hne with
  | inl hlt => exact hclash v w hlt hw heq
  | inr hgt => exact hclash w v hgt hv heq.symm

theorem UserSpace.splice {v off : Nat} {src : List Nat} (h : UserSpace X m r g n tf U)
    (hv : v < n) (hfit : off + src.length ≤ pgSize) :
    Spliced m (m.writeBytes (pte2pa (g v)) off src) g n (v * pgSize + off) src := by
  have hat : ∀ o < pgSize, (v * pgSize + o) / pgSize = v ∧ (v * pgSize + o) % pgSize = o := by
    intro o ho
    rw [Nat.mul_comm, Nat.mul_add_div (by decide), Nat.mul_add_mod, Nat.div_eq_of_lt ho,
      Nat.mod_eq_of_lt ho]
    exact ⟨Nat.add_zero v, rfl⟩
  constructor
  case below =>
      intro i hi
      rw [Nat.add_assoc, (hat _ (by omega)).1]
      exact hv
  case bytes =>
      intro i hi
      obtain ⟨hdiv, hmod⟩ := hat (off + i) (by omega)
      rw [Nat.add_assoc, mapByte, hdiv, hmod]
      exact writeBytes_inside hi
  case others =>
      intro w hw hout
      rw [mapByte, mapByte]
      by_cases hpage : w / pgSize = v
      · have hsplit : v * pgSize + w % pgSize = w := by
          rw [← hpage]
          exact Nat.div_add_mod' w pgSize
        rw [hpage]
        exact writeBytes_outside (by omega)
      · have hne : pte2pa (g (w / pgSize)) ≠ pte2pa (g v) :=
          fun heq => hpage (h.frame_inj hw hv heq)
        rw [pageByte, (Wrote.writeBytes m _ off src).within.page _
          (fun hmem => hne (Multiset.mem_singleton.mp hmem)), pageByte]

/-! ## `copyout` -/

omit [Image] in
theorem copyoutLoop_nil (fuel dstva : Nat) : copyoutLoop r fuel dstva [] m = .ok (true, m) := by
  cases fuel with
  | zero => rfl
  | succ fuel =>
      rw [copyoutLoop, if_pos rfl]
      rfl

omit [Image] in
/-- One iteration for bytes that are left. -/
theorem copyoutLoop_step {fuel dstva e k : Nat} {src : List Nat} (hsrc : src ≠ [])
    (he : leafAt m 2 r (dstva / pgSize) = e)
    (hk : k = min (pgSize - (dstva - pgRoundDown dstva)) src.length) :
    copyoutLoop r (fuel + 1) dstva src m =
      if pgRoundDown dstva < maxVa ∧ (e &&& pteV ≠ 0 ∧ e &&& pteU ≠ 0) ∧ e &&& pteW ≠ 0 then
        copyoutLoop r fuel (pgRoundDown dstva + pgSize) (src.drop k)
          (m.writeBytes (pte2pa e) (dstva - pgRoundDown dstva) (src.take k))
      else .ok (false, m) := by
  have hround : pgRoundDown dstva / pgSize = dstva / pgSize := va_page _
  rw [copyoutLoop, if_neg hsrc]
  by_cases hva : maxVa ≤ pgRoundDown dstva
  · rw [if_pos hva, if_neg (fun h => absurd h.1 (Nat.not_lt.mpr hva))]
    rfl
  have hlt := Nat.lt_of_not_le hva
  have hwalk := @walk_lookup m r _ hlt
  rw [hround] at hwalk
  rw [if_neg hva, Total.run_bind hwalk]
  cases hslot : slotAt m 2 r (dstva / pgSize) with
  | none =>
      have hzero : e = 0 := he.symm.trans (leafAt_of_no_slot hslot)
      rw [if_neg (fun h => h.2.1.1 (by rw [hzero]; rfl))]
      rfl
  | some a =>
      have hentry := @loadPte_run m a
      rw [← leafAt_of_slot hslot, he] at hentry
      dsimp only
      rw [Total.run_bind hentry]
      by_cases hflags : e &&& pteV = 0 ∨ e &&& pteU = 0 ∨ e &&& pteW = 0
      · rw [if_pos hflags, if_neg (by tauto)]
        rfl
      · rw [if_neg hflags, if_pos (by tauto), ← hk]
        rfl

theorem copyoutLoop_spec {fuel dstva : Nat} {src : List Nat}
    (h : UserSpace X m r g n tf U) (hfuel : src.length ≤ fuel) :
    Total (copyoutLoop r fuel dstva src) m fun copied m' => Wrote (framesOf g 0 n) m m' ∧
      (copied = true → Spliced m m' g n dstva src) := by
  have hdone : ∀ m dstva fuel, Total (copyoutLoop r fuel dstva []) m fun copied m' =>
      Wrote (framesOf g 0 n) m m' ∧ (copied = true → Spliced m m' g n dstva []) :=
    fun m dstva fuel => Total.of_eq (copyoutLoop_nil fuel dstva)
      ⟨Wrote.refl _ m, fun _ => Spliced.nil m g n dstva⟩
  induction fuel generalizing m dstva src with
  | zero =>
      obtain rfl : src = [] := List.length_eq_zero_iff.mp (Nat.le_zero.mp hfuel)
      exact hdone m dstva 0
  | succ fuel ih =>
      by_cases hsrc : src = []
      · rw [hsrc]
        exact hdone m dstva (fuel + 1)
      obtain ⟨k, hk⟩ : ∃ k, k = min (pgSize - (dstva - pgRoundDown dstva)) src.length := ⟨_, rfl⟩
      have hstep := @copyoutLoop_step m r fuel dstva _ k src hsrc rfl hk
      split_ifs at hstep with hflags
      case neg => exact Total.of_eq hstep ⟨Wrote.refl _ m, fun hfalse => by cases hfalse⟩
      case pos =>
          obtain ⟨v, hv⟩ : ∃ v, v = dstva / pgSize := ⟨_, rfl⟩
          have hround : pgRoundDown dstva = v * pgSize := by rw [pgRoundDown, hv]
          have hsplit : v * pgSize + dstva % pgSize = dstva := by
            rw [hv]
            exact Nat.div_add_mod' dstva pgSize
          have hoff : dstva - v * pgSize = dstva % pgSize := by omega
          have hsmall : dstva % pgSize < pgSize := Nat.mod_lt _ (by decide)
          have hpage := page_lt_reach (page_lt_of_va hflags.1)
          rw [hround, va_page] at hpage
          rw [← hv, h.space.leaf v hpage] at hflags hstep
          rw [hround, hoff] at hk hstep
          have huser := h.map.user_page hpage hflags.2.1.1 hflags.2.1.2
          have hpos : 0 < src.length := List.length_pos_iff.mpr hsrc
          have htake : (src.take k).length = k := List.length_take_of_le (by omega)
          have hdrop : (src.drop k).length = src.length - k := List.length_drop
          have hwrote := (Wrote.writeBytes m (pte2pa (g v)) (dstva % pgSize)
            (src.take k)).mono (user_frame_le huser)
          have hchunk : Spliced m _ g n (v * pgSize + dstva % pgSize) (src.take k) :=
            h.splice huser (by omega)
          rw [hsplit] at hchunk
          apply Total.congr hstep
          apply (ih (h.wrote hwrote) (by omega)).mono
          intro copied m' hm'
          refine ⟨hwrote.trans hm'.1, ?_⟩
          intro hcopied
          apply hchunk.append (by omega)
          have hrest := hm'.2 hcopied
          by_cases hlast : src.drop k = []
          · rw [hlast] at hrest ⊢
            exact hrest.nil_at _
          · have hmore : 0 < (src.drop k).length := List.length_pos_iff.mpr hlast
            have haddr : dstva + k = v * pgSize + pgSize := by omega
            rw [haddr]
            exact hrest

theorem copyout_content {dstva : Nat} {src : List Nat} (h : UserSpace X m r g n tf U) :
    Total (copyout r dstva src) m fun copied m' => Wrote (framesOf g 0 n) m m' ∧
      (copied = true → Spliced m m' g n dstva src) :=
  copyoutLoop_spec h (Nat.le_refl _)

theorem copyout_spec {dstva : Nat} {src : List Nat} (h : UserSpace X m r g n tf U) :
    Total (copyout r dstva src) m fun _ m' => Wrote (framesOf g 0 n) m m' :=
  (copyout_content h).mono fun _ _ hm' => hm'.1

/-! ## `loadseg` -/

theorem UserSpace.frame_ne_zero {v : Nat} (h : UserSpace X m r g n tf U) (hv : v < n) :
    pte2pa (g v) ≠ 0 := by
  have hmem := Multiset.mem_of_le ((user_frame_le hv).trans h.user_le)
    (Multiset.mem_singleton_self _)
  have hlow := Image.kernBase_le.trans (h.space.valid _ hmem).2.1
  intro hzero
  rw [hzero] at hlow
  exact absurd hlow (by decide)

omit [Image] in
theorem walkaddr_eq (m : Mem) (r va : Nat) :
    walkaddr r va m = .ok (if va < maxVa ∧ leafAt m 2 r (va / pgSize) &&& pteV ≠ 0 ∧
      leafAt m 2 r (va / pgSize) &&& pteU ≠ 0 then pte2pa (leafAt m 2 r (va / pgSize)) else 0,
      m) := by
  rw [walkaddr]
  by_cases hva : maxVa ≤ va
  · rw [if_pos hva, if_neg (fun h => absurd h.1 (Nat.not_lt.mpr hva))]
    rfl
  have hlt := Nat.lt_of_not_le hva
  rw [if_neg hva, Total.run_bind (walk_lookup hlt)]
  cases hslot : slotAt m 2 r (va / pgSize) with
  | none =>
      rw [leafAt_of_no_slot hslot, if_neg (fun h => h.2.1 rfl)]
      rfl
  | some a =>
      have hentry := @loadPte_run m a
      rw [← leafAt_of_slot hslot] at hentry
      dsimp only
      rw [Total.run_bind hentry]
      by_cases hflags : leafAt m 2 r (va / pgSize) &&& pteV = 0 ∨
          leafAt m 2 r (va / pgSize) &&& pteU = 0
      · rw [if_pos hflags, if_neg (by tauto)]
        rfl
      · rw [if_neg hflags, if_pos (by tauto)]
        rfl

theorem walkaddr_user {va : Nat} (h : UserSpace X m r g n tf U) (hv : va / pgSize < n)
    (hu : g (va / pgSize) &&& pteU ≠ 0) :
    walkaddr r va m = .ok (pte2pa (g (va / pgSize)), m) := by
  have hn := h.pages_le
  have hva : va < maxVa := by
    simp only [maxVa, pgSize] at *
    omega
  have hreach : va / pgSize < 512 ^ 3 := by omega
  rw [walkaddr_eq, h.space.leaf _ hreach, if_pos ⟨hva, h.map.user _ hv, hu⟩]

theorem loadsegLoop_spec {va offset sz k j : Nat} {ip : List Nat}
    (h : UserSpace X m r g n tf U) (hu : ∀ v < n, g v &&& pteU ≠ 0)
    (hva : va % pgSize = 0) (hsz : pageCount (va + sz) ≤ n) (hk : j + k = pageCount sz) :
    Total (loadsegLoop r va ip offset sz k (j * pgSize)) m fun _ m' =>
      Wrote (framesOf g 0 n) m m' := by
  induction k generalizing m j with
  | zero => exact Total.pure (Wrote.refl _ m)
  | succ k ih =>
      have hn := h.pages_le
      have hpage : (va + j * pgSize) % 2 ^ 64 / pgSize < n := by
        simp only [pageCount, pgSize] at *
        omega
      rw [loadsegLoop]
      apply Total.bind_eq (walkaddr_user h hpage (hu _ hpage))
      rw [if_neg (h.frame_ne_zero hpage)]
      apply Total.bind_eq (a := ()) rfl
      have hwrote := (Wrote.writeBytes m
        (pte2pa (g ((va + j * pgSize) % 2 ^ 64 / pgSize))) 0
        (readi ip ((offset + j * pgSize) % 2 ^ 32) (min (sz - j * pgSize) pgSize))).mono
        (user_frame_le hpage)
      by_cases hlen : (readi ip ((offset + j * pgSize) % 2 ^ 32)
          (min (sz - j * pgSize) pgSize)).length ≠ min (sz - j * pgSize) pgSize
      · rw [if_pos hlen]
        exact Total.pure hwrote
      · rw [if_neg hlen, ← Nat.succ_mul]
        apply (ih (h.wrote hwrote) (by omega)).mono
        intro _ m' hm'
        exact hwrote.trans hm'

theorem loadseg_spec {va offset sz : Nat} {ip : List Nat}
    (h : UserSpace X m r g n tf U) (hu : ∀ v < n, g v &&& pteU ≠ 0)
    (hva : va % pgSize = 0) (hsz : pageCount (va + sz) ≤ n) :
    Total (loadseg r va ip offset sz) m fun _ m' => Wrote (framesOf g 0 n) m m' := by
  have hsteps : pageSteps 0 sz = pageCount sz := pageSteps_count 0 sz
  rw [loadseg, hsteps, ← Nat.zero_mul pgSize]
  exact loadsegLoop_spec h hu hva hsz (Nat.zero_add _)

end SyscallSched.Xv6
