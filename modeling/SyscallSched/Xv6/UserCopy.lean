import SyscallSched.Xv6.PageTable
import SyscallSched.Xv6.UserWrite

/-!
# `copyout` and `copyin` (`vm.c`)

Both go page by page through a range of user addresses, which may be any numbers.  What
they do is said of the addresses of the range one by one: an address is below `MAXVA` on a
page with the right flags, or the copy stops before its page.
-/

namespace SyscallSched.Xv6

open SyscallSched.Foundation

/-! ## The functions with their `uint64` arithmetic -/

/-- `copyoutLoop` with the sum of addresses that wraps around. -/
def copyoutLoop64 (pagetable : Nat) : Nat → Nat → List Nat → MemM Bool
  | 0, _, _ => pure true
  | fuel + 1, dstva, src =>
      if src = [] then
        pure true
      else if maxVa ≤ pgRoundDown dstva then
        pure false
      else do
        match ← walk pagetable (pgRoundDown dstva) false with
        | none => pure false
        | some pte => do
            let e ← loadPte pte
            if e &&& pteV = 0 ∨ e &&& pteU = 0 ∨ e &&& pteW = 0 then
              pure false
            else do
              let n := min (pgSize - (dstva - pgRoundDown dstva)) src.length
              memmove (pte2pa e) (dstva - pgRoundDown dstva) (src.take n)
              copyoutLoop64 pagetable fuel ((pgRoundDown dstva + pgSize) % 2 ^ 64) (src.drop n)

/-- `len` is the length of `src`. -/
def copyout64 (pagetable dstva : Nat) (src : List Nat) : MemM Bool :=
  copyoutLoop64 pagetable src.length dstva src

/-- The `n` bytes from `off` on of the page `pa`. -/
def pageBytes (m : Mem) (pa off n : Nat) : List Nat :=
  (List.range n).map fun i => pageByte m pa (off + i)

/-- The loop of `copyin`: the bytes that it stores at `dst`, one after the other, and
whether it returns 0.  Every iteration copies at least one byte. -/
def copyinLoop (pagetable : Nat) : Nat → Nat → Nat → MemM (List Nat × Bool)
  | 0, _, _ => pure ([], true)
  | fuel + 1, srcva, len =>
      if len = 0 then
        pure ([], true)
      else do
        let pa0 ← walkaddr pagetable (pgRoundDown srcva)
        if pa0 = 0 then
          pure ([], false)
        else do
          let n := min (pgSize - (srcva - pgRoundDown srcva)) len
          let bytes := pageBytes (← get) pa0 (srcva - pgRoundDown srcva) n
          let rest ← copyinLoop pagetable fuel ((pgRoundDown srcva + pgSize) % 2 ^ 64) (len - n)
          pure (bytes ++ rest.1, rest.2)

def copyin (pagetable srcva len : Nat) : MemM (List Nat × Bool) :=
  copyinLoop pagetable len srcva len

/-! ## Ranges of addresses -/

def Readable (m : Mem) (r v : Nat) : Prop :=
  leafAt m 2 r v &&& pteV ≠ 0 ∧ leafAt m 2 r v &&& pteU ≠ 0

def Writable (m : Mem) (r v : Nat) : Prop :=
  Readable m r v ∧ leafAt m 2 r v &&& pteW ≠ 0

instance (m : Mem) (r v : Nat) : Decidable (Readable m r v) :=
  inferInstanceAs (Decidable (_ ∧ _))

instance (m : Mem) (r v : Nat) : Decidable (Writable m r v) :=
  inferInstanceAs (Decidable (_ ∧ _))

/-- `walkaddr` returns 0 for an unmapped page, and so for a page on the frame 0 as well. -/
def UserPage (m : Mem) (r v : Nat) : Prop :=
  Readable m r v ∧ pte2pa (leafAt m 2 r v) ≠ 0

instance (m : Mem) (r v : Nat) : Decidable (UserPage m r v) :=
  inferInstanceAs (Decidable (_ ∧ _))

/-- Every address of the range is below `MAXVA` on a page with `P`. -/
def Covers (P : Nat → Prop) (va len : Nat) : Prop :=
  ∀ i < len, va + i < maxVa ∧ P ((va + i) / pgSize)

def userBytes (m : Mem) (r va len : Nat) : List Nat :=
  (List.range len).map fun i => userByte m r (va + i)

structure UserTable (m : Mem) (r : Nat) : Prop where
  distinct : ∀ v w, v < maxVa / pgSize → w < maxVa / pgSize → Readable m r v → Readable m r w →
    pte2pa (leafAt m 2 r v) = pte2pa (leafAt m 2 r w) → v = w
  apart : ∀ v < maxVa / pgSize, Readable m r v → pte2pa (leafAt m 2 r v) ∉ tables m 2 r

/-- From `m` to `m'` the bytes `src` were stored at the address `dstva` and nothing else
was changed. -/
structure Copied (m m' : Mem) (r dstva : Nat) (src : List Nat) : Prop where
  freelist : m'.freelist = m.freelist
  refreed : m'.refreed = m.refreed
  table : Agree m m' 2 r
  covers : Covers (Writable m r) dstva src.length
  bytes : ∀ i (hi : i < src.length), userByte m' r (dstva + i) = src[i] % 256
  others : ∀ q o, (∀ i < src.length, q = pte2pa (leafAt m 2 r ((dstva + i) / pgSize)) →
    o ≠ (dstva + i) % pgSize) → pageByte m' q o = pageByte m q o

section

variable {m m' m₁ : Mem} {r va dstva len k i v : Nat} {P : Nat → Prop} {src : List Nat}

theorem covers_step (P : Nat → Prop) (va : Nat) (hlen : 0 < len) : Covers P va len ↔
    (pgRoundDown va < maxVa ∧ P (va / pgSize)) ∧
      Covers P (pgRoundDown va + pgSize) (len - min (pgSize - (va - pgRoundDown va)) len) := by
  have hdiv : ∀ i, va % pgSize + i < pgSize → (va + i) / pgSize = va / pgSize := by
    intro i hi
    simp only [pgSize] at *
    omega
  simp only [Covers, pgRoundDown, maxVa, pgSize] at *
  constructor
  · intro h
    refine ⟨⟨?_, ?_⟩, ?_⟩
    · have hfirst := (h 0 hlen).1
      omega
    · have hfirst := (h 0 hlen).2
      rw [Nat.add_zero] at hfirst
      exact hfirst
    · intro i hi
      have hnext := h (4096 - (va - va / 4096 * 4096) + i) (by omega)
      have haddr : va + (4096 - (va - va / 4096 * 4096) + i) = va / 4096 * 4096 + 4096 + i := by
        omega
      rw [haddr] at hnext
      exact hnext
  · rintro ⟨⟨hlt, hpage⟩, hrest⟩ i hi
    by_cases hin : va % 4096 + i < 4096
    · rw [hdiv i hin]
      exact ⟨by omega, hpage⟩
    · have hnext := hrest (i - (4096 - (va - va / 4096 * 4096))) (by omega)
      have haddr : va / 4096 * 4096 + 4096 + (i - (4096 - (va - va / 4096 * 4096))) = va + i := by
        omega
      rw [haddr] at hnext
      exact hnext

/-- No address wraps around, because the next page begins at `MAXVA` at most. -/
theorem next_page_mod (h : pgRoundDown va < maxVa) :
    (pgRoundDown va + pgSize) % 2 ^ 64 = pgRoundDown va + pgSize := by
  apply Nat.mod_eq_of_lt
  simp only [maxVa, pgSize] at *
  omega

theorem copyoutLoop64_eq (fuel : Nat) :
    copyoutLoop64 r fuel dstva src = copyoutLoop r fuel dstva src := by
  induction fuel generalizing dstva src with
  | zero => rfl
  | succ fuel ih =>
      rw [copyoutLoop64, copyoutLoop]
      split_ifs with _ hva
      · rfl
      · rfl
      · rw [next_page_mod (Nat.lt_of_not_le hva)]
        apply bind_congr
        intro slot
        cases slot with
        | none => rfl
        | some pte =>
            apply bind_congr
            intro e
            split_ifs
            · rfl
            · exact bind_congr fun _ => ih

/-! ## `copyin` -/

theorem page_lt_max (h : va < maxVa) : va / pgSize < maxVa / pgSize := by
  simp only [maxVa, pgSize] at *
  omega

theorem walkaddr_page (m : Mem) (r va : Nat) :
    ∃ pa, walkaddr r (pgRoundDown va) m = .ok (pa, m) ∧
      (pa ≠ 0 ↔ pgRoundDown va < maxVa ∧ UserPage m r (va / pgSize)) ∧
      (pa ≠ 0 → pa = pte2pa (leafAt m 2 r (va / pgSize))) := by
  have hround : pgRoundDown va / pgSize = va / pgSize := va_page _
  have hrun := walkaddr_eq m r (pgRoundDown va)
  rw [hround] at hrun
  refine ⟨_, hrun, ?_⟩
  split_ifs with hread
  · refine ⟨?_, fun _ => rfl⟩
    constructor
    · intro hpa
      exact ⟨hread.1, hread.2, hpa⟩
    · intro hpage
      exact hpage.2.2
  · refine ⟨iff_of_false (fun h => h rfl) ?_, fun h => absurd rfl h⟩
    intro hpage
    exact hread ⟨hpage.1, hpage.2.1⟩

@[simp] theorem length_userBytes (m : Mem) (r va len : Nat) :
    (userBytes m r va len).length = len := by
  simp [userBytes]

theorem userBytes_add (m : Mem) (r va j k : Nat) :
    userBytes m r va (j + k) = userBytes m r va j ++ userBytes m r (va + j) k := by
  simp [userBytes, List.range_add, Function.comp_def, Nat.add_assoc]

theorem pageBytes_user (hk : va % pgSize + k ≤ pgSize) :
    pageBytes m (pte2pa (leafAt m 2 r (va / pgSize))) (va - pgRoundDown va) k =
      userBytes m r va k := by
  apply List.map_congr_left
  intro i hi
  have hi := List.mem_range.mp hi
  have hdiv : (va + i) / pgSize = va / pgSize := by
    simp only [pgSize] at *
    omega
  have hmod : (va + i) % pgSize = va - pgRoundDown va + i := by
    simp only [pgRoundDown, pgSize] at *
    omega
  rw [userByte, mapByte, hdiv, hmod]

/-- The first `n` of `len` bytes from `va` on are those that lie in the page of `va`. -/
structure Chunk (va len n : Nat) : Prop where
  fits : va % pgSize + n ≤ pgSize
  pos : 0 < n
  le : n ≤ len
  next : n < len → va + n = pgRoundDown va + pgSize

theorem chunk_min (va : Nat) {len : Nat} (hlen : len ≠ 0) :
    Chunk va len (min (pgSize - (va - pgRoundDown va)) len) := by
  constructor <;> simp only [pgRoundDown, pgSize] <;> omega

theorem copyinLoop_spec (m : Mem) (r va : Nat) {len fuel : Nat} (hfuel : len ≤ fuel) :
    ∃ bytes ok, copyinLoop r fuel va len m = .ok ((bytes, ok), m) ∧
      bytes = userBytes m r va bytes.length ∧ bytes.length ≤ len ∧
      (ok = true → bytes.length = len) ∧ (ok = true ↔ Covers (UserPage m r) va len) := by
  induction fuel generalizing va len with
  | zero =>
      refine ⟨[], true, rfl, rfl, Nat.zero_le _, fun _ => (Nat.le_zero.mp hfuel).symm,
        iff_of_true rfl ?_⟩
      intro i hi
      omega
  | succ fuel ih =>
      rw [copyinLoop]
      by_cases hlen : len = 0
      · rw [if_pos hlen]
        refine ⟨[], true, rfl, rfl, Nat.zero_le _, fun _ => hlen.symm, iff_of_true rfl ?_⟩
        intro i hi
        omega
      rw [if_neg hlen]
      obtain ⟨pa, hrun, hfound, hpa⟩ := walkaddr_page m r va
      rw [Total.run_bind hrun]
      have hstep := covers_step (UserPage m r) va (Nat.pos_of_ne_zero hlen)
      by_cases hzero : pa = 0
      · rw [if_pos hzero]
        refine ⟨[], false, rfl, rfl, Nat.zero_le _, (fun hfalse => by cases hfalse),
          iff_of_false Bool.false_ne_true ?_⟩
        intro hcovers
        exact hfound.mpr (hstep.mp hcovers).1 hzero
      · rw [if_neg hzero]
        have hchunk := chunk_min va hlen
        generalize min (pgSize - (va - pgRoundDown va)) len = n at hchunk hstep ⊢
        obtain ⟨hfit, hpos, hnlen, hnext⟩ := hchunk
        obtain ⟨bytes, ok, hloop, hbytes, hle, hdone, hok⟩ :=
          ih (pgRoundDown va + pgSize) (show len - n ≤ fuel by omega)
        refine ⟨userBytes m r va n ++ bytes, ok, ?_, ?_, ?_, ?_, ?_⟩
        · rw [Total.run_bind (a := m) (t := m) rfl, next_page_mod (hfound.mp hzero).1,
            Total.run_bind hloop, hpa hzero, pageBytes_user hfit]
          rfl
        · rw [List.length_append, length_userBytes, userBytes_add]
          by_cases hmore : n < len
          · rw [hnext hmore, ← hbytes]
          · have hnil : bytes = [] := List.eq_nil_of_length_eq_zero (by omega)
            rw [hnil]
            rfl
        · rw [List.length_append, length_userBytes]
          omega
        · intro htrue
          rw [List.length_append, length_userBytes, hdone htrue]
          omega
        · rw [hstep, hok]
          exact (and_iff_right (hfound.mp hzero)).symm

/-! ## `copyout` -/

theorem readable_agree (h : Agree m m' 2 r) : Readable m' r v ↔ Readable m r v := by
  rw [Readable, Readable, h.leafAt_eq]

theorem writable_agree (h : Agree m m' 2 r) : Writable m' r v ↔ Writable m r v := by
  rw [Writable, Writable, readable_agree h, h.leafAt_eq]

theorem userPage_agree (h : Agree m m' 2 r) : UserPage m' r v ↔ UserPage m r v := by
  rw [UserPage, UserPage, readable_agree h, h.leafAt_eq]

theorem UserTable.agree (ht : UserTable m r) (h : Agree m m' 2 r) : UserTable m' r := by
  constructor
  case distinct =>
      intro v w hv hw hrv hrw
      rw [h.leafAt_eq, h.leafAt_eq]
      exact ht.distinct v w hv hw ((readable_agree h).mp hrv) ((readable_agree h).mp hrw)
  case apart =>
      intro v hv hr
      rw [h.leafAt_eq, h.tables_eq]
      exact ht.apart v hv ((readable_agree h).mp hr)

theorem Copied.refl (m : Mem) (r dstva : Nat) : Copied m m r dstva [] := by
  refine ⟨rfl, rfl, fun _ _ => rfl, ?_, ?_, fun _ _ _ => rfl⟩
  · intro i hi
    exact absurd hi (Nat.not_lt_zero i)
  · intro i hi
    exact absurd hi (Nat.not_lt_zero i)

theorem Copied.nil_at (h : Copied m m' r va []) (dstva : Nat) : Copied m m' r dstva [] where
  freelist := h.freelist
  refreed := h.refreed
  table := h.table
  covers := fun i hi => absurd hi (Nat.not_lt_zero i)
  bytes := fun i hi => absurd hi (Nat.not_lt_zero i)
  others := fun q o _ => h.others q o fun i hi => absurd hi (Nat.not_lt_zero i)

theorem Copied.elsewhere (ht : UserTable m r) (h : Copied m m' r dstva src) {w : Nat}
    (hw : w < maxVa) (hr : Readable m r (w / pgSize)) (hout : w < dstva ∨ dstva + src.length ≤ w) :
    userByte m' r w = userByte m r w := by
  rw [userByte, userByte, mapByte, mapByte, h.table.leafAt_eq]
  apply h.others
  intro i hi hpage hoff
  obtain ⟨hlt, hwritable⟩ := h.covers i hi
  have hsame := ht.distinct _ _ (page_lt_max hw) (page_lt_max hlt) hr hwritable.1 hpage
  have hdiv := Nat.div_add_mod w pgSize
  have hdiv' := Nat.div_add_mod (dstva + i) pgSize
  rw [hsame, hoff, hdiv'] at hdiv
  omega

theorem copied_page (src : List Nat) (ht : UserTable m r) (hlt : dstva < maxVa)
    (hw : Writable m r (dstva / pgSize)) (hfit : dstva % pgSize + src.length ≤ pgSize) :
    Copied m (m.writeBytes (pte2pa (leafAt m 2 r (dstva / pgSize))) (dstva % pgSize) src) r dstva
      src := by
  have hwrote := Wrote.writeBytes m (pte2pa (leafAt m 2 r (dstva / pgSize))) (dstva % pgSize) src
  have hapart := ht.apart _ (page_lt_max hlt) hw.1
  have hagree : Agree m (m.writeBytes (pte2pa (leafAt m 2 r (dstva / pgSize)))
      (dstva % pgSize) src) 2 r := by
    intro q hq
    apply hwrote.within.page
    intro hmem
    rw [Multiset.mem_singleton] at hmem
    rw [hmem] at hq
    exact hapart hq
  have hat : ∀ i < src.length, (dstva + i) / pgSize = dstva / pgSize ∧
      (dstva + i) % pgSize = dstva % pgSize + i := by
    intro i hi
    simp only [pgSize] at *
    omega
  constructor
  case freelist => exact hwrote.freelist
  case refreed => exact hwrote.within.refreed
  case table => exact hagree
  case covers =>
      intro i hi
      rw [(hat i hi).1]
      refine ⟨?_, hw⟩
      have hi' := (hat i hi).1
      simp only [maxVa, pgSize] at *
      omega
  case bytes =>
      intro i hi
      rw [userByte, mapByte, hagree.leafAt_eq, (hat i hi).1, (hat i hi).2]
      exact writeBytes_inside hi
  case others =>
      intro q o hother
      by_cases hq : q = pte2pa (leafAt m 2 r (dstva / pgSize))
      · rw [hq]
        apply writeBytes_outside
        by_contra hin
        have hi : o - dstva % pgSize < src.length := by omega
        have hpage := hother (o - dstva % pgSize) hi
        rw [(hat _ hi).1, (hat _ hi).2] at hpage
        exact hpage hq (by omega)
      · rw [pageByte, hwrote.within.page q (fun hmem => hq (Multiset.mem_singleton.mp hmem)),
          pageByte]

theorem Copied.append (ht : UserTable m r) (hk : k ≤ src.length)
    (h : Copied m m₁ r dstva (src.take k)) (h' : Copied m₁ m' r (dstva + k) (src.drop k)) :
    Copied m m' r dstva src := by
  have htake : (src.take k).length = k := List.length_take_of_le hk
  have hdrop : (src.drop k).length = src.length - k := List.length_drop
  have hcovers : Covers (Writable m r) dstva src.length := by
    intro i hi
    by_cases hik : i < k
    · exact h.covers i (by omega)
    · have hrest := h'.covers (i - k) (by omega)
      have haddr : dstva + k + (i - k) = dstva + i := by omega
      rw [haddr, writable_agree h.table] at hrest
      exact hrest
  constructor
  case freelist => exact h'.freelist.trans h.freelist
  case refreed => exact h'.refreed.trans h.refreed
  case table => exact h.table.trans h'.table
  case covers => exact hcovers
  case bytes =>
      intro i hi
      by_cases hik : i < k
      · obtain ⟨hlt, hwritable⟩ := hcovers i hi
        have hr := (readable_agree h.table).mpr hwritable.1
        rw [h'.elsewhere (ht.agree h.table) hlt hr (by omega), h.bytes i (by omega),
          List.getElem_take]
      · have hrest := h'.bytes (i - k) (by omega)
        have haddr : dstva + k + (i - k) = dstva + i := by omega
        rw [haddr, List.getElem_drop] at hrest
        rw [hrest]
        congr 2
        omega
  case others =>
      intro q o hother
      rw [h'.others q o, h.others q o]
      · intro i hi
        exact hother i (by omega)
      · intro i hi
        have hrest := hother (k + i) (by omega)
        rw [← Nat.add_assoc] at hrest
        rw [h.table.leafAt_eq]
        exact hrest

/-- `x` stores the first bytes of `src` and returns 0 if these are all of them. -/
def Stores (x : MemM Bool) (m : Mem) (r dstva : Nat) (src : List Nat) : Prop :=
  ∃ copied m' k, x m = .ok (copied, m') ∧ k ≤ src.length ∧ Copied m m' r dstva (src.take k) ∧
    (copied = true → k = src.length) ∧ (copied = true ↔ Covers (Writable m r) dstva src.length)

theorem Stores.congr {x y : MemM Bool} (h : Stores x m r dstva src) (hy : y m = x m) :
    Stores y m r dstva src := by
  obtain ⟨copied, m', k, hrun, hrest⟩ := h
  exact ⟨copied, m', k, hy.trans hrun, hrest⟩

theorem stores_nil (m : Mem) (r dstva : Nat) : Stores (pure true) m r dstva [] :=
  ⟨true, m, 0, rfl, Nat.le_refl 0, Copied.refl m r dstva, fun _ => rfl,
    iff_of_true rfl fun i hi => absurd hi (Nat.not_lt_zero i)⟩

theorem stores_none (h : ¬ Covers (Writable m r) dstva src.length) :
    Stores (pure false) m r dstva src :=
  ⟨false, m, 0, rfl, Nat.zero_le _, Copied.refl m r dstva,
    (fun hfalse => absurd hfalse Bool.false_ne_true), iff_of_false Bool.false_ne_true h⟩

theorem Stores.page {x : MemM Bool} {n : Nat} (ht : UserTable m r) (hn : n ≤ src.length)
    (hfirst : Copied m m₁ r dstva (src.take n)) (hnext : n < src.length → va = dstva + n)
    (hcovers : Covers (Writable m r) dstva src.length ↔
      Covers (Writable m r) va (src.length - n))
    (hx : Stores x m₁ r va (src.drop n)) {y : MemM Bool} (hy : y m = x m₁) :
    Stores y m r dstva src := by
  obtain ⟨copied, m', k, hrun, hk, hrest, hall, hiff⟩ := hx
  have hdrop : (src.drop n).length = src.length - n := List.length_drop
  have hwritable : Writable m₁ r = Writable m r := by
    funext v
    exact propext (writable_agree hfirst.table)
  rw [hdrop] at hk hall hiff
  rw [hwritable] at hiff
  have htail : Copied m₁ m' r (dstva + n) ((src.drop n).take k) := by
    by_cases hmore : n < src.length
    · rw [← hnext hmore]
      exact hrest
    · have hnil : (src.drop n).take k = [] := by
        rw [List.drop_eq_nil_of_le (by omega), List.take_nil]
      rw [hnil] at hrest ⊢
      exact hrest.nil_at _
  refine ⟨copied, m', n + k, hy.trans hrun, by omega, ?_, ?_, hiff.trans hcovers.symm⟩
  · apply Copied.append (k := n) ht
    · rw [List.length_take]
      omega
    · rw [List.take_take, Nat.min_eq_left (Nat.le_add_right n k)]
      exact hfirst
    · rw [List.drop_take, Nat.add_sub_cancel_left]
      exact htail
  · intro htrue
    have hlast := hall htrue
    omega

theorem copyoutLoop_stores (ht : UserTable m r) (dstva : Nat) {src : List Nat} {fuel : Nat}
    (hfuel : src.length ≤ fuel) :
    Stores (copyoutLoop r fuel dstva src) m r dstva src := by
  induction fuel generalizing m dstva src with
  | zero =>
      rw [List.eq_nil_of_length_eq_zero (Nat.le_zero.mp hfuel)]
      exact (stores_nil m r dstva).congr (copyoutLoop_nil 0 dstva)
  | succ fuel ih =>
      by_cases hsrc : src = []
      · rw [hsrc]
        exact (stores_nil m r dstva).congr (copyoutLoop_nil (fuel + 1) dstva)
      have hcovers := covers_step (Writable m r) dstva (List.length_pos_iff.mpr hsrc)
      have hchunk := chunk_min dstva (mt List.eq_nil_of_length_eq_zero hsrc)
      obtain ⟨n, hn⟩ : ∃ n, n = min (pgSize - (dstva - pgRoundDown dstva)) src.length := ⟨_, rfl⟩
      have hstep := @copyoutLoop_step m r fuel dstva _ n src hsrc rfl hn
      rw [← hn] at hcovers hchunk
      split_ifs at hstep with hw
      case neg => exact (stores_none fun h => hw (hcovers.mp h).1).congr hstep
      case pos =>
          obtain ⟨hfit, hpos, hle, hnext⟩ := hchunk
          have hoff : dstva - pgRoundDown dstva = dstva % pgSize := by
            simp only [pgRoundDown, pgSize]
            omega
          have hlt : dstva < maxVa := by
            have hround := hw.1
            simp only [pgRoundDown, maxVa, pgSize] at hround ⊢
            omega
          rw [hoff] at hstep
          have hfirst := copied_page (src.take n) ht hlt hw.2
            (by rw [List.length_take_of_le hle]; exact hfit)
          have hrest := ih (ht.agree hfirst.table) (pgRoundDown dstva + pgSize)
            (show (src.drop n).length ≤ fuel by rw [List.length_drop]; omega)
          exact hrest.page ht hle hfirst (fun hmore => (hnext hmore).symm)
            (hcovers.trans (and_iff_right hw)) hstep

/-! ## Both together -/

theorem Copied.copyin (h : Copied m m' r dstva src)
    (hpages : Covers (UserPage m r) dstva src.length) :
    copyin r dstva src.length m' = .ok ((src.map (· % 256), true), m') := by
  obtain ⟨bytes, ok, hrun, hbytes, -, hall, hok⟩ :=
    copyinLoop_spec m' r dstva (Nat.le_refl src.length)
  have hcovers : Covers (UserPage m' r) dstva src.length := by
    intro i hi
    rw [userPage_agree h.table]
    exact hpages i hi
  have htrue := hok.mpr hcovers
  rw [hall htrue] at hbytes
  have hsrc : userBytes m' r dstva src.length = src.map (· % 256) := by
    apply List.ext_getElem
    · simp
    · intro i hi hi'
      rw [List.length_map] at hi'
      simp [userBytes, h.bytes i hi']
  rw [Xv6.copyin, hrun, hbytes, hsrc, htrue]

/-- `copyout` returns 0 exactly if it may write to every address, and has then changed the
bytes at these addresses and nothing else, so that `copyin` reads them back, unless one of
them is on the frame 0; if it does not, it has changed the first of them.  `copyin` changes
nothing. -/
theorem copyout_copyin (ht : UserTable m r) (dstva : Nat) (src : List Nat) :
    (∃ copied m', copyout64 r dstva src m = .ok (copied, m') ∧
      (copied = true ↔ Covers (Writable m r) dstva src.length) ∧
      (∃ k ≤ src.length, Copied m m' r dstva (src.take k)) ∧
      (copied = true → Copied m m' r dstva src ∧
        (∀ w < maxVa, Readable m r (w / pgSize) → w < dstva ∨ dstva + src.length ≤ w →
          userByte m' r w = userByte m r w) ∧
        (Covers (UserPage m r) dstva src.length →
          copyin r dstva src.length m' = .ok ((src.map (· % 256), true), m')))) ∧
    ∀ srcva len, ∃ bytes ok, copyin r srcva len m = .ok ((bytes, ok), m) ∧
      (ok = true ↔ Covers (UserPage m r) srcva len) ∧
      bytes.length ≤ len ∧ bytes = userBytes m r srcva bytes.length ∧
      (ok = true → bytes.length = len) := by
  constructor
  · obtain ⟨copied, m', k, hrun, hk, hcopied, hall, hiff⟩ :=
      copyoutLoop_stores ht dstva (Nat.le_refl src.length)
    rw [← copyoutLoop64_eq] at hrun
    refine ⟨copied, m', hrun, hiff, ⟨k, hk, hcopied⟩, ?_⟩
    intro htrue
    rw [hall htrue, List.take_length] at hcopied
    exact ⟨hcopied, fun w hw hr hout => hcopied.elsewhere ht hw hr hout, hcopied.copyin⟩
  · intro srcva len
    obtain ⟨bytes, ok, hrun, hbytes, hle, hall, hok⟩ :=
      copyinLoop_spec m r srcva (Nat.le_refl len)
    exact ⟨bytes, ok, hrun, hok, hle, hbytes, hall⟩

end

/-! ## The tables of processes -/

section

variable [Image] {X U : Multiset Nat} {m : Mem} {r n tf : Nat} {g : Nat → Nat}

theorem UserSpace.lt_of_readable (h : UserSpace X m r g n tf U) {v : Nat}
    (hv : v < maxVa / pgSize) (hr : Readable m r v) : v < n := by
  have hreach : v < 512 ^ 3 := hv.trans (by decide)
  rw [Readable, h.space.leaf v hreach] at hr
  exact h.map.user_page hreach hr.1 hr.2

theorem UserSpace.userPage (h : UserSpace X m r g n tf U) {v : Nat} (hv : v < maxVa / pgSize)
    (hr : Readable m r v) : UserPage m r v := by
  refine ⟨hr, ?_⟩
  rw [h.space.leaf v (hv.trans (by decide))]
  exact h.frame_ne_zero (h.lt_of_readable hv hr)

theorem UserSpace.userTable (h : UserSpace X m r g n tf U) : UserTable m r := by
  have hreach : ∀ v < maxVa / pgSize, v < 512 ^ 3 := fun v hv => hv.trans (by decide)
  constructor
  case distinct =>
      intro v w hv hw hrv hrw heq
      rw [h.space.leaf v (hreach v hv), h.space.leaf w (hreach w hw)] at heq
      exact h.frame_inj (h.lt_of_readable hv hrv) (h.lt_of_readable hw hrw) heq
  case apart =>
      intro v hv hr hmem
      rw [h.space.leaf v (hreach v hv)] at hmem
      have hheld := Multiset.mem_of_le (Multiset.le_add_right (framesOf g 0 n) U)
        (mem_framesOf_zero (h.lt_of_readable hv hr))
      exact Multiset.disjoint_left.mp h.space.tables_disjoint_held hmem hheld

end

section

attribute [local instance] builtImage

theorem copyout_copyin_first : ∃ (k : Kernel) (m' : Mem),
    copyout64 (k.proc 0).pagetable 4093 [1, 2, 3] k.mem = .ok (true, m') ∧
      copyin (k.proc 0).pagetable 4093 3 m' = .ok (([1, 2, 3], true), m') := by
  obtain ⟨_, k, hinit, hinv, hfirst⟩ := userinit_spec builtBoot
  have hspace := hinv.userSpace hfirst.live.1 (live_state hfirst.live).1
  obtain ⟨copied, m', hrun, -, -, hdone⟩ := (copyout_copyin hspace.userTable 4093 [1, 2, 3]).1
  have hcopied : (do
      let r ← userinit builtBoot.root builtBoot.kernel
      let x ← copyout64 (r.2.proc 0).pagetable 4093 [1, 2, 3] r.2.mem
      pure x.1) = Except.ok (ε := Panic) true := by
    decide +kernel
  rw [hinit] at hcopied
  simp only [bind, Except.bind, hrun, pure, Except.pure] at hcopied
  injection hcopied with htrue
  subst htrue
  obtain ⟨hstored, -, hback⟩ := hdone rfl
  refine ⟨k, m', hrun, hback ?_⟩
  intro i hi
  obtain ⟨hlt, hw⟩ := hstored.covers i hi
  exact ⟨hlt, hspace.userPage (page_lt_max hlt) hw.1⟩

/-- The only user page of a table is on the frame `pa`; eight bytes go out to it and do not
come back. -/
def NotCopiedBack (pa : Nat) : Prop :=
  ∃ m m', mappages 0x80026000 0 4096 pa 22 emptyTable = .ok (true, m) ∧
    (∀ v < maxVa / pgSize, Readable m 0x80026000 v → v = 0) ∧
    Covers (Writable m 0x80026000) 0 8 ∧
    copyout64 0x80026000 0 (List.replicate 8 0) m = .ok (true, m') ∧
    copyin 0x80026000 0 8 m' = .ok (([], false), m')

theorem notCopiedBack : ∀ pa ∈ [0, 0x80024000], NotCopiedBack pa := by
  intro pa hpa
  have heval : ∀ pa ∈ [0, 0x80024000], (do
      let x ← mappages 0x80026000 0 4096 pa 22 emptyTable
      let y ← copyout64 0x80026000 0 (List.replicate 8 0) x.2
      let z ← copyin 0x80026000 0 8 y.2
      pure (x.1, y.1, z.1)) = Except.ok (ε := Panic) (true, true, [], false) := by
    decide +kernel
  have hword : pa < 2 ^ 64 ∧ leafEntry (runAddr pa 0) 22 &&& pteV ≠ 0 ∧
      leafEntry (runAddr pa 0) 22 &&& pteU ≠ 0 ∧ leafEntry (runAddr pa 0) 22 &&& pteW ≠ 0 := by
    revert pa
    decide
  obtain ⟨⟨done, m⟩, hmap, hrest⟩ := except_bind_ok (heval pa hpa)
  obtain ⟨⟨out, m'⟩, hout, hrest⟩ := except_bind_ok hrest
  obtain ⟨⟨⟨bytes, ok⟩, m''⟩, hin, hall⟩ := except_bind_ok hrest
  cases hall
  obtain ⟨k, -, hdone, -, hspace⟩ := emptyTable_built.tree.mappages_ok emptyTable_supply
    (by decide) hword.1 hmap
  obtain rfl : k = 1 := hdone.1 rfl
  have hleaf : ∀ v < maxVa / pgSize, leafAt m 2 0x80026000 v =
      if v = 0 then leafEntry (runAddr pa 0) 22 else 0 := by
    intro v hv
    rw [hspace.leaf v (hv.trans (by decide)), mapped]
    by_cases hzero : v = 0
    · simp [hzero]
    · have hempty : leafAt emptyTable 2 0x80026000 v = 0 := leafAt_zero fun _ => rfl
      simp [hzero, hempty]
  refine ⟨m, m', hmap, ?_, ?_, hout, ?_⟩
  · intro v hv hr
    by_contra hne
    rw [Readable, hleaf v hv, if_neg hne] at hr
    exact hr.1 rfl
  · intro i hi
    have hpage : (0 + i) / pgSize = 0 := by
      simp only [pgSize]
      omega
    rw [hpage]
    refine ⟨?_, ?_⟩
    · simp only [maxVa]
      omega
    · rw [Writable, Readable, hleaf 0 (by decide), if_pos rfl]
      exact ⟨⟨hword.2.1, hword.2.2.1⟩, hword.2.2.2⟩
  · obtain ⟨bytes, ok, hin', -⟩ := copyinLoop_spec m' 0x80026000 0 (Nat.le_refl 8)
    have hsame : m'' = m' := congrArg Prod.snd (Except.ok.inj (hin.symm.trans hin'))
    rwa [hsame] at hin

/-- `walkaddr` returns the frame 0 as if there were none, and the other frame is the page of
the table that holds the entry itself. -/
theorem copyout_copyin_page_zero : NotCopiedBack 0 ∧ NotCopiedBack 0x80024000 :=
  ⟨notCopiedBack 0 (by decide), notCopiedBack 0x80024000 (by decide)⟩

end

end SyscallSched.Xv6
