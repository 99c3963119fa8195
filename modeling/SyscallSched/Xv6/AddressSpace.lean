import SyscallSched.Xv6.Safety

/-!
# Address spaces over a whole run

`sz` counts bytes and the page table maps pages; `fork`, `exec`, `growproc`,
`exit` and `wait` update the two separately and each may give up half-way.
Between two calls the table of a process maps the pages below `sz`, rounded up,
its own trapframe and the trampoline, and no user page belongs to two of them.
-/

namespace SyscallSched.Xv6

open SyscallSched.Foundation

def validLeaf (m : Mem) (pagetable va : Nat) : Option Nat :=
  match walk pagetable va false m with
  | .ok (some a, _) =>
      if Present (m.page a.table a.index) ∧ Maps (m.page a.table a.index) then
        some (m.page a.table a.index)
      else
        none
  | _ => none

def Kernel.UserPage (k : Kernel) (p v : Nat) : Prop :=
  p < nproc ∧ (k.proc p).state ≠ .unused ∧ v * pgSize < pgRoundUp (k.proc p).sz

def Kernel.frameAt (k : Kernel) (p v : Nat) : Option Nat :=
  (validLeaf k.mem (k.proc p).pagetable (v * pgSize)).map pte2pa

structure AddressSpaces (k : Kernel) : Prop where
  leaf : ∀ p < nproc, (k.proc p).state ≠ .unused → ∀ v < maxVa / pgSize,
    ((validLeaf k.mem (k.proc p).pagetable (v * pgSize)).isSome ↔
      v * pgSize < pgRoundUp (k.proc p).sz ∨ v * pgSize = trapframeVa ∨
        v * pgSize = trampolineVa)
  trapframe : ∀ p < nproc, (k.proc p).state ≠ .unused →
    (validLeaf k.mem (k.proc p).pagetable trapframeVa).map pte2pa =
      some (k.proc p).trapframe
  distinct : ∀ p v q w, k.UserPage p v → k.UserPage q w →
    k.frameAt p v = k.frameAt q w → p = q ∧ v = w

/-! ## The entry that `walk` finds -/

section

variable {m : Mem} {pa v : Nat}

theorem page_in_reach (hv : v < maxVa / pgSize) : v * pgSize < maxVa :=
  calc v * pgSize < maxVa / pgSize * pgSize := Nat.mul_lt_mul_of_pos_right hv (by decide)
    _ ≤ maxVa := Nat.div_mul_le_self maxVa pgSize

theorem validLeaf_present (hv : v < maxVa / pgSize) (hs : Shaped m 2 pa)
    (hp : Present (leafAt m 2 pa v)) :
    validLeaf m pa (v * pgSize) = some (leafAt m 2 pa v) := by
  obtain ⟨a, hwalk, -, hentry⟩ := walk_present (page_in_reach hv) hp
  simp only [validLeaf, hwalk, hentry]
  exact if_pos ⟨hp, hs.leaf_maps hp⟩

theorem validLeaf_absent (hv : v < maxVa / pgSize) (hp : ¬ Present (leafAt m 2 pa v)) :
    validLeaf m pa (v * pgSize) = none := by
  have hdiv : v * pgSize / pgSize = v := Nat.mul_div_cancel v (by decide)
  rw [validLeaf, walk_lookup (page_in_reach hv), hdiv]
  cases hslot : slotAt m 2 pa v with
  | none => rfl
  | some a =>
      rw [leafAt_of_slot hslot] at hp
      exact if_neg fun h => hp h.1

end

section

variable [Image] {pool : Multiset Nat} {k : Kernel} {p q v w : Nat}

/-! ## One process -/

theorem Inv.user_iff (h : Inv pool k) (hp : p < nproc) (hs : (k.proc p).state ≠ .unused) :
    v * pgSize < pgRoundUp (k.proc p).sz ↔ v < pageCount (k.proc p).sz := by
  have hpages := (h.userSpace hp hs).pages_le
  rw [pgRoundUp_eq (hpages.trans (by decide))]
  exact Nat.mul_lt_mul_right (by decide)

theorem Inv.present_iff (h : Inv pool k) (hp : p < nproc) (hs : (k.proc p).state ≠ .unused)
    (hv : v < maxVa / pgSize) : Present (leafAt k.mem 2 (k.proc p).pagetable v) ↔
      v < pageCount (k.proc p).sz ∨ v = trapframePage ∨ v = trampolinePage := by
  have hmap := (h.slot p hp).map hs
  have hreach : v < 512 ^ 3 := hv.trans (by decide)
  constructor
  case mp =>
      intro hpresent
      by_contra hnone
      rw [not_or, not_or, Nat.not_lt] at hnone
      rw [hmap.none v hreach hnone.1 hnone.2.1 hnone.2.2] at hpresent
      exact not_present_zero hpresent
  case mpr =>
      rintro (huser | rfl | rfl)
      · exact hmap.user v huser
      · rw [hmap.trapframe]
        exact present_leafEntry
      · rw [hmap.trampoline]
        exact present_leafEntry

theorem Inv.leaf_iff (h : Inv pool k) (hp : p < nproc) (hs : (k.proc p).state ≠ .unused)
    (hv : v < maxVa / pgSize) :
    (validLeaf k.mem (k.proc p).pagetable (v * pgSize)).isSome ↔
      v * pgSize < pgRoundUp (k.proc p).sz ∨ v * pgSize = trapframeVa ∨
        v * pgSize = trampolineVa := by
  have hsize : 0 < pgSize := by decide
  rw [h.user_iff hp hs, trapframeVa_eq, trampolineVa_eq, Nat.mul_left_inj hsize.ne',
    Nat.mul_left_inj hsize.ne', ← h.present_iff hp hs hv]
  by_cases hpresent : Present (leafAt k.mem 2 (k.proc p).pagetable v)
  · rw [validLeaf_present hv ((h.slot p hp).shaped hs) hpresent]
    exact iff_of_true rfl hpresent
  · rw [validLeaf_absent hv hpresent]
    exact iff_of_false Bool.false_ne_true hpresent

theorem Inv.trapframe_leaf (h : Inv pool k) (hp : p < nproc)
    (hs : (k.proc p).state ≠ .unused) :
    (validLeaf k.mem (k.proc p).pagetable trapframeVa).map pte2pa =
      some (k.proc p).trapframe := by
  have hspace := h.userSpace hp hs
  have hentry := ((h.slot p hp).map hs).trapframe
  have htf : Frame (k.proc p).trapframe := by
    apply hspace.space.valid
    apply Multiset.mem_of_le hspace.space.held_le
    exact Multiset.mem_add.mpr (Or.inr (Multiset.mem_singleton_self _))
  have hpresent : Present (leafAt k.mem 2 (k.proc p).pagetable trapframePage) := by
    rw [hentry]
    exact present_leafEntry
  rw [trapframeVa_eq, validLeaf_present (by decide) ((h.slot p hp).shaped hs) hpresent,
    hentry, Option.map_some, pte2pa_leafEntry htf (by decide)]

/-! ## Two processes -/

theorem Inv.frameAt_user (h : Inv pool k) (huser : k.UserPage p v) :
    v < pageCount (k.proc p).sz ∧
      k.frameAt p v = some (pte2pa (leafAt k.mem 2 (k.proc p).pagetable v)) := by
  obtain ⟨hp, hs, hbelow⟩ := huser
  have hlt := (h.user_iff hp hs).mp hbelow
  have hpages := (h.userSpace hp hs).pages_le
  have hv : v < maxVa / pgSize := (hlt.trans_le hpages).trans (by decide)
  refine ⟨hlt, ?_⟩
  have hpresent := (h.present_iff hp hs hv).mpr (Or.inl hlt)
  rw [Kernel.frameAt, validLeaf_present hv ((h.slot p hp).shaped hs) hpresent, Option.map_some]

omit [Image] in
theorem user_mem_frames {m : Mem} {r : Proc} (hs : r.state ≠ .unused)
    (hv : v < pageCount r.sz) : pte2pa (leafAt m 2 r.pagetable v) ∈ r.frames m := by
  have hmem := mem_framesOf (g := leafAt m 2 r.pagetable) (v := 0) hv
  rw [Nat.zero_add] at hmem
  rw [Proc.frames_live hs]
  exact Multiset.mem_add.mpr (Or.inr (Multiset.mem_add.mpr (Or.inl hmem)))

omit [Image] in
theorem framesOf_injective {g : Nat → Nat} {n : Nat} (hnd : (framesOf g 0 n).Nodup)
    (hv : v < n) (hw : w < n) (heq : pte2pa (g v) = pte2pa (g w)) : v = w := by
  induction n with
  | zero => exact absurd hv (Nat.not_lt_zero v)
  | succ n ih =>
      rw [framesOf_succ, Nat.zero_add, Multiset.nodup_cons] at hnd
      have hlast : ∀ i < n, pte2pa (g i) ≠ pte2pa (g n) := by
        intro i hi hsame
        have hmem := mem_framesOf (g := g) (v := 0) hi
        rw [Nat.zero_add, hsame] at hmem
        exact hnd.1 hmem
      cases Nat.lt_succ_iff_lt_or_eq.mp hv with
      | inl hvn =>
          cases Nat.lt_succ_iff_lt_or_eq.mp hw with
          | inl hwn => exact ih hnd.2 hvn hwn
          | inr hwn =>
              rw [hwn] at heq
              exact absurd heq (hlast v hvn)
      | inr hvn =>
          cases Nat.lt_succ_iff_lt_or_eq.mp hw with
          | inl hwn =>
              rw [hvn] at heq
              exact absurd heq.symm (hlast w hwn)
          | inr hwn => rw [hvn, hwn]

theorem Inv.frameAt_injective (h : Inv pool k) (hpv : k.UserPage p v)
    (hqw : k.UserPage q w) (heq : k.frameAt p v = k.frameAt q w) : p = q ∧ v = w := by
  obtain ⟨hv, hpa⟩ := h.frameAt_user hpv
  obtain ⟨hw, hqa⟩ := h.frameAt_user hqw
  obtain ⟨hp, hps, -⟩ := hpv
  obtain ⟨hq, hqs, -⟩ := hqw
  rw [hpa, hqa] at heq
  injection heq with hsame
  by_cases hpq : q = p
  · subst hpq
    refine ⟨rfl, framesOf_injective ?_ hv hw hsame⟩
    apply Multiset.nodup_of_le ?_ h.nodup
    have hspace := (h.userSpace hq hqs).space
    exact ((Multiset.le_add_right _ _).trans hspace.held_le).trans (h.share_le hq)
  · have hmem := user_mem_frames (m := k.mem) hps hv
    rw [hsame] at hmem
    have hother := Multiset.disjoint_left.mp (h.shares_disjoint hp hq hpq)
      (user_mem_frames hqs hw)
    exact absurd (Multiset.mem_add.mpr (Or.inr hmem)) hother

/-! ## Whole runs -/

theorem Inv.addressSpaces (h : Inv pool k) : AddressSpaces k := by
  constructor
  case leaf => exact fun p hp hs v hv => h.leaf_iff hp hs hv
  case trapframe => exact fun p hp hs => h.trapframe_leaf hp hs
  case distinct => exact fun p v q w hpv hqw heq => h.frameAt_injective hpv hqw heq

omit [Image] in
theorem neverShares_of_no_sfork {run : List (Nat × Call) → Except Panic Kernel}
    {calls : List (Nat × Call)} (h : ∀ s ∈ calls, s.2 ≠ .sfork) :
    NeverShares run calls := by
  intro before s rest hcalls k' _ hshares
  apply h s ?_ hshares.2.1
  rw [hcalls]
  exact List.mem_append_right before List.mem_cons_self

/-- Without `sfork` every state between two calls has the address spaces of its
processes in order, and no call panics but the `exit` of `init`. -/
theorem Boot.run_addressSpaces (b : Boot) (calls : List (Nat × Call))
    (h : ∀ s ∈ calls, s.2 ≠ .sfork) :
    (∀ before rest, calls = before ++ rest → ∀ k, b.run before = .ok k → AddressSpaces k) ∧
      ((∃ k, b.run calls = .ok k) ∨ b.run calls = .error .initExiting) := by
  obtain ⟨k₀, hrun, hinv, -⟩ := b.run_eq
  have hnever : NeverShares (runFrom k₀) calls := neverShares_of_no_sfork h
  rw [hrun]
  constructor
  case left =>
      intro before rest hcalls k hbefore
      rw [hcalls] at hnever
      cases runFrom_inv hinv hnever.initial with
      | inl hok =>
          obtain ⟨k', hk', hinv'⟩ := hok
          rw [hbefore] at hk'
          injection hk' with hk
          rw [hk]
          exact hinv'.addressSpaces
      | inr herror =>
          rw [hbefore] at herror
          cases herror
  case right =>
      cases runFrom_inv hinv hnever with
      | inl hok => exact Or.inl (hok.imp fun _ hk => hk.1)
      | inr herror => exact Or.inr herror

end

attribute [local instance] builtImage in
theorem run_addressSpaces_grow_fork_exit :
    (∀ before rest, [(0, Call.growproc 5000), (0, .fork), (1, .exit 3), (0, .wait 0)] =
        before ++ rest → ∀ k, builtBoot.run before = .ok k → AddressSpaces k) ∧
      ((∃ k, builtBoot.run [(0, .growproc 5000), (0, .fork), (1, .exit 3), (0, .wait 0)] =
          .ok k) ∨
        builtBoot.run [(0, .growproc 5000), (0, .fork), (1, .exit 3), (0, .wait 0)] =
          .error .initExiting) := by
  apply builtBoot.run_addressSpaces
  intro s hs hsfork
  simp only [List.mem_cons, List.not_mem_nil, or_false] at hs
  rcases hs with rfl | rfl | rfl | rfl
  all_goals cases hsfork

end SyscallSched.Xv6
