import SyscallSched.Xv6.Boot

/-!
# What `growproc` reports

`growproc` changes the size of a process and its map together, or leaves both alone.
The one exception is a request to shrink by more than the size: the new size wraps
around 64 bits, nothing changes, and the result is still 0.
-/

namespace SyscallSched.Xv6

open SyscallSched.Foundation

section

variable [Image] {X U : Multiset Nat} {k k' : Kernel} {p : Nat} {n : Int} {m : Mem}
  {g g' : Nat → Nat} {r tf : Nat}

structure Resized (k k' : Kernel) (p : Nat) (n : Int) : Prop where
  sz : ((k'.proc p).sz : Int) = (k.proc p).sz + n
  mapped : ∀ v < 512 ^ 3, v ≠ trapframePage → v ≠ trampolinePage →
    (Present (leafAt k'.mem 2 (k.proc p).pagetable v) ↔
      v * pgSize < pgRoundUp (k'.proc p).sz)
  fixed : ∀ v, v = trapframePage ∨ v = trampolinePage →
    leafAt k'.mem 2 (k.proc p).pagetable v = leafAt k.mem 2 (k.proc p).pagetable v
  kept : ∀ v, v * pgSize < pgRoundUp (k.proc p).sz → v * pgSize < pgRoundUp (k'.proc p).sz →
    leafAt k'.mem 2 (k.proc p).pagetable v = leafAt k.mem 2 (k.proc p).pagetable v ∧
      userPage k'.mem (k.proc p).pagetable v = userPage k.mem (k.proc p).pagetable v
  fresh : ∀ v, pgRoundUp (k.proc p).sz ≤ v * pgSize → v * pgSize < pgRoundUp (k'.proc p).sz →
    userPage k'.mem (k.proc p).pagetable v = fun _ => 0

/-- The process `p` has what it had before; of the free pages only page-table pages
may be gone. -/
structure NotResized (k k' : Kernel) (p : Nat) : Prop where
  sz : (k'.proc p).sz = (k.proc p).sz
  leaf : ∀ v < 512 ^ 3,
    leafAt k'.mem 2 (k.proc p).pagetable v = leafAt k.mem 2 (k.proc p).pagetable v
  pages : ∀ v, v * pgSize < pgRoundUp (k.proc p).sz →
    userPage k'.mem (k.proc p).pagetable v = userPage k.mem (k.proc p).pagetable v
  back : ↑k'.mem.freelist + tables k'.mem 2 (k.proc p).pagetable =
    ↑k.mem.freelist + tables k.mem 2 (k.proc p).pagetable

/-- The result of `growproc(n)` is what it did. -/
def GrowReported (k : Kernel) (p : Nat) (n res : Int) (k' : Kernel) : Prop :=
  (res = 0 ∧ Resized k k' p n) ∨ (res = -1 ∧ NotResized k k' p)

abbrev Kernel.Sized (k : Kernel) (X U : Multiset Nat) (p : Nat) : Prop :=
  UserSpace X k.mem (k.proc p).pagetable (leafAt k.mem 2 (k.proc p).pagetable)
    (pageCount (k.proc p).sz) (k.proc p).trapframe U

omit [Image] in
theorem below_iff {v sz : Nat} (hn : pageCount sz ≤ 2 ^ 26) :
    v * pgSize < pgRoundUp sz ↔ v < pageCount sz := by
  rw [pgRoundUp_eq hn]
  exact Nat.mul_lt_mul_right (by decide)

omit [Image] in
theorem aimedSize_eq {sz : Nat} (hsz : sz < 2 ^ 32) (hlow : 0 ≤ sz + n) (hhigh : n < 2 ^ 31) :
    (aimedSize sz n : Int) = sz + n := by
  have hnew : (newSize sz n : Int) = sz + n := by
    rw [newSize]
    omega
  rw [aimedSize]
  split
  · omega
  · split
    · omega
    · omega

omit [Image] in
/-- A shrink by more than the size wraps around. -/
theorem aimedSize_wrapped {sz : Nat} (hsz : sz < 2 ^ 32) (hlow : -2 ^ 31 ≤ n)
    (hneg : sz + n < 0) : aimedSize sz n = sz := by
  have hnew : sz ≤ newSize sz n := by
    rw [newSize]
    omega
  rw [aimedSize, if_neg (by omega), if_pos (by omega)]
  exact Nat.min_eq_left hnew

theorem sized_lt {sz pages : Nat} (h : UserSpace X m r g pages tf U)
    (hpages : pages = pageCount sz) : sz < 2 ^ 32 := by
  have hn := h.pages_le
  simp only [hpages, pageCount, pgSize] at hn
  omega

variable {sz : Nat}

theorem GrowOutcome.resized (h : k.Sized X U p)
    (hout : GrowOutcome X U k k' p (leafAt k.mem 2 (k.proc p).pagetable) sz g')
    (hsz : (sz : Int) = (k.proc p).sz + n) : Resized k k' p n := by
  have hself : (k'.proc p).sz = sz := by rw [hout.edited.self]
  have hold := h.pages_le
  have hnew := hout.space.pages_le
  have hleaf := hout.space.space.leaf
  constructor
  case sz => rw [hself, hsz]
  case mapped =>
      intro v hv htf htr
      rw [hself, below_iff (by omega)]
      exact hout.space.present_iff hv htf htr
  case fixed =>
      intro v hv
      cases hv with
      | inl htf =>
          rw [htf, hleaf _ (by decide), hout.space.map.trapframe, h.map.trapframe]
      | inr htr =>
          rw [htr, hleaf _ (by decide), hout.space.map.trampoline, h.map.trampoline]
  case kept =>
      intro v hv hv'
      rw [hself, below_iff (by omega)] at hv'
      rw [below_iff (by omega)] at hv
      have hsame : leafAt k'.mem 2 (k.proc p).pagetable v =
          leafAt k.mem 2 (k.proc p).pagetable v := by
        rw [hleaf v (by omega), hout.regrown.kept v hv hv']
      refine ⟨hsame, ?_⟩
      rw [userPage, hsame]
      exact hout.regrown.pages v hv hv'
  case fresh =>
      intro v hv hv'
      rw [hself, below_iff (by omega)] at hv'
      rw [← Nat.not_lt, below_iff (by omega), Nat.not_lt] at hv
      rw [userPage, hleaf v (by omega)]
      exact hout.regrown.fresh v hv hv'

theorem GrowOutcome.notResized (h : k.Sized X U p)
    (hout : GrowOutcome X U k k' p (leafAt k.mem 2 (k.proc p).pagetable) (k.proc p).sz
      (leafAt k.mem 2 (k.proc p).pagetable)) : NotResized k k' p := by
  have hn := h.pages_le
  have hleaf := hout.space.space.leaf
  constructor
  case sz => rw [hout.edited.self]
  case leaf => exact hleaf
  case pages =>
      intro v hv
      rw [below_iff (by omega)] at hv
      rw [userPage, hleaf v (by omega)]
      exact hout.regrown.pages v hv hv
  case back =>
      have hframes := hout.space.space.frames
      rw [← h.space.frames] at hframes
      exact add_right_cancel hframes

/-- A shrink by more than the size is reported as done. -/
theorem growproc_wrapped (h : k.Sized X U p) (hlow : -2 ^ 31 ≤ n)
    (hneg : (k.proc p).sz + n < 0) :
    Total (growproc p n) k fun res k' => res = 0 ∧ (k'.proc p).sz = (k.proc p).sz := by
  apply (growproc_run h n).mono
  intro res k' hout
  cases hout with
  | inl hfail => exact absurd hfail.2.1 (by omega)
  | inr hdone =>
      obtain ⟨hres, g', hdone⟩ := hdone
      refine ⟨hres, ?_⟩
      rw [hdone.edited.self]
      exact aimedSize_wrapped (sized_lt h rfl) hlow hneg

omit [Image] in
theorem not_reported {res : Int} (hneg : (k.proc p).sz + n < 0)
    (hout : res = 0 ∧ (k'.proc p).sz = (k.proc p).sz) : ¬ GrowReported k p n res k' := by
  intro hreport
  obtain ⟨rfl, hsame⟩ := hout
  cases hreport with
  | inl hresized =>
      have hmoved := hresized.2.sz
      omega
  | inr hrefused => exact absurd hrefused.1 (by decide)

/-- Exactly a shrink by more than the size is misreported. -/
theorem growproc_reported_iff (h : k.Sized X U p) (hn : -2 ^ 31 ≤ n ∧ n < 2 ^ 31) :
    Total (growproc p n) k (GrowReported k p n) ↔ 0 ≤ (k.proc p).sz + n := by
  constructor
  case mp =>
      intro hreported
      by_contra hneg
      have hneg' : (k.proc p).sz + n < 0 := by omega
      obtain ⟨_, k', -, hreport, hout⟩ := hreported.and (growproc_wrapped h hn.1 hneg')
      exact not_reported hneg' hout hreport
  case mpr =>
      intro hlow
      apply (growproc_run h n).mono
      intro res k' hout
      cases hout with
      | inl hfail => exact Or.inr ⟨hfail.1, hfail.2.2.notResized h⟩
      | inr hdone =>
          obtain ⟨hres, g', hdone⟩ := hdone
          exact Or.inl ⟨hres, hdone.resized h (aimedSize_eq (sized_lt h rfl) hlow hn.2)⟩

end

attribute [local instance] builtImage in
theorem first_sized : ∃ (k : Kernel) (X U : Multiset Nat), k.Sized X U 0 ∧
    (k.proc 0).sz = 4096 := by
  obtain ⟨_, k, hinit, hinv, hfirst⟩ := userinit_spec builtBoot
  refine ⟨k, _, _, hinv.userSpace hfirst.live.1 (live_state hfirst.live).1, ?_⟩
  have hsize : (do
      let r ← userinit builtBoot.root builtBoot.kernel
      pure (r.2.proc 0).sz) = Except.ok (ε := Panic) 4096 := by
    decide +kernel
  rw [hinit] at hsize
  injection hsize

attribute [local instance] builtImage in
theorem growproc_reported_grow : ∃ k : Kernel, (k.proc 0).sz = 4096 ∧
    Total (growproc 0 8192) k (GrowReported k 0 8192) := by
  obtain ⟨k, X, U, hk, hsz⟩ := first_sized
  refine ⟨k, hsz, (growproc_reported_iff hk (by decide)).mpr ?_⟩
  rw [hsz]
  decide

attribute [local instance] builtImage in
/-- `sbrk(-8192)` of the first process returns as if it had been done. -/
theorem growproc_not_reported : ∃ (k : Kernel) (X U : Multiset Nat), k.Sized X U 0 ∧
    (k.proc 0).sz = 4096 ∧ ∃ k', growproc 0 (-8192) k = .ok (0, k') ∧ (k'.proc 0).sz = 4096 ∧
      ¬ GrowReported k 0 (-8192) 0 k' := by
  obtain ⟨k, X, U, hk, hsz⟩ := first_sized
  have hneg : ((k.proc 0).sz : Int) + -8192 < 0 := by
    rw [hsz]
    decide
  obtain ⟨_, k', hrun, rfl, hsame⟩ := growproc_wrapped hk (by decide) hneg
  refine ⟨k, X, U, hk, hsz, k', hrun, hsame.trans hsz, ?_⟩
  exact not_reported hneg ⟨rfl, hsame⟩

end SyscallSched.Xv6

/-!
## `sbrk` (`sysproc.c`)

The parameter is an `int`, so that of a larger number only the low 32 bits count, as a
number with a sign.  What the process gets to see is its size before the call, or -1.
-/

namespace SyscallSched.Xv6

open SyscallSched.Foundation

def asInt (n : Nat) : Int :=
  if n % 4294967296 < 2147483648 then n % 4294967296 else n % 4294967296 - 4294967296

theorem asInt_small {n : Nat} (h : n < 2147483648) : asInt n = n := by
  rw [asInt, if_pos (by omega)]
  omega

theorem asInt_large {n : Nat} (h : 2147483648 ≤ n) (h' : n < 6442450944) :
    asInt n = n - 4294967296 := by
  rw [asInt]
  split
  · omega
  · omega

variable [Image] {X U : Multiset Nat} {k : Kernel} {p : Nat} {g : Nat → Nat}

/-- `sys_sbrk` after `argint(0, &n)` -/
def sysSbrk (p : Nat) (n : Int) : KernelM Int := do
  let q ← getProc p
  let addr := q.sz
  let res ← growproc p n
  if res < 0 then
    pure (-1)
  else
    pure addr

theorem sysSbrk_run
    (h : UserSpace X k.mem (k.proc p).pagetable g (pageCount (k.proc p).sz)
      (k.proc p).trapframe U) (n : Int) :
    Total (sysSbrk p n) k fun res k' =>
      (res = -1 ∧ 0 < n ∧ GrowOutcome X U k k' p g (k.proc p).sz g) ∨
      (res = (k.proc p).sz ∧ ∃ g', GrowOutcome X U k k' p g (aimedSize (k.proc p).sz n) g') := by
  rw [sysSbrk]
  apply (Edited.refl k p).bind_getProc
  apply Total.bind (growproc_run h n)
  intro res k' hres
  cases hres with
  | inl hfail =>
      rw [if_pos (by rw [hfail.1]; decide)]
      exact Total.pure (.inl ⟨rfl, hfail.2⟩)
  | inr hdone =>
      rw [if_neg (by rw [hdone.1]; decide)]
      exact Total.pure (.inr ⟨rfl, hdone.2⟩)

end SyscallSched.Xv6
