import SyscallSched.Xv6.Alloc

/-!
# Resizing a process

What one `growproc` makes of the size and of the map, whatever its argument.
-/

namespace SyscallSched.Xv6

open SyscallSched.Foundation

variable [Image] {X U : Multiset Nat} {k k' : Kernel} {p : Nat} {n : Int} {m m' : Mem}
  {g g' : Nat → Nat} {r tf : Nat}

/-! ## The map of a process -/

theorem UserMap.bare_eq (h : UserMap g 0 tf) (h' : UserMap g' 0 tf) {v : Nat}
    (hv : v < 512 ^ 3) : g' v = g v := by
  by_cases htf : v = trapframePage
  · rw [htf, h.trapframe, h'.trapframe]
  · by_cases htr : v = trampolinePage
    · rw [htr, h.trampoline, h'.trampoline]
    · rw [h.none v hv (Nat.zero_le v) htf htr, h'.none v hv (Nat.zero_le v) htf htr]

theorem UserSpace.present_iff {v pages : Nat} (h : UserSpace X m r g pages tf U)
    (hv : v < 512 ^ 3) (htf : v ≠ trapframePage) (htr : v ≠ trampolinePage) :
    Present (leafAt m 2 r v) ↔ v < pages := by
  rw [h.space.leaf v hv]
  constructor
  case mp =>
      intro hp
      by_contra hpages
      rw [h.map.none v hv (by omega) htf htr] at hp
      exact not_present_zero hp
  case mpr => exact h.map.user v

/-! ## One resizing -/

structure Regrown (m m' : Mem) (g : Nat → Nat) (old : Nat) (g' : Nat → Nat) (new : Nat) :
    Prop where
  kept : ∀ v, v < old → v < new → g' v = g v
  pages : ∀ v, v < old → v < new → m'.page (pte2pa (g v)) = m.page (pte2pa (g v))
  fresh : ∀ v, old ≤ v → v < new → m'.page (pte2pa (g' v)) = fun _ => 0

omit [Image] in
theorem Regrown.refl (m : Mem) (g : Nat → Nat) (pages : Nat) :
    Regrown m m g pages g pages :=
  ⟨fun _ _ _ => rfl, fun _ _ _ => rfl, fun v hv hv' => absurd hv' (by omega)⟩

omit [Image] in
theorem Extended.regrown {old new xperm : Nat} (h : Extended m' g old g' new xperm)
    (hkept : Kept (framesOf g 0 old + U) m m') : Regrown m m' g old g' new :=
  ⟨fun v hv _ => h.kept v hv,
    fun _ hv _ => hkept _ (Multiset.mem_add.mpr (Or.inl (mem_framesOf_zero hv))),
    h.filled.page⟩

omit [Image] in
theorem Regrown.of_cleared {old new : Nat} (hle : new ≤ old)
    (hkept : Kept (framesOf g 0 new + U) m m') :
    Regrown m m' g old (cleared g new (old - new)) new := by
  constructor
  case kept =>
      intro v _ hv
      rw [cleared, if_neg (by omega)]
  case pages =>
      intro v _ hv
      exact hkept _ (Multiset.mem_add.mpr (Or.inl (mem_framesOf_zero hv)))
  case fresh => exact fun v hv hv' => absurd hv' (by omega)

def newSize (sz : Nat) (n : Int) : Nat := ((sz + n) % 2 ^ 64).toNat

/-- The size that `growproc(n)` aims at. -/
def aimedSize (sz : Nat) (n : Int) : Nat :=
  if 0 < n then max sz (newSize sz n) else if n < 0 then min sz (newSize sz n) else sz

structure GrowOutcome (X U : Multiset Nat) (k k' : Kernel) (p : Nat) (g : Nat → Nat)
    (sz : Nat) (g' : Nat → Nat) : Prop where
  edited : Edited k k' p { k.proc p with sz := sz } k'.mem
  within : Within X k.mem k'.mem
  space : UserSpace X k'.mem (k.proc p).pagetable g' (pageCount sz) (k.proc p).trapframe U
  regrown : Regrown k.mem k'.mem g (pageCount (k.proc p).sz) g' (pageCount sz)

theorem growproc_run
    (h : UserSpace X k.mem (k.proc p).pagetable g (pageCount (k.proc p).sz)
      (k.proc p).trapframe U) (n : Int) :
    Total (growproc p n) k fun res k' =>
      (res = -1 ∧ 0 < n ∧ GrowOutcome X U k k' p g (k.proc p).sz g) ∨
      (res = 0 ∧ ∃ g', GrowOutcome X U k k' p g (aimedSize (k.proc p).sz n) g') := by
  have hrefl := Edited.refl k p
  rw [growproc]
  apply hrefl.bind_getProc
  change Total (if 0 < n then _ else _) k _
  by_cases hpos : 0 < n
  · rw [if_pos hpos]
    apply hrefl.bind_inMem (uvmalloc_extended h (by decide))
    intro sz m₁ k₁ hm₁ h₁
    obtain ⟨hwithin, hkept, hresult⟩ := hm₁
    have hmem := h₁.mem
    subst hmem
    -- with nothing gained, the map is the first one
    have hsame : ∀ hspace : UserSpace X k₁.mem (k.proc p).pagetable g
        (pageCount (k.proc p).sz) (k.proc p).trapframe U,
        GrowOutcome X U k k₁ p g (k.proc p).sz g := by
      intro hspace
      refine ⟨h₁, hwithin, hspace, fun _ _ _ => rfl, fun v hv _ => ?_,
        fun v hv hv' => absurd hv' (by omega)⟩
      exact hkept _ (Multiset.mem_add.mpr (Or.inl (mem_framesOf_zero hv)))
    by_cases hzero : sz = 0
    · rw [if_pos hzero]
      apply Total.pure
      refine Or.inl ⟨rfl, hpos, hsame ?_⟩
      cases hresult with
      | inl hfail => exact hfail.2
      | inr hgrown =>
          obtain ⟨hmax, g', hg', -⟩ := hgrown
          have hsz : (k.proc p).sz = 0 := by omega
          rw [hzero] at hg'
          rw [hsz] at h ⊢
          exact hg'.congr fun v hv => (hg'.map.bare_eq h.map hv)
    · rw [if_neg hzero]
      cases hresult with
      | inl hfail => exact absurd hfail.1 hzero
      | inr hgrown =>
          obtain ⟨hmax, g', hg', hext⟩ := hgrown
          apply h₁.bind_setProc
          intro k₂ h₂
          have hmem := h₂.mem
          apply Total.pure
          have haim : aimedSize (k.proc p).sz n = sz := by
            rw [aimedSize, if_pos hpos]
            exact hmax.symm
          rw [← hmem] at hwithin hg' hext hkept h₂
          rw [haim]
          exact Or.inr ⟨rfl, g', h₂, hwithin, hg', hext.regrown hkept⟩
  · rw [if_neg hpos]
    by_cases hneg : n < 0
    · rw [if_pos hneg]
      apply hrefl.bind_inMem (uvmdealloc_spec h)
      intro sz m₁ k₁ hm₁ h₁
      obtain ⟨hwithin, hmin, hkept, hg'⟩ := hm₁
      apply h₁.bind_setProc
      intro k₂ h₂
      have hmem := h₂.mem
      apply Total.pure
      have haim : aimedSize (k.proc p).sz n = sz := by
        rw [aimedSize, if_neg hpos, if_pos hneg]
        exact hmin.symm
      have hle : pageCount sz ≤ pageCount (k.proc p).sz := pageCount_mono (by omega)
      rw [← hmem] at hwithin hg' hkept h₂
      rw [haim]
      exact Or.inr ⟨rfl, _, h₂, hwithin, hg', Regrown.of_cleared hle hkept⟩
    · rw [if_neg hneg]
      apply Total.pure
      have haim : aimedSize (k.proc p).sz n = (k.proc p).sz := by
        rw [aimedSize, if_neg hpos, if_neg hneg]
      rw [haim]
      exact Or.inr ⟨rfl, g, hrefl, Within.refl _ _, h, Regrown.refl _ _ _⟩

end SyscallSched.Xv6
