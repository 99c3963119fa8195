import SyscallSched.Foundation.Digits
import SyscallSched.Xv6.Grow

/-!
# Copying an address space

`uvmcopy` reads a table that lies outside the pool it allocates from.
-/

namespace SyscallSched.Xv6

open SyscallSched.Foundation

variable [Image] {X U : Multiset Nat} {m₀ m : Mem} {old new tf : Nat}
  {g₀ g : Nat → Nat}

/-- A table outside of the pool `X` whose first `n` pages are mapped. -/
structure Source (X : Multiset Nat) (m : Mem) (r n : Nat) : Prop where
  disjoint : Disjoint (tables m 2 r) X
  shaped : Shaped m 2 r
  present : ∀ v < n, Present (leafAt m 2 r v)
  pages_le : n ≤ 32768

omit [Image] in
theorem maps_pteFlags {e : Nat} (h : Maps e) : Maps (pteFlags e) := by
  rw [Maps, pteFlags_and (by decide)]
  exact h

theorem Growing.unmap_all {j : Nat} (h : Growing X m new g₀ 0 g j tf U) :
    Total (uvmunmap new 0 (j * pgSize / pgSize) true) m fun _ m' =>
      Within X m m' ∧ UserSpace X m' new g₀ 0 tf U := by
  have hunmap := h.now.unmap_from (Nat.zero_le j)
  rw [Nat.zero_mul, Nat.sub_zero] at hunmap
  rw [va_page]
  apply hunmap.mono
  intro _ m' hm'
  exact ⟨hm'.1, h.restored hm'.2.2⟩

def userPage (m : Mem) (r v : Nat) : Nat → Nat := m.page (pte2pa (leafAt m 2 r v))

/-- The byte at the offset `o` of the page `pa`. -/
def pageByte (m : Mem) (pa o : Nat) : Nat := digit 256 (m.page pa (o / 8)) (o % 8)

def mapByte (m : Mem) (g : Nat → Nat) (va : Nat) : Nat :=
  pageByte m (pte2pa (g (va / pgSize))) (va % pgSize)

def userByte (m : Mem) (r va : Nat) : Nat := mapByte m (leafAt m 2 r) va

/-- `PTE_FLAGS` at the address `va` of the table at `r`. -/
def userPerm (m : Mem) (r va : Nat) : Nat := pteFlags (leafAt m 2 r (va / pgSize))

/-- The first `n` pages of the table `old` in `m₀`, with their flags. -/
abbrev CopiedTo (m₀ : Mem) (old n : Nat) (m' : Mem) (g' : Nat → Nat) : Prop :=
  Filled m' g' 0 n (userPage m₀ old) fun v => pteFlags (leafAt m₀ 2 old v)

theorem copyLoop_spec {n j k : Nat} (hsource : Source X m₀ old n)
    (hapart : Disjoint (framesOf (leafAt m₀ 2 old) 0 n) X)
    (h : Growing X m new g₀ 0 g j tf U) (hcopied : CopiedTo m₀ old j m g)
    (hwithin : Within X m₀ m) (hk : j + k = n) :
    Total (copyLoop old new k (j * pgSize)) m fun copied m' => Within X m m' ∧
      if copied then ∃ g', UserSpace X m' new g' n tf U ∧ CopiedTo m₀ old n m' g'
      else UserSpace X m' new g₀ 0 tf U := by
  induction k generalizing m g j with
  | zero =>
      rw [← hk]
      exact Total.pure ⟨Within.refl X m, g, h.now, hcopied⟩
  | succ k ih =>
      have hn := hsource.pages_le
      have hagree := hwithin.agree hsource.disjoint
      have hleaf : leafAt m 2 old j = leafAt m₀ 2 old j := hagree.leafAt_eq
      have hpresent₀ := hsource.present j (by omega)
      have hpresent : Present (leafAt m 2 old j) := hleaf.symm ▸ hpresent₀
      have hmaps := (hagree.shaped hsource.shaped).leaf_maps hpresent
      obtain ⟨a, hwalk, -, hentry⟩ := walk_present (page_va_lt (by omega)) hpresent
      rw [copyLoop]
      apply Total.bind_eq hwalk
      apply Total.bind_eq loadPte_run
      rw [hentry, if_neg hpresent]
      apply Total.bind (h.now.space.kalloc_spec.and h.now.space.kalloc_kept)
      intro result m₁ hm₁
      obtain ⟨⟨hwithin₁, hresult⟩, hkept₁⟩ := hm₁
      cases result with
      | none =>
          have hsame : m₁ = m := hresult
          rw [hsame]
          apply Total.bind h.unmap_all
          intro _ m' hm'
          exact Total.pure hm'
      | some q =>
          have hspace₁ : Space X m₁ new g (q ::ₘ (framesOf g 0 j + U)) := hresult
          have hq : Frame q :=
            hspace₁.valid q (Multiset.mem_of_le hspace₁.held_le (Multiset.mem_cons_self _ _))
          have hperm := pteFlags_lt (leafAt m 2 old j)
          apply Total.bind_eq (a := ()) (t := m₁.setPage q
            (m₁.page (pte2pa (leafAt m 2 old j)))) rfl
          apply Total.bind (h.fill_next hspace₁ _ hperm (maps_pteFlags hmaps))
          intro mapped m₃ hm₃
          obtain ⟨hwithin₃, hkept₃, hresult₃⟩ := hm₃
          have hwithin' := hwithin₁.trans hwithin₃
          cases mapped with
          | true =>
              -- the source lies outside of the pool, so it is still as in `m₀`
              have hout : pte2pa (leafAt m₀ 2 old j) ∉ X :=
                Multiset.disjoint_left.mp hapart (mem_framesOf_zero (by omega))
              have hpage : m₃.page q = userPage m₀ old j := by
                rw [hresult₃.2, hleaf, hwithin₁.page _ hout, hwithin.page _ hout]
                rfl
              have hcopied' := hcopied.push ((hkept₁.trans hkept₃).mono
                (Multiset.le_add_right _ U)) hq hperm hpage
                (hleaf ▸ pteFlags_copied hpresent)
              rw [if_pos rfl, ← Nat.succ_mul]
              apply (ih hresult₃.1 hcopied' (hwithin.trans hwithin') (by omega)).mono
              intro copied m' hm'
              exact ⟨hwithin'.trans hm'.1, hm'.2⟩
          | false =>
              have hspace₃ : Space X m₃ new g (q ::ₘ (framesOf g 0 j + U)) := hresult₃
              rw [if_neg Bool.false_ne_true]
              apply Total.bind hspace₃.kfree_spec
              intro _ m₄ hm₄
              apply Total.bind (h.of_space hm₄.1).unmap_all
              intro _ m' hm'
              exact Total.pure ⟨(hwithin'.trans hm₄.2.1).trans hm'.1, hm'.2⟩

theorem uvmcopy_spec {sz : Nat} (hsource : Source X m old (pageCount sz))
    (hapart : Disjoint (framesOf (leafAt m 2 old) 0 (pageCount sz)) X)
    (h : UserSpace X m new g 0 tf U) :
    Total (uvmcopy old new sz) m fun copied m' => Within X m m' ∧
      if copied then ∃ g', UserSpace X m' new g' (pageCount sz) tf U ∧
        CopiedTo m old (pageCount sz) m' g'
      else UserSpace X m' new g 0 tf U := by
  have hsteps : pageSteps 0 sz = pageCount sz := pageSteps_count 0 sz
  rw [uvmcopy, hsteps]
  have hloop := copyLoop_spec hsource hapart h.growing Filled.none (Within.refl X m)
    (Nat.zero_add _)
  rw [Nat.zero_mul] at hloop
  exact hloop

end SyscallSched.Xv6
