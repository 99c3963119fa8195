import SyscallSched.Xv6.ExecStack

/-!
# `exec` builds an image or gives everything back

Whatever bytes a file holds, `exec` takes pages only from the free list, never
reaches a panic of the functions it calls, and on failure returns all it took.
-/

namespace SyscallSched.Xv6

open SyscallSched.Foundation

/-! ## Fields of a header -/

theorem foldr_bytes_lt (bytes : List Nat) :
    bytes.foldr (fun b acc => b % 256 + 256 * acc) 0 < 256 ^ bytes.length := by
  induction bytes with
  | nil => decide
  | cons b bytes ih =>
      have hb : b % 256 < 256 := Nat.mod_lt b (by decide)
      rw [List.foldr_cons, List.length_cons, Nat.pow_succ]
      omega

theorem field_lt (bytes : List Nat) (off len : Nat) : field bytes off len < 256 ^ len := by
  have hlen : ((bytes.drop off).take len).length ≤ len := by
    rw [List.length_take]
    exact Nat.min_le_left _ _
  exact (foldr_bytes_lt _).trans_le (Nat.pow_le_pow_right (by decide) hlen)

theorem no_wrap {a b : Nat} (hb : b < 2 ^ 64) (h : ¬ (a + b) % 2 ^ 64 < a) :
    (a + b) % 2 ^ 64 = a + b := by
  omega

theorem flags2perm_lt (flags : Nat) : flags2perm flags < 1024 := by
  have hx : (if flags &&& 1 ≠ 0 then pteX else 0) < 2 ^ 10 := by
    by_cases h : flags &&& 1 ≠ 0
    · rw [if_pos h]
      decide
    · rw [if_neg h]
      decide
  have hw : (if flags &&& 2 ≠ 0 then pteW else 0) < 2 ^ 10 := by
    by_cases h : flags &&& 2 ≠ 0
    · rw [if_pos h]
      decide
    · rw [if_neg h]
      decide
  exact Nat.or_lt_two_pow hx hw

variable [Image] {X U : Multiset Nat} {m : Mem} {r n tf : Nat} {g : Nat → Nat}

/-! ## Program segments -/

theorem loadLoop_spec {ip : List Nat} {k off sz : Nat}
    (h : UserSpace X m r g (pageCount sz) tf U)
    (hu : ∀ v < pageCount sz, g v &&& pteU ≠ 0) :
    Total (loadLoop r ip k off sz) m fun result m' => Within X m m' ∧
      ∃ g', UserSpace X m' r g' (pageCount result.2) tf U := by
  induction k generalizing m g off sz with
  | zero => exact Total.pure ⟨Within.refl X m, g, h⟩
  | succ k ih =>
      have hstop : Total (pure (false, sz) : MemM (Bool × Nat)) m fun result m' =>
          Within X m m' ∧ ∃ g', UserSpace X m' r g' (pageCount result.2) tf U :=
        Total.pure ⟨Within.refl X m, g, h⟩
      simp only [loadLoop]
      split
      case isTrue => exact hstop
      split
      case isTrue => exact ih h hu
      split
      case isTrue => exact hstop
      split
      case isTrue => exact hstop
      split
      case isTrue => exact hstop
      rename_i hmemsz hwrap halign
      generalize hph : Proghdr.ofBytes (readi ip off sizeofProghdr) = ph at *
      have hbound : ph.memsz < 2 ^ 64 := by
        rw [← hph]
        exact field_lt _ 40 8
      rw [no_wrap hbound hwrap]
      apply Total.bind (uvmalloc_spec h (flags2perm_lt _))
      intro sz1 m₁ hm₁
      obtain ⟨hwithin₁, hresult⟩ := hm₁
      cases hresult with
      | inl hfail =>
          rw [if_pos hfail.1]
          exact Total.pure ⟨hwithin₁, g, hfail.2⟩
      | inr hgrown =>
          obtain ⟨hsz1, g₁, h₁, hext⟩ := hgrown
          by_cases hzero : sz1 = 0
          · have hcount : pageCount sz1 = pageCount sz := by
              have hsz : sz = 0 := by omega
              rw [hzero, hsz]
            rw [hcount] at h₁
            rw [if_pos hzero]
            exact Total.pure ⟨hwithin₁, g₁, h₁⟩
          · rw [if_neg hzero]
            have hu₁ : ∀ v < pageCount sz1, g₁ v &&& pteU ≠ 0 := by
              intro v hv
              by_cases hold : v < pageCount sz
              · rw [hext.kept v hold]
                exact hu v hold
              · exact hext.user v (by omega) hv
            have hfit : pageCount (ph.vaddr + ph.filesz % 2 ^ 32) ≤ pageCount sz1 := by
              apply pageCount_mono
              have hmod := Nat.mod_le ph.filesz (2 ^ 32)
              omega
            apply Total.bind (loadseg_spec h₁ hu₁ (not_not.mp halign) hfit)
            intro loaded m₂ hm₂
            have h₂ := h₁.wrote hm₂
            have hwithin₂ := hwithin₁.trans (hm₂.within.mono h₁.user_le)
            cases loaded with
            | true =>
                rw [if_pos rfl]
                apply (ih h₂ hu₁).mono
                intro result m' hm'
                exact ⟨hwithin₂.trans hm'.1, hm'.2⟩
            | false => exact Total.pure ⟨hwithin₂, g₁, h₂⟩

/-! ## The image -/

theorem execImage_spec {ip : List Nat} {argv : List (List Nat)} (h : Stock X m U)
    (tf : Nat) :
    Total (execImage tf ip argv) m fun result m' => Within X m m' ∧
      match result with
      | none => Stock X m' U
      | some image => ∃ g, UserSpace X m' image.pagetable g (pageCount image.sz) tf U ∧
          Handed m' g argv image := by
  have hstop : Total (pure none : MemM (Option NewImage)) m fun result m' =>
      Within X m m' ∧ match result with
        | none => Stock X m' U
        | some image => ∃ g, UserSpace X m' image.pagetable g (pageCount image.sz) tf U ∧
            Handed m' g argv image :=
    Total.pure ⟨Within.refl X m, h⟩
  simp only [execImage]
  split
  case isTrue => exact hstop
  split
  case isTrue => exact hstop
  apply Total.bind (procPagetable_spec h tf)
  intro result m₁ hm₁
  obtain ⟨hwithin₁, hresult⟩ := hm₁
  cases result with
  | none => exact Total.pure ⟨hwithin₁, hresult⟩
  | some r =>
      obtain ⟨g₁, h₁⟩ := hresult
      have hstart : UserSpace X m₁ r g₁ (pageCount 0) tf U := h₁
      apply Total.bind (loadLoop_spec hstart (fun v hv => absurd hv (Nat.not_lt_zero v)))
      intro loaded m₂ hm₂
      obtain ⟨hwithin₂, g₂, h₂⟩ := hm₂
      have hwithin₂ := hwithin₁.trans hwithin₂
      obtain ⟨ok, sz⟩ := loaded
      cases ok with
      | false =>
          apply Total.bind (procFreepagetable_spec h₂)
          intro _ m' hm'
          exact Total.pure ⟨hwithin₂.trans hm'.1, hm'.2⟩
      | true =>
          apply Total.bind (execStack_spec h₂)
          intro built m₃ hm₃
          have hwithin₃ := hwithin₂.trans hm₃.1
          cases built with
          | error sz' =>
              obtain ⟨g₃, h₃⟩ := hm₃.2
              apply Total.bind (procFreepagetable_spec h₃)
              intro _ m' hm'
              exact Total.pure ⟨hwithin₃.trans hm'.1, hm'.2⟩
          | ok image =>
              obtain ⟨hroot, g₃, h₃⟩ := hm₃.2
              subst hroot
              exact Total.pure ⟨hwithin₃, g₃, h₃⟩

end SyscallSched.Xv6
