import SyscallSched.Xv6.Freewalk

/-!
# The map of a process

A process of `n` pages maps the page numbers below `n`, its trapframe and the
trampoline, and nothing else.  The pool is smaller than the user part of the
address space, so user pages never reach the trapframe.
-/

namespace SyscallSched.Xv6

open SyscallSched.Foundation

def trapframePage : Nat := 2 ^ 26 - 2
def trampolinePage : Nat := 2 ^ 26 - 1

theorem trapframeVa_eq : trapframeVa = trapframePage * pgSize := by decide

theorem trampolineVa_eq : trampolineVa = trampolinePage * pgSize := by decide

def pageCount (sz : Nat) : Nat := (sz + (pgSize - 1)) / pgSize

theorem pgRoundUp_eq {sz : Nat} (h : pageCount sz ≤ 2 ^ 26) :
    pgRoundUp sz = pageCount sz * pgSize := by
  simp only [pageCount, pgRoundUp, pgSize] at *
  rw [Nat.mod_eq_of_lt (by omega)]
  rfl

theorem pageCount_mul (n : Nat) : pageCount (n * pgSize) = n := by
  simp only [pageCount, pgSize]
  omega

theorem pageCount_mono {a b : Nat} (h : a ≤ b) : pageCount a ≤ pageCount b := by
  simp only [pageCount, pgSize]
  omega

theorem pageSteps_count (n sz : Nat) : pageSteps (n * pgSize) sz = pageCount sz - n := by
  simp only [pageCount, pageSteps, pgSize]
  omega

/-! ## Frames of a range -/

section

variable {g : Nat → Nat} {v : Nat}

theorem framesOf_add (a b : Nat) :
    framesOf g v (a + b) = framesOf g v a + framesOf g (v + a) b := by
  induction a generalizing v with
  | zero => rw [Nat.zero_add, Nat.add_zero, framesOf, zero_add]
  | succ a ih =>
      rw [Nat.add_right_comm, framesOf, framesOf, ih, Multiset.cons_add,
        Nat.add_assoc v 1 a, Nat.add_comm 1 a]

theorem framesOf_succ (n : Nat) :
    framesOf g v (n + 1) = pte2pa (g (v + n)) ::ₘ framesOf g v n := by
  rw [framesOf_add]
  exact add_comm _ _

theorem card_framesOf (n : Nat) : (framesOf g v n).card = n := by
  induction n generalizing v with
  | zero => rfl
  | succ n ih => rw [framesOf, Multiset.card_cons, ih]

theorem mem_framesOf {n i : Nat} (hi : i < n) : pte2pa (g (v + i)) ∈ framesOf g v n := by
  obtain ⟨k, rfl⟩ := Nat.exists_eq_add_of_lt hi
  rw [Nat.add_assoc, framesOf_add]
  exact Multiset.mem_add.mpr (Or.inr (Multiset.mem_cons_self _ _))

end

variable [Image]

/-! ## The pool is small -/

theorem Frame.eq_page {q : Nat} (h : Frame q) :
    ∃ i < 32768, kernBase + i * pgSize = q := by
  have hlow : kernBase ≤ q := Image.kernBase_le.trans h.2.1
  have hbase : kernBase % pgSize = 0 := by decide
  have hsize : physTop = kernBase + 32768 * pgSize := by decide
  have hhigh := h.2.2
  have halign := h.1
  rw [hsize] at hhigh
  generalize kernBase = base at *
  refine ⟨(q - base) / pgSize, ?_⟩
  simp only [pgSize] at *
  omega

theorem card_pool_le {X : Multiset Nat} (hnd : X.Nodup) (hvalid : ∀ q ∈ X, Frame q) :
    X.card ≤ 32768 := by
  have hsub : X ⊆ (Multiset.range 32768).map fun i => kernBase + i * pgSize := by
    intro q hq
    obtain ⟨i, hi, rfl⟩ := (hvalid q hq).eq_page
    exact Multiset.mem_map_of_mem _ (Multiset.mem_range.mpr hi)
  have hle := Multiset.card_le_card ((Multiset.le_iff_subset hnd).mpr hsub)
  rw [Multiset.card_map, Multiset.card_range] at hle
  exact hle

/-! ## Processes -/

structure UserMap (g : Nat → Nat) (n trapframe : Nat) : Prop where
  user : ∀ i < n, Present (g i)
  trapframe : g trapframePage = leafEntry trapframe (pteR ||| pteW)
  trampoline : g trampolinePage = leafEntry Image.trampoline (pteR ||| pteX)
  none : ∀ v < 512 ^ 3, n ≤ v → v ≠ trapframePage → v ≠ trampolinePage → g v = 0

structure UserSpace (X : Multiset Nat) (m : Mem) (r : Nat) (g : Nat → Nat)
    (n trapframe : Nat) (U : Multiset Nat) : Prop where
  space : Space X m r g (framesOf g 0 n + U)
  map : UserMap g n trapframe

section

variable {X U : Multiset Nat} {m : Mem} {r n tf : Nat} {g g' : Nat → Nat}

theorem UserSpace.pages_le (h : UserSpace X m r g n tf U) : n ≤ 32768 := by
  have hle : framesOf g 0 n ≤ X := (Multiset.le_add_right _ _).trans h.space.held_le
  have hcard := Multiset.card_le_card hle
  rw [card_framesOf] at hcard
  exact hcard.trans (card_pool_le h.space.nodup h.space.valid)

theorem UserMap.congr (h : UserMap g n tf) (hn : n ≤ 512 ^ 3)
    (hg : ∀ v < 512 ^ 3, g' v = g v) : UserMap g' n tf := by
  constructor
  case user =>
      intro i hi
      rw [hg i (by omega)]
      exact h.user i hi
  case trapframe =>
      rw [hg _ (by decide)]
      exact h.trapframe
  case trampoline =>
      rw [hg _ (by decide)]
      exact h.trampoline
  case none =>
      intro v hv
      rw [hg v hv]
      exact h.none v hv

theorem UserSpace.congr (h : UserSpace X m r g n tf U)
    (hg : ∀ v < 512 ^ 3, g' v = g v) : UserSpace X m r g' n tf U := by
  have hn := h.pages_le
  constructor
  case space =>
      have hframes : framesOf g' 0 n = framesOf g 0 n :=
        framesOf_congr (fun i hi => hg _ (by omega))
      rw [hframes]
      exact h.space.congr fun v hv => (hg v hv).symm
  case map => exact h.map.congr (by omega) hg

theorem UserMap.push {e : Nat} (h : UserMap g n tf) (hn : n < trapframePage)
    (he : Present e) : UserMap (Function.update g n e) (n + 1) tf := by
  simp only [trapframePage] at hn
  constructor
  case user =>
      intro i hi
      by_cases hin : i = n
      · rw [hin, Function.update_self]
        exact he
      · rw [Function.update_of_ne hin]
        exact h.user i (by omega)
  case trapframe =>
      rw [Function.update_of_ne (by simp only [trapframePage]; omega)]
      exact h.trapframe
  case trampoline =>
      rw [Function.update_of_ne (by simp only [trampolinePage]; omega)]
      exact h.trampoline
  case none =>
      intro v hv hnv
      rw [Function.update_of_ne (by omega)]
      exact h.none v hv (by omega)

theorem UserMap.cut {k : Nat} (h : UserMap g n tf) (hk : k ≤ n) (hn : n ≤ trapframePage) :
    UserMap (cleared g k (n - k)) k tf := by
  have hout : ∀ v, v < k ∨ n ≤ v → cleared g k (n - k) v = g v := by
    intro v hv
    rw [cleared, if_neg (by omega)]
  constructor
  case user =>
      intro i hi
      rw [hout i (Or.inl hi)]
      exact h.user i (by omega)
  case trapframe =>
      rw [hout _ (Or.inr hn)]
      exact h.trapframe
  case trampoline =>
      rw [hout _ (Or.inr (hn.trans (by decide)))]
      exact h.trampoline
  case none =>
      intro v hv hkv htf htr
      by_cases hnv : n ≤ v
      · rw [hout v (Or.inr hnv)]
        exact h.none v hv hnv htf htr
      · rw [cleared, if_pos (by omega)]

end

end SyscallSched.Xv6
