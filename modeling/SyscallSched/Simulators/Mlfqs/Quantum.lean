import Mathlib.Data.List.Perm.Basic
import Mathlib.Data.List.Sort
import SyscallSched.Simulators.Mlfqs.Invariant

/-!
# The quantum of `sjf`

`dynamic_time_quantum` sorts pointers to the unfinished processes in an array.  A
`Sorting` is this array together with the indices at which it was used; since no process
is written, a pointer is read as the record it points to.  Each pass moves the longest
process in front of the sorted part to its end, so the quantum is an order statistic:
two thirds of the unfinished processes need no more than it.
-/

namespace SyscallSched.Simulators.Mlfqs

open SyscallSched.Foundation

/-! ## The array -/

structure Sorting where
  sorted : Nat → Process
  /-- Every index with which `sorted` was read or written, oldest first. -/
  indices : List Nat

/-- `sorted[i++] = temp` for the unfinished processes. -/
def collect : List Process → Nat → Sorting → Sorting
  | [], _, s => s
  | temp :: rest, i, s =>
      if temp.remain > 0 then
        collect rest (i + 1)
          { sorted := Function.update s.sorted i temp, indices := s.indices ++ [i] }
      else collect rest i s

def compareSwap (s : Sorting) (k : Nat) : Sorting :=
  if (s.sorted k).remain > (s.sorted (k + 1)).remain then
    { sorted := Function.update (Function.update s.sorted k (s.sorted (k + 1))) (k + 1)
        (s.sorted k)
      indices := s.indices ++ [k, k + 1, k, k + 1, k, k + 1] }
  else { s with indices := s.indices ++ [k, k + 1] }

def sortPass (s : Sorting) (m : Nat) : Sorting :=
  (List.range m).foldl compareSwap s

def sortPointers (count : Nat) (s : Sorting) : Sorting :=
  (List.range (count - 1)).foldl (fun s j => sortPass s (count - j - 1)) s

/-- `dynamic_time_quantum(head, &time_quantum_sjf)` called in `sim`, with the array as
declared, and the indices that the call uses. -/
def dynamicTimeQuantumArray (sim : Sim) (declared : Nat → Process) : Sim × List Nat :=
  let count := sim.head.countP fun temp => decide (temp.remain > 0)
  if count > 0 then
    let s := sortPointers count (collect sim.head 0 ⟨declared, []⟩)
    let position := 2 * count / 3
    let position := if position ≥ count then count - 1 else position
    ({ sim with timeQuantumSjf := (s.sorted position).remain }, s.indices ++ [position])
  else (sim, [])

/-! ## The array holds the list that is sorted -/

def Holds (cells : Nat → Process) (first : Nat) (ps : List Process) : Prop :=
  ∀ i (h : i < ps.length), cells (first + i) = ps[i]

theorem holds_cons {cells : Nat → Process} {first : Nat} {p : Process} {ps : List Process} :
    Holds cells first (p :: ps) ↔ cells first = p ∧ Holds cells (first + 1) ps := by
  constructor
  · intro h
    refine ⟨h 0 (by simp), ?_⟩
    intro i hi
    rw [Nat.add_right_comm, Nat.add_assoc]
    exact h (i + 1) (by simpa using hi)
  · rintro ⟨hfirst, hrest⟩ i hi
    cases i with
    | zero => exact hfirst
    | succ i =>
        rw [← Nat.add_assoc, Nat.add_right_comm]
        exact hrest i (by simpa using hi)

theorem Holds.congr {cells cells' : Nat → Process} {first : Nat} {ps : List Process}
    (h : Holds cells first ps)
    (hcells : ∀ i, first ≤ i → i < first + ps.length → cells' i = cells i) :
    Holds cells' first ps := by
  intro i hi
  rw [hcells (first + i) (by omega) (by omega)]
  exact h i hi

theorem holds_collect {head ps : List Process} {s : Sorting}
    (h : Holds s.sorted 0 ps) :
    Holds (collect head ps.length s).sorted 0
      (ps ++ head.filter fun temp => decide (temp.remain > 0)) := by
  induction head generalizing ps s with
  | nil => simpa [collect] using h
  | cons temp rest ih =>
      rw [collect]
      split
      case isTrue hpos =>
          have hnext : Holds (Function.update s.sorted ps.length temp) 0 (ps ++ [temp]) := by
            intro i hi
            rw [Nat.zero_add]
            cases Nat.lt_succ_iff_lt_or_eq.mp (by simpa using hi) with
            | inl hlt =>
                rw [Function.update_of_ne (by omega), List.getElem_append_left hlt,
                  ← h i hlt, Nat.zero_add]
            | inr heq =>
                subst heq
                simp
          have hrest := ih (s := ⟨Function.update s.sorted ps.length temp,
            s.indices ++ [ps.length]⟩) hnext
          rw [List.filter_cons_of_pos (by simpa using hpos)]
          simpa only [List.length_append, List.length_singleton, List.append_assoc,
            List.singleton_append] using hrest
      case isFalse hpos =>
          have hrest := ih h
          simpa [hpos] using hrest

theorem holds_compareSwap {s : Sorting} {first : Nat} {p q : Process} {rest : List Process}
    (h : Holds s.sorted first (p :: q :: rest)) :
    Holds (compareSwap s first).sorted first
      (if p.remain > q.remain then q :: p :: rest else p :: q :: rest) := by
  obtain ⟨hp, hq, hrest⟩ := by simpa [holds_cons] using h
  unfold compareSwap
  rw [hp, hq]
  split
  · rw [holds_cons, holds_cons]
    refine ⟨by simp, by simp, ?_⟩
    apply hrest.congr
    intro i hi _
    simp only
    rw [Function.update_of_ne (by omega), Function.update_of_ne (by omega)]
  · exact h

theorem compareSwap_of_lt (s : Sorting) {i k : Nat} (hi : i < k) :
    (compareSwap s k).sorted i = s.sorted i := by
  unfold compareSwap
  split
  · simp only
    rw [Function.update_of_ne (by omega), Function.update_of_ne (by omega)]
  · rfl

theorem holds_pass (m : Nat) {s : Sorting} {first : Nat} {ps : List Process}
    (h : Holds s.sorted first ps) (hm : m < ps.length) :
    Holds ((List.range' first m).foldl compareSwap s).sorted first (bubblePass m ps) ∧
      ∀ i, i < first → ((List.range' first m).foldl compareSwap s).sorted i = s.sorted i := by
  induction m generalizing s first ps with
  | zero => exact ⟨by simpa [bubblePass] using h, fun _ _ => rfl⟩
  | succ m ih =>
      match ps, hm with
      | p :: q :: rest, hm =>
          have hswap := holds_compareSwap h
          rw [List.range'_succ, List.foldl_cons, bubblePass]
          cases Int.lt_or_le q.remain p.remain with
          | inl hlt =>
              rw [if_pos hlt] at hswap ⊢
              obtain ⟨hq, hrest⟩ := holds_cons.mp hswap
              obtain ⟨htail, hsame⟩ := ih hrest (by simpa using hm)
              constructor
              · rw [holds_cons]
                exact ⟨(hsame first (by omega)).trans hq, htail⟩
              · intro i hi
                rw [hsame i (by omega), compareSwap_of_lt s hi]
          | inr hle =>
              rw [if_neg (by omega)] at hswap ⊢
              obtain ⟨hp, hrest⟩ := holds_cons.mp hswap
              obtain ⟨htail, hsame⟩ := ih hrest (by simpa using hm)
              constructor
              · rw [holds_cons]
                exact ⟨(hsame first (by omega)).trans hp, htail⟩
              · intro i hi
                rw [hsame i (by omega), compareSwap_of_lt s hi]

theorem holds_sortPointers {s : Sorting} {ps : List Process} (h : Holds s.sorted 0 ps) :
    Holds (sortPointers ps.length s).sorted 0 (bubbleSort ps.length ps) := by
  have general : ∀ (js : List Nat) (s : Sorting) (qs : List Process), qs.length = ps.length →
      (∀ j ∈ js, j < ps.length) → Holds s.sorted 0 qs →
      Holds (js.foldl (fun s j => sortPass s (ps.length - j - 1)) s).sorted 0
        (js.foldl (fun qs j => bubblePass (ps.length - j - 1) qs) qs) := by
    intro js
    induction js with
    | nil => exact fun _ _ _ _ h => h
    | cons j js ih =>
        intro s qs hlength hjs hqs
        have hj := hjs j List.mem_cons_self
        have hpass := (holds_pass (ps.length - j - 1) hqs (by omega)).1
        rw [← List.range_eq_range'] at hpass
        refine ih _ _ ?_ (fun i hi => hjs i (List.mem_cons_of_mem j hi)) hpass
        rw [(bubblePass_perm _ qs).length_eq, hlength]
  apply general _ s ps rfl _ h
  intro j hj
  rw [List.mem_range] at hj
  omega

/-! ## The indices -/

def InRange (count : Nat) (s : Sorting) : Prop :=
  ∀ i ∈ s.indices, i < count

theorem inRange_collect {count i : Nat} {head : List Process} {s : Sorting}
    (h : InRange count s)
    (hcount : i + (head.countP fun temp => decide (temp.remain > 0)) ≤ count) :
    InRange count (collect head i s) := by
  induction head generalizing i s with
  | nil => exact h
  | cons temp rest ih =>
      rw [collect]
      split
      case isTrue hpos =>
          rw [List.countP_cons_of_pos (by simpa using hpos)] at hcount
          apply ih
          · intro k hk
            simp only [List.mem_append, List.mem_singleton] at hk
            cases hk with
            | inl hk => exact h k hk
            | inr hk => omega
          · omega
      case isFalse hpos =>
          rw [List.countP_cons_of_neg (by simpa using hpos)] at hcount
          exact ih h hcount

theorem inRange_compareSwap {count k : Nat} {s : Sorting} (h : InRange count s)
    (hk : k + 1 < count) : InRange count (compareSwap s k) := by
  intro i hi
  unfold compareSwap at hi
  split at hi
  · simp only [List.mem_append, List.mem_cons, List.not_mem_nil, or_false] at hi
    cases hi with
    | inl hi => exact h i hi
    | inr hi => omega
  · simp only [List.mem_append, List.mem_cons, List.not_mem_nil, or_false] at hi
    cases hi with
    | inl hi => exact h i hi
    | inr hi => omega

theorem inRange_foldl {β : Type} {count : Nat} (f : Sorting → β → Sorting) (js : List β)
    (hf : ∀ s, ∀ j ∈ js, InRange count s → InRange count (f s j)) {s : Sorting}
    (h : InRange count s) : InRange count (js.foldl f s) := by
  induction js generalizing s with
  | nil => exact h
  | cons j js ih =>
      apply ih
      · intro s i hi
        exact hf s i (List.mem_cons_of_mem j hi)
      · exact hf s j List.mem_cons_self h

theorem inRange_sortPointers {count : Nat} {s : Sorting} (h : InRange count s) :
    InRange count (sortPointers count s) := by
  apply inRange_foldl _ _ _ h
  intro s j hj hs
  apply inRange_foldl _ _ _ hs
  intro s k hk hs
  rw [List.mem_range] at hj hk
  exact inRange_compareSwap hs (by omega)

/-! ## A pass moves the longest process to the end -/

theorem bubblePass_append (m : Nat) {front back : List Process} (h : m < front.length) :
    bubblePass m (front ++ back) = bubblePass m front ++ back := by
  induction m generalizing front with
  | zero => simp [bubblePass]
  | succ m ih =>
      match front, h with
      | p :: q :: rest, h =>
          have hp : bubblePass m ((p :: rest) ++ back) = bubblePass m (p :: rest) ++ back :=
            ih (by simpa using h)
          have hq : bubblePass m ((q :: rest) ++ back) = bubblePass m (q :: rest) ++ back :=
            ih (by simpa using h)
          rw [List.cons_append, List.cons_append, bubblePass, bubblePass]
          split
          · rw [List.cons_append, ← hp, List.cons_append]
          · rw [List.cons_append, ← hq, List.cons_append]

theorem bubblePass_last (m : Nat) (front : List Process) (h : front.length = m + 1) :
    ∃ rest last, bubblePass m front = rest ++ [last] ∧
      ∀ p ∈ front, p.remain ≤ last.remain := by
  induction m generalizing front with
  | zero =>
      obtain ⟨p, rfl⟩ := List.length_eq_one_iff.mp h
      exact ⟨[], p, by simp [bubblePass], by simp⟩
  | succ m ih =>
      match front, h with
      | p :: q :: tail, h =>
          rw [bubblePass]
          split
          case isTrue hgt =>
              obtain ⟨rest, last, heq, hle⟩ := ih (p :: tail) (by simpa using h)
              have hp : p.remain ≤ last.remain := hle p List.mem_cons_self
              refine ⟨q :: rest, last, by rw [heq]; rfl, ?_⟩
              intro r hr
              simp only [List.mem_cons] at hr hle
              rcases hr with rfl | rfl | hr
              · exact hp
              · omega
              · exact hle r (.inr hr)
          case isFalse hgt =>
              obtain ⟨rest, last, heq, hle⟩ := ih (q :: tail) (by simpa using h)
              have hq : q.remain ≤ last.remain := hle q List.mem_cons_self
              refine ⟨p :: rest, last, by rw [heq]; rfl, ?_⟩
              intro r hr
              rcases List.mem_cons.mp hr with rfl | hr
              · omega
              · exact hle r hr

def SortedByRemain (ps : List Process) : Prop :=
  ps.Pairwise fun p q => p.remain ≤ q.remain

instance (ps : List Process) : Decidable (SortedByRemain ps) :=
  inferInstanceAs (Decidable (List.Pairwise _ _))

structure SortedBack (j : Nat) (ps : List Process) : Prop where
  sorted : SortedByRemain (ps.drop (ps.length - j))
  le : ∀ p ∈ ps.take (ps.length - j), ∀ q ∈ ps.drop (ps.length - j), p.remain ≤ q.remain

theorem sortedBack_pass {j : Nat} {ps : List Process} (hj : j < ps.length)
    (h : SortedBack j ps) : SortedBack (j + 1) (bubblePass (ps.length - j - 1) ps) := by
  obtain ⟨front, back, rfl, hfront⟩ : ∃ front back, ps = front ++ back ∧
      front.length = ps.length - j :=
    ⟨ps.take (ps.length - j), ps.drop (ps.length - j), by simp, by simp⟩
  have hlength : back.length = j := by
    simp only [List.length_append] at hfront hj
    omega
  have hsplit : (front ++ back).length - j = front.length := hfront.symm
  obtain ⟨hsorted, hle⟩ := h
  rw [hsplit] at hsorted hle ⊢
  rw [List.drop_left] at hsorted hle
  rw [List.take_left] at hle
  obtain ⟨rest, last, heq, hlast⟩ := bubblePass_last (front.length - 1) front (by omega)
  have hperm : (rest ++ [last]).Perm front := heq ▸ bubblePass_perm _ front
  have hmem : last ∈ front := hperm.subset (by simp)
  rw [bubblePass_append _ (by omega), heq, List.append_assoc]
  have hrest : (rest ++ ([last] ++ back)).length - (j + 1) = rest.length := by
    simp only [List.length_append, List.length_singleton]
    omega
  constructor
  case sorted =>
    rw [hrest, List.drop_left]
    exact List.pairwise_cons.mpr ⟨fun q hq => hle last hmem q hq, hsorted⟩
  case le =>
    rw [hrest, List.drop_left, List.take_left]
    intro p hp q hq
    have hp' : p ∈ front := hperm.subset (by simp [hp])
    cases List.mem_append.mp hq with
    | inl hq =>
        rw [List.mem_singleton.mp hq]
        exact hlast p hp'
    | inr hq => exact hle p hp' q hq

theorem bubbleSort_sorted (ps : List Process) : SortedByRemain (bubbleSort ps.length ps) := by
  have general : ∀ m, m ≤ ps.length - 1 →
      ((List.range m).foldl (fun qs j => bubblePass (ps.length - j - 1) qs) ps).length =
        ps.length ∧
      SortedBack m
        ((List.range m).foldl (fun qs j => bubblePass (ps.length - j - 1) qs) ps) := by
    intro m
    induction m with
    | zero =>
        intro _
        refine ⟨rfl, ?_, ?_⟩
        · simp [SortedByRemain]
        · simp
    | succ m ih =>
        intro hm
        obtain ⟨hlength, hback⟩ := ih (by omega)
        rw [List.range_succ, List.foldl_append, List.foldl_cons, List.foldl_nil]
        refine ⟨(bubblePass_perm _ _).length_eq.trans hlength, ?_⟩
        have hstep := sortedBack_pass (by omega) hback
        rwa [hlength] at hstep
  obtain ⟨hlength, hsorted, hle⟩ := general (ps.length - 1) (Nat.le_refl _)
  unfold bubbleSort
  generalize (List.range (ps.length - 1)).foldl _ ps = qs at hlength hsorted hle ⊢
  cases qs with
  | nil => exact List.Pairwise.nil
  | cons first rest =>
      have hone : (first :: rest).length - (ps.length - 1) = 1 := by
        simp only [List.length_cons] at hlength ⊢
        omega
      rw [hone] at hsorted hle
      exact List.pairwise_cons.mpr ⟨hle first (by simp), hsorted⟩

/-! ## The order statistic -/

/-- Two thirds of the way up, from 0. -/
def rank (count : Nat) : Nat := 2 * count / 3

theorem rank_lt {count : Nat} (h : 0 < count) : rank count < count := by
  unfold rank
  omega

def unfinished (head : List Process) : List Process :=
  head.filter fun temp => decide (temp.remain > 0)

/-- The test `position >= count` never succeeds. -/
theorem position_eq {count : Nat} (h : 0 < count) :
    (if rank count ≥ count then count - 1 else rank count) = rank count := by
  have hlt := rank_lt h
  rw [if_neg (by omega)]

theorem exists_dynamicTimeQuantum {head : List Process} (h : unfinished head ≠ [])
    (timeQuantum : Int) :
    ∃ ptr, (bubbleSort (unfinished head).length (unfinished head))[rank (unfinished head).length]? =
        some ptr ∧ dynamicTimeQuantum head timeQuantum = ptr.remain := by
  have hpos : 0 < (unfinished head).length := List.length_pos_iff.mpr h
  have hlt : rank (unfinished head).length <
      (bubbleSort (unfinished head).length (unfinished head)).length := by
    rw [(bubbleSort_perm _ _).length_eq]
    exact rank_lt hpos
  refine ⟨_, List.getElem?_eq_getElem hlt, ?_⟩
  have hposition := position_eq hpos
  unfold rank unfinished at hposition hlt
  simp only [dynamicTimeQuantum, hposition, List.getElem?_eq_getElem hlt]
  rfl

theorem dynamicTimeQuantumArray_spec (sim : Sim) (declared : Nat → Process) :
    (dynamicTimeQuantumArray sim declared).1 =
        { sim with timeQuantumSjf := dynamicTimeQuantum sim.head sim.timeQuantumSjf } ∧
      ∀ i ∈ (dynamicTimeQuantumArray sim declared).2, i < (unfinished sim.head).length := by
  have hcount : (sim.head.countP fun temp => decide (temp.remain > 0)) =
      (unfinished sim.head).length := List.countP_eq_length_filter
  unfold dynamicTimeQuantumArray
  simp only [hcount]
  split
  case isTrue hpos =>
      have hne : unfinished sim.head ≠ [] := List.length_pos_iff.mp hpos
      have hcells : Holds (collect sim.head 0 ⟨declared, []⟩).sorted 0 (unfinished sim.head) := by
        have hempty : Holds declared 0 [] := by
          intro i hi
          cases hi
        exact holds_collect (s := ⟨declared, []⟩) hempty
      have hsorted := holds_sortPointers hcells
      obtain ⟨ptr, hptr, heq⟩ := exists_dynamicTimeQuantum hne sim.timeQuantumSjf
      obtain ⟨hlt, hget⟩ := List.getElem?_eq_some_iff.mp hptr
      have hread := hsorted (rank (unfinished sim.head).length) hlt
      rw [Nat.zero_add, hget] at hread
      have hposition := position_eq hpos
      unfold rank at hposition hread
      rw [hposition, hread, heq]
      refine ⟨rfl, ?_⟩
      have hcollect : InRange (unfinished sim.head).length
          (collect sim.head 0 ⟨declared, []⟩) := by
        apply inRange_collect
        · intro i hi
          cases hi
        · omega
      intro i hi
      cases List.mem_append.mp hi with
      | inl hi => exact inRange_sortPointers hcollect i hi
      | inr hi =>
          rw [List.mem_singleton.mp hi]
          exact rank_lt hpos
  case isFalse hpos =>
      have hnil : unfinished sim.head = [] := by
        rw [← List.length_eq_zero_iff]
        omega
      have hkeep : dynamicTimeQuantum sim.head sim.timeQuantumSjf = sim.timeQuantumSjf := by
        unfold unfinished at hnil
        simp [dynamicTimeQuantum, hnil, bubbleSort]
      rw [hkeep]
      exact ⟨rfl, fun i hi => by cases hi⟩

theorem dynamicTimeQuantum_rank {head : List Process} (h : unfinished head ≠ [])
    (timeQuantum : Int) {ordered : List Int}
    (hperm : ordered.Perm ((unfinished head).map Process.remain))
    (hsorted : ordered.Pairwise (· ≤ ·)) :
    ordered[rank (unfinished head).length]? = some (dynamicTimeQuantum head timeQuantum) := by
  obtain ⟨ptr, hptr, heq⟩ := exists_dynamicTimeQuantum h timeQuantum
  have hmap : ((bubbleSort (unfinished head).length (unfinished head)).map
      Process.remain).Pairwise (· ≤ ·) := by
    rw [List.pairwise_map]
    exact bubbleSort_sorted (unfinished head)
  have hsame : ordered = (bubbleSort (unfinished head).length (unfinished head)).map
      Process.remain := by
    apply List.Perm.eq_of_pairwise _ hsorted hmap
    · exact hperm.trans ((bubbleSort_perm _ _).map Process.remain).symm
    · intro a b _ _ hab hba
      exact Int.le_antisymm hab hba
  rw [hsame, List.getElem?_map, hptr, heq]
  rfl

theorem rank_lt_countP {head : List Process} (h : unfinished head ≠ []) (timeQuantum : Int) :
    rank (unfinished head).length + 1 ≤ (unfinished head).countP fun p =>
      decide (p.remain ≤ dynamicTimeQuantum head timeQuantum) := by
  obtain ⟨ptr, hptr, heq⟩ := exists_dynamicTimeQuantum h timeQuantum
  obtain ⟨hlt, hget⟩ := List.getElem?_eq_some_iff.mp hptr
  have hsorted := bubbleSort_sorted (unfinished head)
  rw [← (bubbleSort_perm (unfinished head).length (unfinished head)).countP_eq, heq]
  generalize bubbleSort (unfinished head).length (unfinished head) = ps at hlt hget hsorted ⊢
  generalize rank (unfinished head).length = r at hlt hget ⊢
  have htake : ∀ p ∈ ps.take (r + 1), decide (p.remain ≤ ptr.remain) = true := by
    intro p hp
    obtain ⟨i, hi, rfl⟩ := List.mem_take_iff_getElem.mp hp
    rw [decide_eq_true_eq, ← hget]
    cases Nat.lt_or_eq_of_le (show i ≤ r by omega) with
    | inl hir => exact List.pairwise_iff_getElem.mp hsorted i r (by omega) hlt hir
    | inr hir => simp [hir]
  calc r + 1 = (ps.take (r + 1)).length := by simp; omega
    _ = (ps.take (r + 1)).countP fun p => decide (p.remain ≤ ptr.remain) :=
      (List.countP_eq_length.mpr htake).symm
    _ ≤ ps.countP fun p => decide (p.remain ≤ ptr.remain) :=
      (List.take_sublist (r + 1) ps).countP_le

end SyscallSched.Simulators.Mlfqs
