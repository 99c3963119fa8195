import Mathlib.Tactic.Ring
import SyscallSched.Umalloc.FreeList

/-!
# `free`

The loop finds the place of the block from wherever `freep` is: of all blocks of the
list only the one in front of that place stops it.  The block is then put behind it, or
joined with the one behind, with the one in front, or with both.
-/

namespace SyscallSched.Umalloc

open SyscallSched.Foundation

/-- A block of more bytes has no size. -/
def sizeLimit : Nat := 2 ^ 36

def Heap.Stops (h : Heap) (bp a : Nat) : Prop :=
  (bp > a ∧ bp < (h.header a).ptr) ∨
    (a ≥ (h.header a).ptr ∧ (bp > a ∨ bp < (h.header a).ptr))

instance (h : Heap) (bp a : Nat) : Decidable (h.Stops bp a) :=
  inferInstanceAs (Decidable (_ ∨ _))

structure Freed (base bp : Nat) (h h' : Heap) (l l' : List Nat) : Prop where
  list : FreeList base h' l'
  freep : h'.freep ∈ l'
  own : h'.own l' = h.own l + Multiset.Ico bp (h.blockEnd bp)
  same : ∀ a, a ∉ l → a ≠ bp → h'.header a = h.header a
  large : ∃ a ∈ l', (h.header bp).size ≤ (h'.header a).size
  length : l'.length ≤ l.length + 1
  regions : h'.regions = h.regions

section

variable {base bp p y fuel : Nat} {h h' : Heap} {l A B : List Nat}

theorem freeSearch_succ (bp fuel p : Nat) (h : Heap) : freeSearch bp (fuel + 1) p h =
    if h.Stops bp p then .ok (p, h) else freeSearch bp fuel (h.header p).ptr h := by
  change (if bp > p ∧ bp < (h.header p).ptr then pure p
    else if p ≥ (h.header p).ptr ∧ (bp > p ∨ bp < (h.header p).ptr) then pure p
    else freeSearch bp fuel (h.header p).ptr : HeapM Nat) h = _
  by_cases hfirst : bp > p ∧ bp < (h.header p).ptr
  · rw [if_pos hfirst, if_pos (show h.Stops bp p from .inl hfirst)]
    rfl
  · rw [if_neg hfirst]
    by_cases hsecond : p ≥ (h.header p).ptr ∧ (bp > p ∨ bp < (h.header p).ptr)
    · rw [if_pos hsecond, if_pos (show h.Stops bp p from .inr hsecond)]
      rfl
    · rw [if_neg hsecond, if_neg (show ¬h.Stops bp p from not_or.mpr ⟨hfirst, hsecond⟩)]

theorem freeSearch_eq (bp : Nat) (hpath : Path (fun a => (h.header a).ptr) l y) (hp : p ∈ l)
    (hstops : ∀ a ∈ l, h.Stops bp a ↔ a = p) (hfuel : l.length ≤ fuel) :
    freeSearch bp fuel (l.headD y) h = .ok (p, h) := by
  induction l generalizing fuel with
  | nil => cases hp
  | cons a l ih =>
      obtain ⟨fuel, rfl⟩ := Nat.exists_eq_succ_of_ne_zero (Nat.ne_of_gt (Nat.zero_lt_of_lt hfuel))
      rw [List.headD_cons, freeSearch_succ]
      have ha := hstops a List.mem_cons_self
      by_cases heq : a = p
      · rw [if_pos (ha.mpr heq), heq]
      · rw [if_neg (mt ha.mp heq)]
        have hp' : p ∈ l := (List.mem_cons.mp hp).resolve_left (Ne.symm heq)
        rw [show (h.header a).ptr = l.headD y from hpath.1]
        exact ih hpath.2 hp' (fun b hb => hstops b (List.mem_cons_of_mem a hb))
          (Nat.le_of_succ_le_succ hfuel)

namespace FreeList

theorem stops_iff (hl : FreeList base h (A ++ p :: B)) (hp : p < bp) (hB : ∀ b ∈ B, bp < b)
    {a : Nat} (ha : a ∈ A ++ p :: B) : h.Stops bp a ↔ a = p := by
  have hbase : base ≤ p := hl.base_le (List.mem_append_right _ List.mem_cons_self)
  have hap := hl.lt
  rw [Heap.Stops]
  simp only [List.mem_append, List.mem_cons] at ha
  obtain hA | hself | hB' := ha
  · -- below `p` the next block is not above `p` either
    have hlt := (le_blockEnd h a).trans_lt (hap.1 a hA)
    obtain ⟨A₁, A₂, rfl⟩ := List.append_of_mem hA
    rw [List.append_assoc, List.cons_append] at hl
    have hnext := hl.next
    have hup := hl.lt.2
    cases A₂ with
    | nil =>
        rw [List.nil_append, List.headD_cons] at hnext
        omega
    | cons c A₂ =>
        rw [List.cons_append, List.headD_cons] at hnext
        have hc := (le_blockEnd h a).trans_lt (hup c List.mem_cons_self)
        have hcp := (le_blockEnd h c).trans_lt
          (hap.1 c (List.mem_append_right _ (List.mem_cons_of_mem a List.mem_cons_self)))
        omega
  · have hnext := hl.next
    cases B with
    | nil =>
        rw [List.headD_nil] at hnext
        rw [hself]
        omega
    | cons b B =>
        rw [List.headD_cons] at hnext
        have hb := hB b List.mem_cons_self
        rw [hself]
        omega
  · have ha := hB a hB'
    obtain ⟨B₁, B₂, rfl⟩ := List.append_of_mem hB'
    rw [← List.cons_append, ← List.append_assoc] at hl
    have hnext := hl.next
    have hup := hl.lt.2
    cases B₂ with
    | nil =>
        rw [List.headD_nil] at hnext
        omega
    | cons c B₂ =>
        rw [List.headD_cons] at hnext
        have hc := (le_blockEnd h a).trans_lt (hup c List.mem_cons_self)
        omega

theorem round (hl : FreeList base h (A ++ p :: B)) :
    Path (fun a => (h.header a).ptr) (p :: (B ++ A)) p := by
  apply Path.rotate
  have hpath := hl.path
  obtain ⟨rest, hrest⟩ := hl.first
  cases A with
  | nil =>
      rw [List.nil_append, List.cons.injEq] at hrest
      rw [List.headD_nil, hrest.1]
      rw [hrest.1] at hpath
      exact hpath
  | cons a A =>
      rw [List.cons_append, List.cons.injEq] at hrest
      rw [List.headD_cons, hrest.1]
      rw [hrest.1] at hpath
      exact hpath

theorem freeSearch (hl : FreeList base h (A ++ p :: B)) (hp : p < bp) (hB : ∀ b ∈ B, bp < b)
    {f : Nat} (hf : f ∈ A ++ p :: B) (hfuel : (A ++ p :: B).length ≤ fuel) :
    Umalloc.freeSearch bp fuel f h = .ok (p, h) := by
  obtain ⟨l₁, l₂, hsplit⟩ := List.append_of_mem hf
  have hround : Path (fun a => (h.header a).ptr) (f :: (l₂ ++ l₁)) f := (hsplit ▸ hl).round
  have hmem : ∀ a, a ∈ f :: (l₂ ++ l₁) ↔ a ∈ A ++ p :: B := by
    intro a
    rw [hsplit]
    simp only [List.mem_append, List.mem_cons]
    tauto
  have hlength : (f :: (l₂ ++ l₁)).length = (A ++ p :: B).length := by
    rw [hsplit]
    simp only [List.length_append, List.length_cons]
    omega
  have hfound := freeSearch_eq bp hround
    ((hmem p).mpr (List.mem_append_right _ List.mem_cons_self))
    (fun a ha => hl.stops_iff hp hB ((hmem a).mp ha)) (hlength.le.trans hfuel)
  rw [List.headD_cons] at hfound
  exact hfound

end FreeList

/-! ## Joining -/

theorem setPtr_eq (p ptr : Nat) (h : Heap) :
    setPtr p ptr h = .ok ((), h.set p ⟨ptr, (h.header p).size⟩) := by
  have hheader : (fun a => if a = p then { h.header a with ptr } else h.header a) =
      Function.update h.header p ⟨ptr, (h.header p).size⟩ := by
    funext a
    rw [Function.update_apply]
    split <;> simp_all
  change Except.ok ((), { h with header := _ }) = _
  rw [hheader, Heap.set]

theorem setSize_eq (p size : Nat) (h : Heap) :
    setSize p size h = .ok ((), h.set p ⟨(h.header p).ptr, size⟩) := by
  have hheader : (fun a => if a = p then { h.header a with size } else h.header a) =
      Function.update h.header p ⟨(h.header p).ptr, size⟩ := by
    funext a
    rw [Function.update_apply]
    split <;> simp_all
  change Except.ok ((), { h with header := _ }) = _
  rw [hheader, Heap.set]

theorem set_set (h : Heap) (p : Nat) (hd hd' : Header) : (h.set p hd).set p hd' = h.set p hd' := by
  simp [Heap.set]

theorem setSize_setPtr (p size ptr : Nat) (h : Heap) :
    (do setSize p size; setPtr p ptr : HeapM Unit) h = .ok ((), h.set p ⟨ptr, size⟩) := by
  change (setSize p size h >>= fun r => setPtr p ptr r.2) = _
  rw [setSize_eq]
  change setPtr p ptr _ = _
  rw [setPtr_eq, set_set, set_header_self]

theorem joinNext_eq (bp p : Nat) (h : Heap) : joinNext bp p h = .ok ((), h.set bp
    (if h.blockEnd bp = (h.header p).ptr then
      ⟨(h.header (h.header p).ptr).ptr,
        addSize (h.header bp).size (h.header (h.header p).ptr).size⟩
    else ⟨(h.header p).ptr, (h.header bp).size⟩)) := by
  change (if h.blockEnd bp = (h.header p).ptr then _ else _ : HeapM Unit) h = _
  split
  · exact setSize_setPtr _ _ _ _
  · exact setPtr_eq _ _ _

theorem joinPrev_eq (bp p : Nat) (h : Heap) : joinPrev bp p h = .ok ((), h.set p
    (if h.blockEnd p = bp then
      ⟨(h.header bp).ptr, addSize (h.header p).size (h.header bp).size⟩
    else ⟨bp, (h.header p).size⟩)) := by
  change (if h.blockEnd p = bp then _ else _ : HeapM Unit) h = _
  split
  · exact setSize_setPtr _ _ _ _
  · exact setPtr_eq _ _ _

structure Takes (base bp n : Nat) (h : Heap) (D B : List Nat) : Prop where
  size_le : (h.header bp).size ≤ n
  limit : bp + sizeofHeader * n ≤ sizeLimit
  gap : ∀ b ∈ B, bp + sizeofHeader * n < b
  own : Multiset.Ico bp (bp + sizeofHeader * n) =
    Multiset.Ico bp (h.blockEnd bp) + h.own D

theorem addSize_eq {m n a : Nat} (ha : 0 < a) (hlimit : a + sizeofHeader * (m + n) ≤ sizeLimit) :
    addSize m n = m + n := by
  apply Nat.mod_eq_of_lt
  rw [sizeofHeader, sizeLimit] at hlimit
  omega

namespace FreeList

theorem joinNext (hl : FreeList base h (A ++ p :: B)) (hbase : base < bp)
    (hB : ∀ b ∈ B, h.blockEnd bp ≤ b)
    (hlimit : ∀ a ∈ bp :: B, h.blockEnd a ≤ sizeLimit) :
    ∃ D B₁ n, B = D ++ B₁ ∧ Takes base bp n h D B₁ ∧
      Umalloc.joinNext bp p h = .ok ((), h.set bp ⟨B₁.headD base, n⟩) := by
  have hbp : h.blockEnd bp ≤ sizeLimit := hlimit bp List.mem_cons_self
  rw [joinNext_eq, hl.next]
  by_cases hjoin : h.blockEnd bp = B.headD base
  · rw [if_pos hjoin]
    cases B with
    | nil =>
        rw [List.headD_nil] at hjoin
        have hle := le_blockEnd h bp
        omega
    | cons b B =>
        rw [List.headD_cons] at hjoin ⊢
        have hnext : (h.header b).ptr = B.headD base := by
          rw [List.append_cons] at hl
          exact hl.next
        have hsum : bp + sizeofHeader * ((h.header bp).size + (h.header b).size) =
            h.blockEnd b := by
          rw [Heap.blockEnd, ← hjoin, Heap.blockEnd]
          ring
        have hb : h.blockEnd b ≤ sizeLimit :=
          hlimit b (List.mem_cons_of_mem bp List.mem_cons_self)
        refine ⟨[b], B, (h.header bp).size + (h.header b).size, rfl, ?_, ?_⟩
        · constructor
          case size_le => exact Nat.le_add_right _ _
          case limit => exact hsum.le.trans hb
          case gap =>
            rw [hsum]
            rw [List.append_cons] at hl
            exact hl.lt.2
          case own =>
            rw [hsum, own_cons, own_nil, add_zero, hjoin]
            exact (Multiset.Ico_add_Ico_eq_Ico (hjoin ▸ le_blockEnd h bp) (le_blockEnd h b)).symm
        · rw [hnext, addSize_eq (Nat.zero_lt_of_lt hbase) (hsum.le.trans hb)]
  · rw [if_neg hjoin]
    refine ⟨[], B, (h.header bp).size, rfl, ?_, rfl⟩
    constructor
    case size_le => exact le_rfl
    case limit => exact hbp
    case gap =>
      intro b hb
      change h.blockEnd bp < b
      cases B with
      | nil => cases hb
      | cons c B =>
          have hc : h.blockEnd bp < c :=
            lt_of_le_of_ne (hB c List.mem_cons_self) hjoin
          cases List.mem_cons.mp hb with
          | inl heq => exact heq ▸ hc
          | inr hb =>
              rw [List.append_cons] at hl
              exact hc.trans ((le_blockEnd h c).trans_lt (hl.lt.2 b hb))
    case own =>
      rw [own_nil, add_zero]
      rfl

variable {n : Nat} {D : List Nat}

theorem insert_apart (hl : FreeList base h (A ++ p :: (D ++ B))) (hbase : base < bp)
    (hn : 0 < n) (htakes : Takes base bp n h D B) (hgap : h.blockEnd p < bp)
    (hp : h'.header p = ⟨bp, (h.header p).size⟩) (hbp : h'.header bp = ⟨B.headD base, n⟩)
    (hsame : ∀ a ∈ A ++ B, h'.header a = h.header a) :
    FreeList base h' (A ++ p :: ([bp] ++ B)) ∧
      h'.own (A ++ p :: ([bp] ++ B)) =
        h.own (A ++ p :: (D ++ B)) + Multiset.Ico bp (h.blockEnd bp) := by
  have hendp : h'.blockEnd p = h.blockEnd p := blockEnd_congr (by rw [hp])
  have hendbp : h'.blockEnd bp = bp + sizeofHeader * n := by rw [Heap.blockEnd, hbp]
  constructor
  · apply hl.splice hsame
    · exact ⟨congrArg Header.ptr hp, congrArg Header.ptr hbp, trivial⟩
    · simpa [hendp] using hgap
    · intro c hc b hb
      have hb' := htakes.gap b hb
      simp only [List.mem_cons, List.not_mem_nil, or_false] at hc
      obtain rfl | rfl := hc
      · omega
      · omega
    · intro heq
      rw [hp]
      exact heq ▸ hl.zero
    · intro c hc hne
      simp only [List.mem_cons, List.not_mem_nil, or_false] at hc
      obtain rfl | rfl := hc
      · rw [hp]
        exact hl.pos c (List.mem_append_right _ List.mem_cons_self) hne
      · rw [hbp]
        exact hn
  · rw [← add_zero (h'.own _)]
    apply own_splice hsame
    rw [own_cons, own_cons, own_cons, own_nil, hendp, hendbp, htakes.own]
    abel

theorem insert_joined (hl : FreeList base h (A ++ p :: (D ++ B))) (hne : p ≠ base)
    (hn : 0 < n) (htakes : Takes base bp n h D B) (hjoin : h.blockEnd p = bp)
    (hp : h'.header p = ⟨B.headD base, (h.header p).size + n⟩)
    (hsame : ∀ a ∈ A ++ B, h'.header a = h.header a) :
    FreeList base h' (A ++ p :: ([] ++ B)) ∧
      h'.own (A ++ p :: ([] ++ B)) =
        h.own (A ++ p :: (D ++ B)) + Multiset.Ico bp (h.blockEnd bp) := by
  have hendp : h'.blockEnd p = bp + sizeofHeader * n := by
    rw [Heap.blockEnd, hp, ← hjoin, Heap.blockEnd]
    ring
  constructor
  · apply hl.splice hsame
    · exact ⟨congrArg Header.ptr hp, trivial⟩
    · exact List.pairwise_singleton _ _
    · intro c hc b hb
      rw [List.mem_singleton.mp hc, hendp]
      exact htakes.gap b hb
    · intro heq
      exact absurd heq hne
    · intro c hc _
      rw [List.mem_singleton.mp hc, hp]
      exact Nat.add_pos_right _ hn
  · rw [← add_zero (h'.own _)]
    apply own_splice hsame
    have hsplit : Multiset.Ico p (bp + sizeofHeader * n) =
        Multiset.Ico p bp + Multiset.Ico bp (bp + sizeofHeader * n) :=
      (Multiset.Ico_add_Ico_eq_Ico (hjoin ▸ le_blockEnd h p) (Nat.le_add_right _ _)).symm
    rw [own_cons, own_cons, own_nil, hendp, hsplit, htakes.own, hjoin]
    abel

end FreeList

theorem free_eq {h₁ h₂ : Heap}
    (hsearch : freeSearch bp fuel h.freep h = .ok (p, h))
    (hnext : joinNext bp p h = .ok ((), h₁)) (hprev : joinPrev bp p h₁ = .ok ((), h₂)) :
    Umalloc.free fuel (bp + sizeofHeader) h = .ok ((), { h₂ with freep := p }) := by
  have hbp : bp + sizeofHeader - sizeofHeader = bp := Nat.add_sub_cancel _ _
  change (freeSearch (bp + sizeofHeader - sizeofHeader) fuel h.freep h >>= fun r =>
    joinNext (bp + sizeofHeader - sizeofHeader) r.1 r.2 >>= fun r₁ =>
    joinPrev (bp + sizeofHeader - sizeofHeader) r.1 r₁.2 >>= fun r₂ =>
    setFreep r.1 r₂.2) = _
  rw [hbp, hsearch]
  change (joinNext bp p h >>= _) = _
  rw [hnext]
  change (joinPrev bp p h₁ >>= _) = _
  rw [hprev]
  rfl

structure Outside (base bp : Nat) (h : Heap) (l : List Nat) : Prop where
  above : base < bp
  pos : 0 < (h.header bp).size
  apart : ∀ a ∈ l, h.Apart a bp
  limit : ∀ a ∈ bp :: l, h.blockEnd a ≤ sizeLimit

theorem free_spec (hl : FreeList base h l) (hfreep : h.freep ∈ l) (hout : Outside base bp h l)
    (hfuel : l.length ≤ fuel) :
    ∃ h' l', Umalloc.free fuel (bp + sizeofHeader) h = .ok ((), h') ∧
      Freed base bp h h' l l' := by
  obtain ⟨A, p, B, rfl, hp, hendp, hB⟩ := hl.place hout.above hout.pos hout.apart
  have hBlt : ∀ b ∈ B, bp < b := fun b hb => (lt_blockEnd hout.pos).trans_le (hB b hb)
  have hsearch := hl.freeSearch hp hBlt hfreep hfuel
  have hlimit : ∀ a ∈ bp :: B, h.blockEnd a ≤ sizeLimit := by
    intro a ha
    apply hout.limit
    simp only [List.mem_cons, List.mem_append] at ha ⊢
    tauto
  obtain ⟨D, B₁, n, rfl, htakes, hnext⟩ := hl.joinNext hout.above hB hlimit
  have hn : 0 < n := hout.pos.trans_le htakes.size_le
  have hbelow : ∀ a ∈ A, a < p := fun a ha => (le_blockEnd h a).trans_lt (hl.lt.1 a ha)
  have hsame : ∀ hd hd' : Header, ∀ a ∈ A ++ B₁,
      ((h.set bp hd).set p hd').header a = h.header a := by
    intro hd hd' a ha
    have hne : a ≠ p ∧ a ≠ bp := by
      cases List.mem_append.mp ha with
      | inl ha =>
          have := hbelow a ha
          omega
      | inr ha =>
          have := hBlt a (List.mem_append_right D ha)
          omega
    rw [set_header_ne hne.1, set_header_ne hne.2]
  have hframe : ∀ hd hd' : Header, ∀ a, a ∉ A ++ p :: (D ++ B₁) → a ≠ bp →
      ((h.set bp hd).set p hd').header a = h.header a := by
    intro hd hd' a ha hne
    have hnep : a ≠ p := by
      rintro rfl
      exact ha (List.mem_append_right _ List.mem_cons_self)
    rw [set_header_ne hnep, set_header_ne hne]
  have hprev := joinPrev_eq bp p (h.set bp ⟨B₁.headD base, n⟩)
  have hends : (h.set bp ⟨B₁.headD base, n⟩).blockEnd p = h.blockEnd p :=
    blockEnd_congr (by rw [set_header_ne hp.ne])
  rw [hends, set_header_self, set_header_ne hp.ne] at hprev
  by_cases hjoin : h.blockEnd p = bp
  · have hpbase : p ≠ base := by
      rintro rfl
      rw [hl.blockEnd_base] at hjoin
      omega
    have hpos : 0 < p := by
      have hle := hl.base_le (List.mem_append_right A List.mem_cons_self)
      omega
    have hsum : p + sizeofHeader * ((h.header p).size + n) ≤ sizeLimit := by
      have hlim := htakes.limit
      rw [← hjoin, Heap.blockEnd] at hlim
      rw [Nat.mul_add]
      omega
    rw [if_pos hjoin, addSize_eq hpos hsum] at hprev
    refine ⟨_, A ++ p :: ([] ++ B₁), free_eq hsearch hnext hprev, ?_⟩
    have hself : (({ (h.set bp ⟨B₁.headD base, n⟩).set p
        ⟨B₁.headD base, (h.header p).size + n⟩ with freep := p } : Heap).header p) =
        ⟨B₁.headD base, (h.header p).size + n⟩ := set_header_self
    obtain ⟨hlist, hown⟩ := hl.insert_joined hpbase hn htakes hjoin hself (hsame _ _)
    constructor
    case list => exact hlist
    case freep => exact List.mem_append_right _ List.mem_cons_self
    case own => exact hown
    case same => exact hframe _ _
    case large =>
      refine ⟨p, List.mem_append_right _ List.mem_cons_self, ?_⟩
      change _ ≤ (((h.set bp _).set p _).header p).size
      rw [set_header_self]
      exact htakes.size_le.trans (Nat.le_add_left _ _)
    case length =>
      simp only [List.length_append, List.length_cons, List.length_nil]
      omega
    case regions => rfl
  · rw [if_neg hjoin] at hprev
    refine ⟨_, A ++ p :: ([bp] ++ B₁), free_eq hsearch hnext hprev, ?_⟩
    have hbp : ((h.set bp ⟨B₁.headD base, n⟩).set p ⟨bp, (h.header p).size⟩).header bp =
        ⟨B₁.headD base, n⟩ := by
      rw [set_header_ne hp.ne', set_header_self]
    have hself : (({ (h.set bp ⟨B₁.headD base, n⟩).set p ⟨bp, (h.header p).size⟩ with
        freep := p } : Heap).header p) = ⟨bp, (h.header p).size⟩ := set_header_self
    obtain ⟨hlist, hown⟩ := hl.insert_apart hout.above hn htakes (lt_of_le_of_ne hendp hjoin)
      hself hbp (hsame _ _)
    constructor
    case list => exact hlist
    case freep => exact List.mem_append_right _ List.mem_cons_self
    case own => exact hown
    case same => exact hframe _ _
    case large =>
      refine ⟨bp, by simp, ?_⟩
      rw [hbp]
      exact htakes.size_le
    case length =>
      simp only [List.length_append, List.length_cons, List.length_nil]
      omega
    case regions => rfl

end

end SyscallSched.Umalloc
