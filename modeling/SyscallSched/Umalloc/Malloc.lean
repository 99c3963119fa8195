import SyscallSched.Umalloc.Free

/-!
# `malloc`

The loop goes around the list once and takes the first block that is large enough, or
calls `morecore` when it is back at `freep`.  Units are carved from the end of a block
that is larger than needed.
-/

namespace SyscallSched.Umalloc

open SyscallSched.Foundation

structure Carved (base bp nunits : Nat) (h h' : Heap) (l l' : List Nat) : Prop where
  list : FreeList base h' l'
  freep : h'.freep ∈ l'
  size : (h'.header bp).size = nunits
  own : h'.own l' + Multiset.Ico bp (h'.blockEnd bp) = h.own l
  same : ∀ a, a ∉ l → a ≠ bp → h'.header a = h.header a
  length : l'.length ≤ l.length
  regions : h'.regions = h.regions

section

variable {base bp w x y nunits : Nat} {h h' : Heap} {l A B : List Nat}

/-! ## One block -/

theorem carve_exact (hsize : (h.header x).size = nunits) : carve nunits w x h =
    .ok (x + sizeofHeader, { h.set w ⟨(h.header x).ptr, (h.header w).size⟩ with freep := w }) := by
  change (if (h.header x).size = nunits then (do setPtr w _; setFreep w; pure _ : HeapM Nat)
    else _) h = _
  rw [if_pos hsize]
  change (setPtr w (h.header x).ptr h >>= fun r => setFreep w r.2 >>= fun r => pure (_, r.2)) = _
  rw [setPtr_eq]
  rfl

theorem carve_tail (hsize : (h.header x).size ≠ nunits)
    (hy : y = x + sizeofHeader * ((h.header x).size - nunits)) (hne : y ≠ x) :
    carve nunits w x h = .ok (y + sizeofHeader,
      { (h.set x ⟨(h.header x).ptr, (h.header x).size - nunits⟩).set y
          ⟨(h.header y).ptr, nunits⟩ with freep := w }) := by
  change (if (h.header x).size = nunits then _
    else (do setSize x _; setSize _ nunits; setFreep w; pure _ : HeapM Nat)) h = _
  rw [if_neg hsize, ← hy]
  change (setSize x ((h.header x).size - nunits) h >>= fun r => setSize y nunits r.2 >>= fun r =>
    setFreep w r.2 >>= fun r => pure (_, r.2)) = _
  rw [setSize_eq]
  change (setSize y nunits (h.set x _) >>= fun r => setFreep w r.2 >>= fun r =>
    pure (_, r.2)) = _
  rw [setSize_eq, set_header_ne hne]
  rfl

namespace FreeList

theorem remove (hl : FreeList base h (A ++ w :: ([x] ++ B)))
    (hw : h'.header w = ⟨B.headD base, (h.header w).size⟩)
    (hx : (h'.header x).size = (h.header x).size)
    (hsame : ∀ a ∈ A ++ B, h'.header a = h.header a) :
    FreeList base h' (A ++ w :: ([] ++ B)) ∧
      h'.own (A ++ w :: ([] ++ B)) + Multiset.Ico x (h'.blockEnd x) =
        h.own (A ++ w :: ([x] ++ B)) := by
  have hendw : h'.blockEnd w = h.blockEnd w := blockEnd_congr (by rw [hw])
  constructor
  · apply hl.splice hsame
    · exact ⟨congrArg Header.ptr hw, trivial⟩
    · exact List.pairwise_singleton _ _
    · intro c hc b hb
      rw [List.mem_singleton.mp hc, hendw]
      exact hl.lt.2 b (List.mem_cons_of_mem x hb)
    · intro heq
      rw [hw]
      exact heq ▸ hl.zero
    · intro c hc hne
      rw [List.mem_singleton.mp hc] at hne ⊢
      rw [hw]
      exact hl.pos w (List.mem_append_right _ List.mem_cons_self) hne
  · rw [← add_zero (h.own _)]
    apply own_splice hsame
    rw [own_cons, own_cons, own_cons, own_nil, own_nil, hendw, blockEnd_congr hx]
    abel

theorem shrink {m : Nat} (hl : FreeList base h (A ++ w :: ([x] ++ B)))
    (hsize : (h.header x).size = m + nunits) (hm : 0 < m)
    (hw : h'.header w = h.header w) (hx : h'.header x = ⟨(h.header x).ptr, m⟩)
    (hy : y = x + sizeofHeader * m) (hy' : (h'.header y).size = nunits)
    (hsame : ∀ a ∈ A ++ B, h'.header a = h.header a) :
    FreeList base h' (A ++ w :: ([x] ++ B)) ∧
      h'.own (A ++ w :: ([x] ++ B)) + Multiset.Ico y (h'.blockEnd y) =
        h.own (A ++ w :: ([x] ++ B)) := by
  have hl' : FreeList base h ((A ++ [w]) ++ x :: B) := by
    rw [← List.append_cons]
    exact hl
  have hendw : h'.blockEnd w = h.blockEnd w := blockEnd_congr (by rw [hw])
  have hendx : h'.blockEnd x = y := by rw [Heap.blockEnd, hx, hy]
  have hendy : h'.blockEnd y = h.blockEnd x := by
    rw [Heap.blockEnd, hy', hy, Heap.blockEnd, hsize]
    ring
  constructor
  · apply hl.splice hsame
    · refine ⟨?_, ?_, trivial⟩
      · change (h'.header w).ptr = x
        rw [hw]
        exact hl.next
      · change (h'.header x).ptr = B.headD base
        rw [hx]
        exact hl'.next
    · rw [List.pairwise_pair, hendw]
      exact hl.lt.2 x List.mem_cons_self
    · intro c hc b hb
      simp only [List.mem_cons, List.not_mem_nil, or_false] at hc
      obtain rfl | rfl := hc
      · rw [hendw]
        exact hl.lt.2 b (List.mem_cons_of_mem x hb)
      · have hb' := hl'.lt.2 b hb
        have hle := le_blockEnd h' y
        omega
    · intro heq
      rw [hw]
      exact heq ▸ hl.zero
    · intro c hc hne
      simp only [List.mem_cons, List.not_mem_nil, or_false] at hc
      obtain rfl | rfl := hc
      · rw [hw]
        exact hl.pos c (List.mem_append_right _ List.mem_cons_self) hne
      · rw [hx]
        exact hm
  · rw [← add_zero (h.own _)]
    apply own_splice hsame
    have hsplit : Multiset.Ico x (h.blockEnd x) =
        Multiset.Ico x y + Multiset.Ico y (h.blockEnd x) :=
      (Multiset.Ico_add_Ico_eq_Ico (hendx ▸ le_blockEnd h' x) (hendy ▸ le_blockEnd h' y)).symm
    rw [own_cons, own_cons, own_nil, own_cons, own_cons, own_nil, hendw, hendx, hendy, hsplit]
    abel

theorem carve (hl : FreeList base h (A ++ w :: ([x] ++ B))) (hn : 0 < nunits)
    (hsize : nunits ≤ (h.header x).size) :
    ∃ bp h' l', Umalloc.carve nunits w x h = .ok (bp + sizeofHeader, h') ∧
      Carved base bp nunits h h' (A ++ w :: ([x] ++ B)) l' := by
  have hl' : FreeList base h ((A ++ [w]) ++ x :: B) := by
    rw [← List.append_cons]
    exact hl
  have hbelow : ∀ a ∈ A, a < w := fun a ha => (le_blockEnd h a).trans_lt (hl.lt.1 a ha)
  have hx : w < x := (le_blockEnd h w).trans_lt (hl.lt.2 x List.mem_cons_self)
  have hup : ∀ b ∈ B, h.blockEnd x < b := hl'.lt.2
  have hxend := le_blockEnd h x
  by_cases hexact : (h.header x).size = nunits
  · refine ⟨x, _, A ++ w :: ([] ++ B), carve_exact hexact, ?_⟩
    have hsame : ∀ a ∈ A ++ B,
        (h.set w ⟨(h.header x).ptr, (h.header w).size⟩).header a = h.header a := by
      intro a ha
      have hne : a ≠ w := by
        cases List.mem_append.mp ha with
        | inl ha => exact (hbelow a ha).ne
        | inr ha =>
            have := hup a ha
            omega
      exact set_header_ne hne
    have hw : ({ h.set w ⟨(h.header x).ptr, (h.header w).size⟩ with freep := w } : Heap).header w =
        ⟨B.headD base, (h.header w).size⟩ := by
      change (h.set w _).header w = _
      rw [set_header_self, hl'.next]
    have hxsize : ((h.set w ⟨(h.header x).ptr, (h.header w).size⟩).header x).size =
        (h.header x).size := by
      rw [set_header_ne hx.ne']
    obtain ⟨hlist, hown⟩ := hl.remove hw hxsize hsame
    constructor
    case list => exact hlist
    case freep => exact List.mem_append_right _ List.mem_cons_self
    case size => exact hxsize.trans hexact
    case own => exact hown
    case same =>
      intro a ha _
      refine set_header_ne (h := h) ?_
      rintro rfl
      exact ha (List.mem_append_right _ List.mem_cons_self)
    case length =>
      simp only [List.length_append, List.length_cons, List.length_nil]
      omega
    case regions => rfl
  · obtain ⟨m, hm⟩ : ∃ m, (h.header x).size = m + nunits :=
      ⟨(h.header x).size - nunits, by omega⟩
    have hpos : 0 < m := by omega
    have hsub : (h.header x).size - nunits = m := by omega
    have hend : h.blockEnd x = x + sizeofHeader * m + sizeofHeader * nunits := by
      rw [Heap.blockEnd, hm]
      ring
    obtain ⟨y, hy⟩ : ∃ y, y = x + sizeofHeader * m := ⟨_, rfl⟩
    have hxy : x < y ∧ y < h.blockEnd x := by
      rw [hend, hy, sizeofHeader]
      omega
    have hcarve := carve_tail (w := w) hexact (by rw [hsub]; exact hy) hxy.1.ne'
    rw [hsub] at hcarve
    refine ⟨y, _, A ++ w :: ([x] ++ B), hcarve, ?_⟩
    have hother : ∀ a, a ≠ x → a ≠ y → ((h.set x ⟨(h.header x).ptr, m⟩).set y
        ⟨(h.header y).ptr, nunits⟩).header a = h.header a := by
      intro a hax hay
      rw [set_header_ne hay, set_header_ne hax]
    have hsame : ∀ a ∈ A ++ B, ((h.set x ⟨(h.header x).ptr, m⟩).set y
        ⟨(h.header y).ptr, nunits⟩).header a = h.header a := by
      intro a ha
      have hne : a ≠ x ∧ a ≠ y := by
        cases List.mem_append.mp ha with
        | inl ha =>
            have := hbelow a ha
            omega
        | inr ha =>
            have := hup a ha
            omega
      exact hother a hne.1 hne.2
    have hxhead : ({ (h.set x ⟨(h.header x).ptr, m⟩).set y ⟨(h.header y).ptr, nunits⟩ with
        freep := w } : Heap).header x = ⟨(h.header x).ptr, m⟩ := by
      change ((h.set x _).set y _).header x = _
      rw [set_header_ne hxy.1.ne, set_header_self]
    have hysize : (((h.set x ⟨(h.header x).ptr, m⟩).set y
        ⟨(h.header y).ptr, nunits⟩).header y).size = nunits := by
      rw [set_header_self]
    have hwhead : ({ (h.set x ⟨(h.header x).ptr, m⟩).set y ⟨(h.header y).ptr, nunits⟩ with
        freep := w } : Heap).header w = h.header w :=
      hother w hx.ne (by omega)
    obtain ⟨hlist, hown⟩ := hl.shrink hm hpos hwhead hxhead hy hysize hsame
    constructor
    case list => exact hlist
    case freep => exact List.mem_append_right _ List.mem_cons_self
    case size => exact hysize
    case own => exact hown
    case same =>
      intro a ha hay
      refine hother a ?_ hay
      rintro rfl
      exact ha (List.mem_append_right _ (List.mem_cons_of_mem w List.mem_cons_self))
    case length => exact le_rfl
    case regions => rfl

end FreeList

/-! ## The loop -/

section

variable (sbrk : Sbrk)

/-- What the loop does when it is back at `freep`. -/
def refill (nunits fuel : Nat) : HeapM Nat := do
  let p ← morecore sbrk fuel nunits
  if p = 0 then
    pure 0
  else do
    let h ← get
    mallocLoop sbrk nunits fuel p (h.header p).ptr

theorem mallocLoop_succ (nunits fuel w x : Nat) (h : Heap) :
    mallocLoop sbrk nunits (fuel + 1) w x h =
      if (h.header x).size ≥ nunits then carve nunits w x h
      else if x = h.freep then refill sbrk nunits fuel h
      else mallocLoop sbrk nunits fuel x (h.header x).ptr h := by
  change (if (h.header x).size ≥ nunits then carve nunits w x
    else if x = h.freep then refill sbrk nunits fuel
    else mallocLoop sbrk nunits fuel x (h.header x).ptr : HeapM Nat) h = _
  split
  · rfl
  · split <;> rfl

theorem mallocLoop_scan {fuel : Nat} {rest : List Nat} (nunits : Nat)
    (hpath : Path (fun a => (h.header a).ptr) (w :: rest) h.freep) (hrest : h.freep ∉ rest)
    (hfuel : rest.length + 1 ≤ fuel) :
    (∃ v ∈ w :: rest, nunits ≤ (h.header (h.header v).ptr).size ∧
      mallocLoop sbrk nunits fuel w (h.header w).ptr h = carve nunits v (h.header v).ptr h) ∨
    (∀ x ∈ h.freep :: rest, (h.header x).size < nunits) ∧
      mallocLoop sbrk nunits fuel w (h.header w).ptr h =
        refill sbrk nunits (fuel - (rest.length + 1)) h := by
  induction rest generalizing w fuel with
  | nil =>
      obtain ⟨fuel, rfl⟩ := Nat.exists_eq_add_of_le' hfuel
      have hnext : (h.header w).ptr = h.freep := hpath.1
      rw [hnext, List.length_nil, Nat.zero_add, Nat.add_sub_cancel, mallocLoop_succ]
      by_cases hsize : (h.header h.freep).size ≥ nunits
      · rw [if_pos hsize]
        exact .inl ⟨w, List.mem_cons_self, hnext ▸ hsize, by rw [hnext]⟩
      · rw [if_neg hsize, if_pos rfl]
        refine .inr ⟨?_, rfl⟩
        intro x hx
        rw [List.mem_singleton.mp hx]
        exact Nat.lt_of_not_le hsize
  | cons x rest ih =>
      obtain ⟨fuel, rfl⟩ := Nat.exists_eq_add_of_le' (Nat.one_le_of_lt hfuel)
      have hnext : (h.header w).ptr = x := hpath.1
      have hx : x ≠ h.freep := fun heq => hrest (heq ▸ List.mem_cons_self)
      rw [hnext, mallocLoop_succ]
      by_cases hsize : (h.header x).size ≥ nunits
      · rw [if_pos hsize]
        exact .inl ⟨w, List.mem_cons_self, hnext ▸ hsize, by rw [hnext]⟩
      · rw [if_neg hsize, if_neg hx]
        have hlength : fuel + 1 - ((x :: rest).length + 1) = fuel - (rest.length + 1) := by
          rw [List.length_cons]
          omega
        rw [hlength]
        have hih := ih hpath.2 (fun hmem => hrest (List.mem_cons_of_mem x hmem))
          (Nat.le_of_succ_le_succ hfuel)
        cases hih with
        | inl hfound =>
            obtain ⟨v, hv, hlarge, heq⟩ := hfound
            exact .inl ⟨v, List.mem_cons_of_mem w hv, hlarge, heq⟩
        | inr hnone =>
            refine .inr ⟨?_, hnone.2⟩
            intro y hy
            simp only [List.mem_cons] at hy
            obtain hy | hy | hy := hy
            · exact hnone.1 y (hy ▸ List.mem_cons_self)
            · exact hy ▸ Nat.lt_of_not_le hsize
            · exact hnone.1 y (List.mem_cons_of_mem _ hy)

theorem FreeList.scan {fuel : Nat} (hl : FreeList base h l) (hfreep : h.freep ∈ l)
    (hn : 0 < nunits) (hfuel : l.length ≤ fuel) :
    (∃ bp h' l', mallocLoop sbrk nunits fuel h.freep (h.header h.freep).ptr h =
      .ok (bp + sizeofHeader, h') ∧ Carved base bp nunits h h' l l') ∨
    (∀ x ∈ l, (h.header x).size < nunits) ∧
      mallocLoop sbrk nunits fuel h.freep (h.header h.freep).ptr h =
        refill sbrk nunits (fuel - l.length) h := by
  obtain ⟨A, B, hsplit⟩ := List.append_of_mem hfreep
  have hround := (hsplit ▸ hl).round
  have hmem : ∀ a, a ∈ h.freep :: (B ++ A) ↔ a ∈ l := by
    intro a
    rw [hsplit]
    simp only [List.mem_append, List.mem_cons]
    tauto
  have hlength : (B ++ A).length + 1 = l.length := by
    rw [hsplit]
    simp only [List.length_append, List.length_cons]
    omega
  have honce : h.freep ∉ B ++ A := by
    have hnodup := hl.nodup
    rw [hsplit, List.nodup_middle, List.nodup_cons] at hnodup
    intro hin
    apply hnodup.1
    rw [List.mem_append] at hin ⊢
    exact hin.symm
  have hscan := mallocLoop_scan sbrk nunits hround honce (hlength ▸ hfuel)
  rw [hlength] at hscan
  cases hscan with
  | inl hfound =>
      obtain ⟨v, hv, hlarge, heq⟩ := hfound
      obtain ⟨A₁, B₁, rfl⟩ := List.append_of_mem ((hmem v).mp hv)
      cases B₁ with
      | nil =>
          -- behind the last block there is `base`, of size 0
          rw [hl.next, List.headD_nil, hl.zero] at hlarge
          omega
      | cons x B₁ =>
          have hnext := hl.next
          rw [List.headD_cons] at hnext
          rw [hnext] at hlarge heq
          obtain ⟨bp, h', l', hcarve, hcarved⟩ :=
            FreeList.carve (A := A₁) (w := v) (x := x) (B := B₁) hl hn hlarge
          exact .inl ⟨bp, h', l', heq.trans hcarve, hcarved⟩
  | inr hnone => exact .inr ⟨fun x hx => hnone.1 x ((hmem x).mpr hx), hnone.2⟩

end

end

end SyscallSched.Umalloc
