import SyscallSched.Xv6.Fs.Layout

/-!
# The bytes of a file

What an inode's blocks hold.  `mkfs` writes this content and `readi` reads it.
-/

namespace SyscallSched.Xv6.Fs

open SyscallSched.Foundation

def byteAt (image : Nat → Block) (addrs : Nat → Nat) (o : Nat) : Nat :=
  image (blockAt image addrs (o / bsize)) (o % bsize)

def contentOf (image : Nat → Block) (d : Dinode) : List Nat :=
  (List.range d.size).map (byteAt image d.addrs)

section

variable {image image' : Nat → Block} {addrs : Nat → Nat} {i j : Nat} {d d' : Dinode}

@[simp] theorem length_contentOf : (contentOf image d).length = d.size := by
  simp [contentOf]

theorem contentOf_congr (hsize : d'.size = d.size)
    (h : ∀ o, o < d.size → byteAt image' d'.addrs o = byteAt image d.addrs o) :
    contentOf image' d' = contentOf image d := by
  rw [contentOf, contentOf, hsize]
  apply List.map_congr_left
  intro o ho
  exact h o (List.mem_range.mp ho)

theorem contentOf_append {p : List Nat} (hsize : d'.size = d.size + p.length)
    (hold : ∀ o, o < d.size → byteAt image' d'.addrs o = byteAt image d.addrs o)
    (hnew : ∀ k, k < p.length → byteAt image' d'.addrs (d.size + k) = p.getD k 0) :
    contentOf image' d' = contentOf image d ++ p := by
  have hp : (List.range p.length).map (fun k => byteAt image' d'.addrs (d.size + k)) = p := by
    apply List.ext_getElem
    · simp
    · intro k hk hk'
      rw [List.getElem_map, List.getElem_range, hnew k hk', List.getD_eq_getElem?_getD,
        List.getElem?_eq_getElem hk', Option.getD_some]
  rw [contentOf, hsize, List.range_add, List.map_append, List.map_map]
  congr 1
  exact List.map_congr_left fun o ho => hold o (List.mem_range.mp ho)

/-- Equal places of a sum without duplicates are the same place. -/
theorem slot_injective {n : Nat} {f : Nat → Nat}
    (h : (∑ k ∈ Finset.range n, slot (f k)).Nodup) (hi : i < n) (hj : j < n) (hne : f i ≠ 0)
    (heq : f i = f j) : i = j := by
  by_contra hij
  have hdisj := shares_disjoint h (Finset.mem_range.mpr hi) (Finset.mem_range.mpr hj) hij
  rw [← heq] at hdisj
  exact Multiset.disjoint_left.mp hdisj (mem_slot hne) (mem_slot hne)

theorem blockAt_injective (h : (held image addrs).Nodup) (hi : i < maxFile) (hj : j < maxFile)
    (hne : blockAt image addrs i ≠ 0) (heq : blockAt image addrs i = blockAt image addrs j) :
    i = j := by
  have hdirect : ∀ {i}, i < ndirect → blockAt image addrs i ≠ 0 →
      blockAt image addrs i ∈ ∑ j ∈ Finset.range (ndirect + 1), slot (addrs j) := by
    intro i hi hne
    rw [blockAt_direct hi] at hne ⊢
    exact Multiset.mem_of_le
      (share_le_sum (f := fun j => slot (addrs j)) (Finset.mem_range.mpr (Nat.lt_succ_of_lt hi)))
      (mem_slot hne)
  have hindirect : ∀ {i}, ndirect ≤ i → i < maxFile → blockAt image addrs i ≠ 0 →
      blockAt image addrs i ∈ indirectSlots image (addrs ndirect) := by
    intro i hge hi hne
    have hx : addrs ndirect ≠ 0 := fun hx => hne (blockAt_none hge hx)
    rw [blockAt_indirect hge hx] at hne ⊢
    rw [indirectSlots, if_neg hx]
    rw [maxFile] at hi
    exact Multiset.mem_of_le (share_le_sum
      (f := fun k => slot ((image (addrs ndirect)).word k))
      (Finset.mem_range.mpr (by omega : i - ndirect < nindirect))) (mem_slot hne)
  rw [held, Multiset.nodup_add] at h
  have hne' : blockAt image addrs j ≠ 0 := heq ▸ hne
  by_cases hid : i < ndirect
  · by_cases hjd : j < ndirect
    · rw [blockAt_direct hid] at hne heq
      rw [blockAt_direct hjd] at heq
      exact slot_injective h.1 (Nat.lt_succ_of_lt hid) (Nat.lt_succ_of_lt hjd) hne heq
    · exact absurd (heq ▸ hindirect (Nat.le_of_not_lt hjd) hj hne')
        (Multiset.disjoint_left.mp h.2.2 (hdirect hid hne))
  · have hige := Nat.le_of_not_lt hid
    by_cases hjd : j < ndirect
    · exact absurd (heq.symm ▸ hindirect hige hi hne)
        (Multiset.disjoint_left.mp h.2.2 (hdirect hjd hne'))
    · have hjge := Nat.le_of_not_lt hjd
      have hx : addrs ndirect ≠ 0 := fun hx => hne (blockAt_none hige hx)
      have hentries := h.2.1
      rw [indirectSlots, if_neg hx, entries] at hentries
      rw [blockAt_indirect hige hx] at hne heq
      rw [blockAt_indirect hjge hx] at heq
      rw [maxFile] at hi hj
      have hsame := slot_injective (f := (image (addrs ndirect)).word) hentries
        (by omega : i - ndirect < nindirect) (by omega : j - ndirect < nindirect) hne heq
      omega

end

/-! ## Writing -/

def KeepsPlaces (image : Nat → Block) (addrs : Nat → Nat) (image' : Nat → Block)
    (addrs' : Nat → Nat) : Prop :=
  ∀ fbn, fbn < maxFile → blockAt image addrs fbn ≠ 0 →
    blockAt image' addrs' fbn = blockAt image addrs fbn

structure KeepsBlocks (image : Nat → Block) (addrs : Nat → Nat) (image' : Nat → Block)
    (addrs' : Nat → Nat) : Prop where
  places : KeepsPlaces image addrs image' addrs'
  data : ∀ fbn, fbn < maxFile → blockAt image addrs fbn ≠ 0 →
    image' (blockAt image addrs fbn) = image (blockAt image addrs fbn)

/-- The bytes from `off` up to `e` are those of `src`, and the others as before. -/
structure Overwrites (image : Nat → Block) (addrs : Nat → Nat) (image' : Nat → Block)
    (addrs' : Nat → Nat) (off e : Nat) (src : Nat → Nat) : Prop where
  old : ∀ o, o / bsize < maxFile → blockAt image addrs (o / bsize) ≠ 0 → o < off ∨ e ≤ o →
    byteAt image' addrs' o = byteAt image addrs o
  present : ∀ o, off ≤ o → o < e →
    o / bsize < maxFile ∧ blockAt image' addrs' (o / bsize) ≠ 0
  new : ∀ o, off ≤ o → o < e → byteAt image' addrs' o = src o

section

variable {image image₁ image' : Nat → Block} {addrs addrs₁ addrs' : Nat → Nat}
  {src : Nat → Nat} {off mid e bn : Nat} {bs : List Nat}

theorem KeepsPlaces.refl (image : Nat → Block) (addrs : Nat → Nat) :
    KeepsPlaces image addrs image addrs := fun _ _ _ => rfl

theorem KeepsPlaces.trans (h : KeepsPlaces image addrs image₁ addrs₁)
    (h' : KeepsPlaces image₁ addrs₁ image' addrs') : KeepsPlaces image addrs image' addrs' := by
  intro fbn hfbn hblock
  have hsame := h fbn hfbn hblock
  rw [← hsame] at hblock
  rw [h' fbn hfbn hblock, hsame]

theorem KeepsBlocks.refl (image : Nat → Block) (addrs : Nat → Nat) :
    KeepsBlocks image addrs image addrs := ⟨KeepsPlaces.refl image addrs, fun _ _ _ => rfl⟩

theorem KeepsBlocks.trans (h : KeepsBlocks image addrs image₁ addrs₁)
    (h' : KeepsBlocks image₁ addrs₁ image' addrs') : KeepsBlocks image addrs image' addrs' := by
  refine ⟨h.places.trans h'.places, ?_⟩
  intro fbn hfbn hblock
  have hsame := h.places fbn hfbn hblock
  have hdata := h'.data fbn hfbn (by rw [hsame]; exact hblock)
  rw [hsame] at hdata
  rw [hdata, h.data fbn hfbn hblock]

theorem KeepsBlocks.of_held (h : ∀ x ∈ held image addrs, image' x = image x)
    (haddrs : ∀ j, addrs j ≠ 0 → addrs' j = addrs j) :
    KeepsBlocks image addrs image' addrs' := by
  constructor
  case places =>
      intro fbn hfbn hblock
      by_cases hdirect : fbn < ndirect
      · rw [blockAt_direct hdirect] at hblock ⊢
        rw [blockAt_direct hdirect, haddrs fbn hblock]
      · have hge := Nat.le_of_not_lt hdirect
        have hx : addrs ndirect ≠ 0 := fun hx => hblock (blockAt_none hge hx)
        rw [blockAt_indirect hge hx, blockAt_indirect hge (by rw [haddrs _ hx]; exact hx),
          haddrs _ hx, h _ (indirect_mem_held hx)]
  case data =>
      intro fbn hfbn hblock
      exact h _ (blockAt_mem_held hfbn hblock)

theorem KeepsBlocks.byte (h : KeepsBlocks image addrs image' addrs') {o : Nat}
    (hfbn : o / bsize < maxFile) (hblock : blockAt image addrs (o / bsize) ≠ 0) :
    byteAt image' addrs' o = byteAt image addrs o := by
  rw [byteAt, h.places _ hfbn hblock, h.data _ hfbn hblock, byteAt]

theorem KeepsBlocks.overwrites (h : KeepsBlocks image addrs image' addrs') :
    Overwrites image addrs image' addrs' off off src := by
  constructor
  case old =>
      intro o hfbn hblock _
      exact h.byte hfbn hblock
  case present =>
      intro o hlow hhigh
      omega
  case new =>
      intro o hlow hhigh
      omega

theorem Overwrites.trans (h : Overwrites image addrs image₁ addrs₁ off mid src)
    (hkeep : KeepsPlaces image addrs image₁ addrs₁)
    (hkeep' : KeepsPlaces image₁ addrs₁ image' addrs')
    (h' : Overwrites image₁ addrs₁ image' addrs' mid e src) (hmid : off ≤ mid) (he : mid ≤ e) :
    Overwrites image addrs image' addrs' off e src := by
  constructor
  case old =>
      intro o hfbn hblock hout
      have hsame := h.old o hfbn hblock (by omega)
      rw [← hkeep _ hfbn hblock] at hblock
      rw [h'.old o hfbn hblock (by omega), hsame]
  case present =>
      intro o hlow hhigh
      by_cases hfirst : o < mid
      · obtain ⟨hfbn, hblock⟩ := h.present o hlow hfirst
        refine ⟨hfbn, ?_⟩
        rw [hkeep' _ hfbn hblock]
        exact hblock
      · exact h'.present o (Nat.le_of_not_lt hfirst) hhigh
  case new =>
      intro o hlow hhigh
      by_cases hfirst : o < mid
      · obtain ⟨hfbn, hblock⟩ := h.present o hlow hfirst
        rw [h'.old o hfbn hblock (Or.inl hfirst)]
        exact h.new o hlow hfirst
      · exact h'.new o (Nat.le_of_not_lt hfirst) hhigh

theorem Overwrites.congr {src' : Nat → Nat} (h : Overwrites image addrs image' addrs' off e src)
    (hsrc : ∀ o, off ≤ o → o < e → src' o = src o) :
    Overwrites image addrs image' addrs' off e src' where
  old := h.old
  present := h.present
  new := fun o hlow hhigh => (h.new o hlow hhigh).trans (hsrc o hlow hhigh).symm

theorem overwrites_putBytes (h : (held image addrs).Nodup) (hbn : off / bsize < maxFile)
    (hblock : blockAt image addrs (off / bsize) ≠ 0) (hroom : e ≤ (off / bsize + 1) * bsize)
    (hkeep : KeepsPlaces image addrs image' addrs)
    (himage : image' = Function.update image (blockAt image addrs (off / bsize))
      (putBytes (image (blockAt image addrs (off / bsize))) (off % bsize)
        ((List.range (e - off)).map fun i => src (off + i)))) :
    Overwrites image addrs image' addrs off e src := by
  have hb : bsize = 1024 := rfl
  have hin : ∀ o, off ≤ o → o < e → o / bsize = off / bsize := by
    intro o hlow hhigh
    rw [hb] at hroom ⊢
    omega
  constructor
  case old =>
      intro o hfbn hpresent hout
      rw [byteAt, hkeep _ hfbn hpresent, byteAt, himage]
      by_cases hsame : o / bsize = off / bsize
      · rw [hsame, Function.update_self, putBytes, if_neg]
        rw [List.length_map, List.length_range]
        rw [hb] at hsame ⊢
        omega
      · rw [Function.update_of_ne]
        intro heq
        exact hsame (blockAt_injective h hfbn hbn hpresent heq)
  case present =>
      intro o hlow hhigh
      rw [hin o hlow hhigh, hkeep _ hbn hblock]
      exact ⟨hbn, hblock⟩
  case new =>
      intro o hlow hhigh
      have hdiv := hin o hlow hhigh
      have hoff : o % bsize - off % bsize = o - off := by
        rw [hb] at hdiv ⊢
        omega
      have hlt : o - off < e - off := by omega
      rw [byteAt, hdiv, hkeep _ hbn hblock, himage, Function.update_self, putBytes, if_pos]
      · rw [hoff, List.getD_eq_getElem?_getD, List.getElem?_map, List.getElem?_range hlt]
        simp [Nat.add_sub_of_le hlow]
      · rw [List.length_map, List.length_range]
        rw [hb] at hdiv ⊢
        omega

/-- `old` with `new` written at `off`. -/
def splice (old : List Nat) (off : Nat) (new : List Nat) : List Nat :=
  old.take off ++ new ++ old.drop (off + new.length)

theorem length_splice {old new : List Nat} (h : off ≤ old.length) :
    (splice old off new).length = max old.length (off + new.length) := by
  simp only [splice, List.length_append, List.length_take, List.length_drop]
  omega

theorem contentOf_overwrites {d d' : Dinode} {t : Nat}
    (h : Overwrites image d.addrs image' d'.addrs off (off + t) src) (hoff : off ≤ d.size)
    (hsize : d'.size = max d.size (off + t))
    (hblocks : ∀ o, o < d.size → o / bsize < maxFile ∧ blockAt image d.addrs (o / bsize) ≠ 0) :
    contentOf image' d' =
      splice (contentOf image d) off ((List.range t).map fun i => src (off + i)) := by
  have hlen : ((List.range t).map fun i => src (off + i)).length = t := by simp
  apply List.ext_getElem
  · rw [length_splice (by rw [length_contentOf]; exact hoff), hlen]
    simp [hsize]
  · intro o ho _
    rw [length_contentOf, hsize] at ho
    have hcontent : (contentOf image' d')[o] = byteAt image' d'.addrs o := by simp [contentOf]
    have hmin : min off d.size = off := Nat.min_eq_left hoff
    rw [hcontent]
    simp only [splice, List.getElem_append, List.length_append, List.length_take,
      length_contentOf, hlen, hmin]
    split
    case isTrue hin =>
        split
        case isTrue hlow =>
            obtain ⟨hfbn, hblock⟩ := hblocks o (by omega)
            rw [h.old o hfbn hblock (Or.inl hlow)]
            simp [contentOf]
        case isFalse hlow =>
            rw [h.new o (by omega) hin]
            simp [Nat.add_sub_of_le (Nat.le_of_not_lt hlow)]
    case isFalse hout =>
        obtain ⟨hfbn, hblock⟩ := hblocks o (by omega)
        rw [h.old o hfbn hblock (Or.inr (by omega))]
        simp [contentOf, Nat.add_sub_of_le (Nat.le_of_not_lt hout)]

end

end SyscallSched.Xv6.Fs
