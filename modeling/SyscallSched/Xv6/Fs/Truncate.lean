import SyscallSched.Xv6.Fs.Extend

/-!
# Ownership while a file is truncated

`itrunc` returns the blocks of an inode one by one.  For the time being the inode
counts as unallocated and its remaining blocks as on their way to the bitmap; that
they are all there is what keeps `bfree` from finding a free block.
-/

namespace SyscallSched.Xv6.Fs.Code

open SyscallSched.Foundation SyscallSched.Xv6.Fs

section

variable {E : Terms} {sb : Superblock} {v v' v'' : Nat → Block} {d : Nat → Dinode}
variable {ip ip' : Inode} {b x : Nat} {extra : Multiset Nat}

/-- Only bitmap blocks changed. -/
def BitmapOnly (sb : Superblock) (v v' : Nat → Block) : Prop :=
  ∀ x, (∀ b, b < sb.size → sb.bblock b ≠ x) → v' x = v x

theorem BitmapOnly.refl (sb : Superblock) (v : Nat → Block) : BitmapOnly sb v v :=
  fun _ _ => rfl

theorem BitmapOnly.trans (h : BitmapOnly sb v v') (h' : BitmapOnly sb v' v'') :
    BitmapOnly sb v v'' :=
  fun x hx => (h' x hx).trans (h x hx)

theorem bitmapOnly_clear (hb : b < sb.size) : BitmapOnly sb v (sb.clear v b) :=
  fun _ hx => Function.update_of_ne (hx b hb).symm _ _

theorem BitmapOnly.data (h : BitmapOnly sb v v') (hx : sb.dataStart ≤ x) : v' x = v x := by
  apply h
  intro b hb
  have hlt := bblock_lt hb
  omega

theorem BitmapOnly.inode (h : BitmapOnly sb v v') (hl : sb.Laid) {i : Nat}
    (hi : i < sb.ninodes) : v' (sb.iblock i) = v (sb.iblock i) := by
  apply h
  intro b _
  have hge := bblock_ge sb b
  have hlt := iblock_lt hl hi
  omega

theorem BitmapOnly.held {addrs : Nat → Nat} (h : BitmapOnly sb v v')
    (hx : addrs ndirect ≠ 0 → sb.dataStart ≤ addrs ndirect) : held v' addrs = held v addrs := by
  apply held_congr
  intro hx0 k _
  rw [h.data (hx hx0)]

/-- Freeing a block that is on its way. -/
theorem bfree_bind {β : Type} (hE : E.Logs sb.Writes) (hl : sb.Laid) {f : Unit → FsProg β}
    {Q : β → (Nat → Block) → Prop} (howned : Owned sb v d (b ::ₘ extra))
    (h : ∀ v', Owned sb v' d extra → BitmapOnly sb v v' → Does E (f ()) v' Q) :
    Does E (bfree sb b >>= f) v Q := by
  have hmem := mem_usedData.mp (howned.mem_extra (Multiset.mem_cons_self b extra))
  have hfree : Does E (bfree sb b) v fun _ v' => v' = sb.clear v b := bfree_does hE hl hmem.2 rfl
  apply hfree.bind
  intro _ v' hv'
  rw [hv']
  exact h _ howned.cleared (bitmapOnly_clear hmem.1.2)

/-! ## The direct blocks -/

structure DirectFreed (sb : Superblock) (v : Nat → Block) (d : Nat → Dinode) (is : List Nat)
    (ip ip' : Inode) (v' : Nat → Block) : Prop where
  owned : Owned sb v' d (held v' ip'.addrs)
  bitmap : BitmapOnly sb v v'
  same : ip' = { ip with addrs := ip'.addrs }
  freed : ∀ i ∈ is, ip'.addrs i = 0
  other : ∀ i, i ∉ is → ip'.addrs i = ip.addrs i

theorem freeDirect_does (hE : E.Logs sb.Writes) (hl : sb.Laid) {is : List Nat}
    (his : ∀ i ∈ is, i < ndirect)
    (h : Owned sb v d (held v ip.addrs)) :
    Does E (freeDirect sb is ip) v fun ip' v' => DirectFreed sb v d is ip ip' v' := by
  induction is generalizing v ip with
  | nil =>
      apply Does.pure
      exact { owned := h, bitmap := BitmapOnly.refl sb v, same := rfl,
              freed := by simp, other := fun _ _ => rfl }
  | cons i is ih =>
      have hi : i < ndirect := by
        apply his
        simp
      have his' : ∀ j ∈ is, j < ndirect := by
        intro j hj
        apply his
        simp [hj]
      rw [freeDirect]
      by_cases hzero : ip.addrs i = 0
      · rw [if_pos hzero]
        apply (ih his' h).imp
        intro ip' v' hdone
        constructor
        case owned => exact hdone.owned
        case bitmap => exact hdone.bitmap
        case same => exact hdone.same
        case freed =>
          intro j hj
          cases List.mem_cons.mp hj with
          | inr hmem => exact hdone.freed j hmem
          | inl heq =>
              rw [heq]
              by_cases hmem : i ∈ is
              · exact hdone.freed i hmem
              · rw [hdone.other i hmem, hzero]
        case other =>
          intro j hj
          apply hdone.other
          simp only [List.mem_cons, not_or] at hj
          exact hj.2
      · rw [if_neg hzero]
        have hheld : held v ip.addrs = ip.addrs i ::ₘ held v (ip.setAddr i 0).addrs := by
          have hset : held v (Function.update (ip.setAddr i 0).addrs i (ip.addrs i)) =
              ip.addrs i ::ₘ held v (ip.setAddr i 0).addrs :=
            held_setDirect hi (Function.update_self i 0 ip.addrs) hzero
          rw [← hset, Inode.setAddr, Function.update_idem, Function.update_eq_self]
        have hx : (ip.setAddr i 0).addrs ndirect ≠ 0 →
            sb.dataStart ≤ (ip.setAddr i 0).addrs ndirect := by
          intro hx0
          have hmem : (ip.setAddr i 0).addrs ndirect ∈ held v ip.addrs := by
            rw [hheld]
            exact Multiset.mem_cons_of_mem (indirect_mem_held hx0)
          exact (mem_usedData.mp (h.mem_extra hmem)).1.1
        rw [hheld] at h
        apply bfree_bind hE hl h
        intro v₁ howned hbitmap
        rw [← hbitmap.held hx] at howned
        apply (ih his' howned).imp
        intro ip' v' hdone
        constructor
        case owned => exact hdone.owned
        case bitmap => exact hbitmap.trans hdone.bitmap
        case same => exact hdone.same
        case freed =>
          intro j hj
          cases List.mem_cons.mp hj with
          | inr hmem => exact hdone.freed j hmem
          | inl heq =>
              rw [heq]
              by_cases hmem : i ∈ is
              · exact hdone.freed i hmem
              · rw [hdone.other i hmem]
                exact Function.update_self _ _ _
        case other =>
          intro j hj
          simp only [List.mem_cons, not_or] at hj
          rw [hdone.other j hj.2]
          exact Function.update_of_ne hj.1 _ _

/-! ## The indirect block -/

def entriesAt (a : Block) (js : List Nat) : Multiset Nat := (js.map fun j => slot (a.word j)).sum

theorem entriesAt_range (a : Block) : entriesAt a (List.range nindirect) = entries a := by
  rw [entriesAt, entries, Finset.sum_eq_multiset_sum]
  rfl

theorem freeEntries_does (hE : E.Logs sb.Writes) (hl : sb.Laid) {a : Block} {js : List Nat}
    (h : Owned sb v d (entriesAt a js + extra)) :
    Does E (freeEntries sb a js) v fun _ v' => Owned sb v' d extra ∧ BitmapOnly sb v v' := by
  induction js generalizing v with
  | nil =>
      apply Does.pure
      rw [entriesAt, List.map_nil, List.sum_nil, zero_add] at h
      exact ⟨h, BitmapOnly.refl sb v⟩
  | cons j js ih =>
      rw [entriesAt, List.map_cons, List.sum_cons] at h
      rw [freeEntries]
      by_cases hzero : a.word j = 0
      · rw [if_pos hzero]
        rw [hzero, slot_zero, zero_add] at h
        exact ih h
      · rw [if_neg hzero]
        rw [slot_of_ne_zero hzero, Multiset.singleton_add, Multiset.cons_add] at h
        apply bfree_bind hE hl h
        intro v₁ howned hbitmap
        apply (ih howned).imp
        intro _ v' hdone
        exact ⟨hdone.1, hbitmap.trans hdone.2⟩

theorem held_of_direct_free {addrs : Nat → Nat} (h : ∀ i, i < ndirect → addrs i = 0) :
    held v addrs = slot (addrs ndirect) + indirectSlots v (addrs ndirect) := by
  have hsum : ∑ j ∈ Finset.range ndirect, slot (addrs j) = 0 := by
    apply Finset.sum_eq_zero
    intro j hj
    rw [h j (Finset.mem_range.mp hj), slot_zero]
  rw [held, Finset.sum_range_succ, hsum, zero_add]

theorem freeIndirect_does (hE : E.Logs sb.Writes) (hl : sb.Laid)
    (h : Owned sb v d (held v ip.addrs))
    (hdirect : ∀ i, i < ndirect → ip.addrs i = 0) :
    Does E (freeIndirect sb ip) v fun ip' v' =>
      Owned sb v' d 0 ∧ BitmapOnly sb v v' ∧ ip' = ip.setAddr ndirect 0 := by
  rw [held_of_direct_free hdirect] at h
  rw [freeIndirect]
  by_cases hx : ip.addrs ndirect = 0
  · rw [if_pos hx]
    rw [hx, slot_zero, indirectSlots, if_pos rfl, zero_add] at h
    have hself : ip.setAddr ndirect 0 = ip := by
      rw [Inode.setAddr, ← hx, Function.update_eq_self]
    apply Does.pure
    exact ⟨h, BitmapOnly.refl sb v, hself.symm⟩
  · rw [if_neg hx]
    rw [slot_of_ne_zero hx, indirectSlots, if_neg hx, ← entriesAt_range, add_comm] at h
    apply bread_bind
    apply (freeEntries_does hE hl h).bind
    intro _ v₁ hentries
    apply brelse_bind
    have howned : Owned sb v₁ d (ip.addrs ndirect ::ₘ 0) := hentries.1
    apply bfree_bind hE hl howned
    intro v₂ howned₂ hbitmap₂
    apply Does.pure
    exact ⟨howned₂, hentries.2.trans hbitmap₂, rfl⟩

/-! ## All of the file -/

/-- The inode `ip` counts as unallocated, and its blocks as on their way. -/
theorem Settled.take (hs : Settled sb v) (h : Synced sb v ip) :
    Owned sb v (Function.update (sb.dinodeAt v) ip.inum {}) (held v ip.addrs) := by
  apply Owned.change hs h.inum_lt
  case hbit =>
    intro _ _
    rfl
  case hother =>
    intro i _ hne
    rw [share, share, Function.update_of_ne hne]
  case hpaid =>
    have hshare : share v (sb.dinodeAt v) ip.inum = held v ip.addrs := by
      rw [share, h.inode, if_neg h.type]
    rw [hshare, share, Function.update_self, if_pos rfl, add_zero, zero_add]

theorem Owned.place (h : Owned sb v (Function.update d ip.inum {}) 0)
    (hinum : ip.inum < sb.ninodes) {din : Dinode} (haddrs : ∀ i, i ≤ ndirect → din.addrs i = 0) :
    Owned sb v (Function.update d ip.inum din) 0 := by
  have hnone : held v din.addrs = 0 := by
    rw [held_of_direct_free fun i hi => haddrs i (Nat.le_of_lt hi),
      haddrs ndirect (Nat.le_refl _), slot_zero, indirectSlots, if_pos rfl, zero_add]
  apply h.change hinum
  case hbit =>
    intro _ _
    rfl
  case hother =>
    intro i _ hne
    rw [share, share, Function.update_of_ne hne, Function.update_of_ne hne]
  case hpaid =>
    have hempty : share v (Function.update d ip.inum din) ip.inum = 0 := by
      rw [share, Function.update_self, hnone]
      exact ite_self 0
    have hnone' : share v (Function.update d ip.inum {}) ip.inum = 0 := by
      rw [share, Function.update_self]
      exact if_pos rfl
    rw [hempty, hnone']

def Freed (sb : Superblock) (v : Nat → Block) (ip : Inode) (v' : Nat → Block) : Prop :=
  ∀ b, b < sb.size → (sb.used v' b = true ↔ sb.used v b = true ∧ b ∉ held v ip.addrs)

theorem freed_of_owned (hs : Settled sb v) (h : Synced sb v ip)
    (howned : Owned sb v' (Function.update (sb.dinodeAt v) ip.inum {}) 0)
    (hbitmap : BitmapOnly sb v v') : Freed sb v ip v' := by
  have htake := hs.take h
  have hsum : ∑ i ∈ Finset.range sb.ninodes,
        share v' (Function.update (sb.dinodeAt v) ip.inum {}) i =
      ∑ i ∈ Finset.range sb.ninodes, share v (Function.update (sb.dinodeAt v) ip.inum {}) i := by
    apply Finset.sum_congr rfl
    intro i hi
    apply share_congr
    intro htype hx
    exact hbitmap.data (htake.indirect_ge (Finset.mem_range.mp hi) htype hx)
  have hsplit : (sb.usedData v').val + held v ip.addrs = (sb.usedData v).val := by
    rw [← howned.owned, hsum, add_zero, htake.owned]
  have hnodup : ((sb.usedData v').val + held v ip.addrs).Nodup := by
    rw [hsplit]
    exact (sb.usedData v).nodup
  have hdisjoint := (Multiset.nodup_add.mp hnodup).2.2
  have hmem : ∀ b, b ∈ sb.usedData v ↔ b ∈ sb.usedData v' ∨ b ∈ held v ip.addrs := by
    intro b
    rw [← Finset.mem_val, ← hsplit, Multiset.mem_add, Finset.mem_val]
  intro b hb
  by_cases hdata : sb.dataStart ≤ b
  · have hbit : ∀ v, sb.used v b = true ↔ b ∈ sb.usedData v := by
      intro v
      rw [mem_usedData]
      exact ⟨fun hused => ⟨⟨hdata, hb⟩, hused⟩, fun hused => hused.2⟩
    rw [hbit, hbit, hmem]
    constructor
    · intro hleft
      exact ⟨Or.inl hleft, fun hheld => Multiset.disjoint_left.mp hdisjoint hleft hheld⟩
    · intro hboth
      cases hboth.1 with
      | inl hleft => exact hleft
      | inr hheld => exact absurd hheld hboth.2
  · have hmeta := Nat.lt_of_not_le hdata
    rw [howned.meta_used b hmeta hb, htake.meta_used b hmeta hb]
    simp only [true_and, true_iff]
    intro hheld
    exact hdata (mem_usedData.mp (htake.mem_extra hheld)).1.1

structure Truncated (sb : Superblock) (v : Nat → Block) (ip ip' : Inode) (v' : Nat → Block) :
    Prop where
  updated : Updated sb v ip ip' v'
  type : ip'.type = ip.type
  size : ip'.size = 0
  empty : ∀ i, i ≤ ndirect → ip'.addrs i = 0
  freed : Freed sb v ip v'

theorem truncated_withInode (hl : sb.Laid) (hs : Settled sb v) (h : Synced sb v ip)
    (hplaced : Owned sb v' (Function.update (sb.dinodeAt v) ip.inum ip'.toDinode) 0)
    (howned : Owned sb v' (Function.update (sb.dinodeAt v) ip.inum {}) 0)
    (hbitmap : BitmapOnly sb v v') (hinum : ip'.inum = ip.inum) (htype : ip'.type = ip.type)
    (hsize : ip'.size = 0) (hempty : ∀ i, i ≤ ndirect → ip'.addrs i = 0)
    (hfits : ip'.toDinode.Fits) :
    Truncated sb v ip ip' (sb.withInode v' ip'.inum ip'.toDinode) := by
  rw [hinum]
  constructor
  case updated =>
    apply updated_withInode hl h.inum_lt hinum hfits hplaced
    intro i hi
    exact hbitmap.inode hl hi
  case type => exact htype
  case size => exact hsize
  case empty => exact hempty
  case freed =>
    have hfreed := freed_of_owned hs h howned hbitmap
    intro b hb
    rw [used_congr, hfreed b hb]
    have hge := bblock_ge sb b
    have hlt := iblock_lt hl h.inum_lt
    rw [Superblock.withInode, Function.update_of_ne (by omega)]

theorem itrunc_does (hE : E.Logs sb.Writes) (hl : sb.Laid) (hs : Settled sb v)
    (h : Synced sb v ip) : Does E (itrunc sb ip) v fun ip' v' => Truncated sb v ip ip' v' := by
  have hediting := h.editing hl hs
  have hrange : ∀ i ∈ List.range ndirect, i < ndirect := fun i hi => List.mem_range.mp hi
  rw [itrunc]
  apply (freeDirect_does hE hl hrange (hs.take h)).bind
  intro ip₁ v₁ hfirst
  have hdirect : ∀ i, i < ndirect → ip₁.addrs i = 0 := fun i hi =>
    hfirst.freed i (List.mem_range.mpr hi)
  apply (freeIndirect_does hE hl hfirst.owned hdirect).bind
  intro ip₂ v₂ hsecond
  obtain ⟨howned, hbitmap, rfl⟩ := hsecond
  have hbitmap₂ := hfirst.bitmap.trans hbitmap
  have hempty : ∀ i, i ≤ ndirect → (ip₁.setAddr ndirect 0).addrs i = 0 := by
    intro i hi
    by_cases heq : i = ndirect
    · simp [heq]
    · simp [heq, hdirect i (by omega)]
  have hbeyond : ∀ i, ndirect < i → (ip₁.setAddr ndirect 0).addrs i = 0 := by
    intro i hi
    have hnot : i ∉ List.range ndirect := by simp; omega
    rw [addrs_setAddr, Function.update_of_ne (Nat.ne_of_gt hi), hfirst.other i hnot]
    exact hediting.fits.beyond i hi
  have hinum : ip₁.inum = ip.inum := by rw [hfirst.same]
  have htype : ip₁.type = ip.type := by rw [hfirst.same]
  have hfits : ((ip₁.setAddr ndirect 0).withSize 0).toDinode.Fits := by
    have hold := hediting.fits
    constructor
    case type => exact htype ▸ hold.type
    case major => rw [hfirst.same]; exact hold.major
    case minor => rw [hfirst.same]; exact hold.minor
    case nlink => rw [hfirst.same]; exact hold.nlink
    case size => simp [Inode.withSize]
    case addrs =>
      intro i
      have hzero : (ip₁.setAddr ndirect 0).addrs i = 0 := by
        cases Nat.lt_or_ge ndirect i with
        | inl hgt => exact hbeyond i hgt
        | inr hle => exact hempty i hle
      change (ip₁.setAddr ndirect 0).addrs i < 2 ^ 32
      rw [hzero]
      decide
    case beyond => exact hbeyond
  apply iupdate_bind hE
  apply Does.pure
  exact truncated_withInode hl hs h (howned.place h.inum_lt hempty) howned hbitmap₂ hinum htype
    rfl hempty hfits

theorem freeInode_does (hE : E.Logs sb.Writes) (hl : sb.Laid) (hs : Settled sb v)
    (h : Synced sb v ip) :
    Does E (freeInode sb ip) v fun ip' v' =>
      Updated sb v ip ip' v' ∧ ip'.type = 0 ∧ Freed sb v ip v' := by
  rw [freeInode]
  apply (itrunc_does hE hl hs h).bind
  intro ip₁ v₁ htrunc
  have hupdated := htrunc.updated
  have hinum : (ip₁.withType 0).inum = ip.inum := hupdated.inum
  have hsynced : Synced sb v₁ ip₁ := by
    constructor
    case inode =>
      rw [hupdated.inum]
      exact hupdated.inode
    case inum_lt =>
      rw [hupdated.inum]
      exact h.inum_lt
    case type =>
      rw [htrunc.type]
      exact h.type
  have hediting := hsynced.editing hl hupdated.settled
  have hfits : (ip₁.withType 0).toDinode.Fits := { hediting.fits with type := Nat.two_pow_pos 16 }
  have hempty : ∀ i, i ≤ ndirect → (ip₁.withType 0).addrs i = 0 := htrunc.empty
  have hnone : held v₁ ip₁.addrs = 0 := by
    rw [held_of_direct_free fun i hi => htrunc.empty i (Nat.le_of_lt hi),
      htrunc.empty ndirect (Nat.le_refl _), slot_zero, indirectSlots, if_pos rfl, zero_add]
  have htake := Settled.take hupdated.settled hsynced
  rw [hnone] at htake
  have hplaced := htake.place hsynced.inum_lt hempty
  have hfinal : Updated sb v₁ ip₁ (ip₁.withType 0)
      (sb.withInode v₁ ip₁.inum (ip₁.withType 0).toDinode) :=
    updated_withInode hl hsynced.inum_lt rfl hfits hplaced fun _ _ => rfl
  apply iupdate_bind hE
  apply Does.pure
  refine ⟨hupdated.trans hfinal, rfl, ?_⟩
  intro b hb
  have hge := bblock_ge sb b
  have hlt := iblock_lt hl hsynced.inum_lt
  change sb.used (sb.withInode v₁ ip₁.inum _) b = true ↔ _
  rw [used_congr, htrunc.freed b hb]
  rw [Superblock.withInode, Function.update_of_ne (by omega)]

end

end SyscallSched.Xv6.Fs.Code
