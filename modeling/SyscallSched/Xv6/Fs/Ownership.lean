import Mathlib.Order.Interval.Finset.Nat
import SyscallSched.Xv6.Fs.View

/-!
# Who owns the disk blocks

`Owned sb v d extra` is about all inodes `d` at once: the blocks they hold, together
with the blocks `extra` that are on their way from the bitmap to an inode or back, are
exactly the data blocks whose bit is set, each counted once.
-/

namespace SyscallSched.Xv6.Fs.Code

open SyscallSched.Foundation SyscallSched.Xv6.Fs

section

variable {sb : Superblock} {b c i : Nat} {v v' : Nat → Block}

theorem bblock_eq (h : sb.bblock c = sb.bblock b) : c % bpb = b % bpb ↔ c = b := by
  have hbpb : bpb = 8192 := by decide
  simp only [Superblock.bblock, hbpb] at *
  omega

theorem used_mark : sb.used (sb.mark v b) c = (sb.used v c || decide (c = b)) := by
  rw [Superblock.used, Superblock.used, Superblock.mark]
  by_cases hblock : sb.bblock c = sb.bblock b
  · simp [hblock, bitAt_markBit, bblock_eq hblock]
  · have hne : c ≠ b := by
      intro heq
      exact hblock (by rw [heq])
    simp [hblock, hne]

theorem used_clear : sb.used (sb.clear v b) c = (sb.used v c && decide (c ≠ b)) := by
  rw [Superblock.used, Superblock.used, Superblock.clear]
  by_cases hblock : sb.bblock c = sb.bblock b
  · simp [hblock, bitAt_clearBit, bblock_eq hblock]
  · have hne : c ≠ b := by
      intro heq
      exact hblock (by rw [heq])
    simp [hblock, hne]

theorem used_congr (h : v' (sb.bblock b) = v (sb.bblock b)) : sb.used v' b = sb.used v b := by
  rw [Superblock.used, Superblock.used, h]

end

/-! ## Ownership -/

/-- The blocks of inode `inum`, if it is allocated. -/
def share (v : Nat → Block) (d : Nat → Dinode) (inum : Nat) : Multiset Nat :=
  if (d inum).type = 0 then 0 else held v (d inum).addrs

def Superblock.usedData (sb : Superblock) (v : Nat → Block) : Finset Nat :=
  (Finset.Ico sb.dataStart sb.size).filter fun b => sb.used v b = true

structure Owned (sb : Superblock) (v : Nat → Block) (d : Nat → Dinode) (extra : Multiset Nat) :
    Prop where
  meta_used : MetaUsed sb v
  owned : ∑ inum ∈ Finset.range sb.ninodes, share v d inum + extra = (sb.usedData v).val

section

variable {sb : Superblock} {v v' : Nat → Block} {d d' : Nat → Dinode} {extra : Multiset Nat}
variable {b c i j inum x : Nat}

theorem share_congr (h : (d i).type ≠ 0 → (d i).addrs ndirect ≠ 0 →
    v' ((d i).addrs ndirect) = v ((d i).addrs ndirect)) : share v' d i = share v d i := by
  rw [share, share]
  by_cases htype : (d i).type = 0
  · simp [htype]
  · rw [if_neg htype, if_neg htype]
    apply held_congr
    intro hx k _
    rw [h htype hx]

theorem mem_usedData : b ∈ sb.usedData v ↔
    (sb.dataStart ≤ b ∧ b < sb.size) ∧ sb.used v b = true := by
  rw [Superblock.usedData, Finset.mem_filter, Finset.mem_Ico]

theorem usedData_congr (hbit : ∀ b, b < sb.size → v' (sb.bblock b) = v (sb.bblock b)) :
    sb.usedData v' = sb.usedData v := by
  ext b
  rw [mem_usedData, mem_usedData]
  constructor
  · intro hb
    rw [used_congr (hbit b hb.1.2)] at hb
    exact hb
  · intro hb
    rw [used_congr (hbit b hb.1.2)]
    exact hb

namespace Owned

theorem nodup (h : Owned sb v d extra) :
    (∑ inum ∈ Finset.range sb.ninodes, share v d inum + extra).Nodup := by
  rw [h.owned]
  exact (sb.usedData v).nodup

theorem mem_share (h : Owned sb v d extra) (hi : i < sb.ninodes) (hb : b ∈ share v d i) :
    b ∈ sb.usedData v := by
  have hsum : b ∈ ∑ inum ∈ Finset.range sb.ninodes, share v d inum :=
    Multiset.mem_of_le (share_le_sum (Finset.mem_range.mpr hi)) hb
  have hall : b ∈ (sb.usedData v).val := by
    rw [← h.owned]
    exact Multiset.mem_add.mpr (Or.inl hsum)
  exact hall

theorem mem_extra (h : Owned sb v d extra) (hb : b ∈ extra) : b ∈ sb.usedData v := by
  have hall : b ∈ (sb.usedData v).val := by
    rw [← h.owned]
    exact Multiset.mem_add.mpr (Or.inr hb)
  exact hall

theorem disjoint (h : Owned sb v d extra) (hi : i < sb.ninodes) (hj : j < sb.ninodes)
    (hij : i ≠ j) (hb : b ∈ share v d i) : b ∉ share v d j :=
  Multiset.disjoint_left.mp (shares_disjoint (Multiset.nodup_add.mp h.nodup).1
    (Finset.mem_range.mpr hi) (Finset.mem_range.mpr hj) hij) hb

theorem nodup_share (h : Owned sb v d extra) (hi : i < sb.ninodes) : (share v d i).Nodup :=
  Multiset.nodup_of_le (share_le_sum (Finset.mem_range.mpr hi))
    (Multiset.nodup_add.mp h.nodup).1

theorem indirect_mem (h : Owned sb v d extra) (hi : i < sb.ninodes) (htype : (d i).type ≠ 0)
    (hx : (d i).addrs ndirect ≠ 0) :
    (d i).addrs ndirect ∈ share v d i ∧ (d i).addrs ndirect ∈ sb.usedData v := by
  have hmem : (d i).addrs ndirect ∈ share v d i := by
    rw [share, if_neg htype]
    exact indirect_mem_held hx
  exact ⟨hmem, h.mem_share hi hmem⟩

theorem indirect_ge (h : Owned sb v d extra) (hi : i < sb.ninodes) (htype : (d i).type ≠ 0)
    (hx : (d i).addrs ndirect ≠ 0) : sb.dataStart ≤ (d i).addrs ndirect :=
  (mem_usedData.mp (h.indirect_mem hi htype hx).2).1.1

theorem congr (h : Owned sb v d extra)
    (hbit : ∀ b, b < sb.size → v' (sb.bblock b) = v (sb.bblock b))
    (hind : ∀ i, i < sb.ninodes → (d i).type ≠ 0 → (d i).addrs ndirect ≠ 0 →
      v' ((d i).addrs ndirect) = v ((d i).addrs ndirect)) : Owned sb v' d extra := by
  have hused := usedData_congr hbit
  constructor
  case meta_used =>
    intro b hb hlt
    rw [used_congr (hbit b hlt)]
    exact h.meta_used b hb hlt
  case owned =>
    have hsum : ∑ inum ∈ Finset.range sb.ninodes, share v' d inum =
        ∑ inum ∈ Finset.range sb.ninodes, share v d inum := by
      apply Finset.sum_congr rfl
      intro i hi
      exact share_congr (hind i (Finset.mem_range.mp hi))
    rw [hused, ← h.owned, hsum]

theorem store (h : Owned sb v d extra) (data : Block)
    (hbit : ∀ b, b < sb.size → sb.bblock b ≠ x)
    (hind : ∀ i, i < sb.ninodes → (d i).type ≠ 0 → (d i).addrs ndirect ≠ 0 →
      (d i).addrs ndirect ≠ x) : Owned sb (Function.update v x data) d extra := by
  apply h.congr
  · intro b hb
    exact Function.update_of_ne (hbit b hb) _ _
  · intro i hi htype hx
    exact Function.update_of_ne (hind i hi htype hx) _ _

theorem withInode (h : Owned sb v d extra) (hl : sb.Laid) (hinum : inum < sb.ninodes)
    (ip : Dinode) : Owned sb (sb.withInode v inum ip) d extra := by
  have hblock := iblock_lt hl hinum
  apply h.store
  · intro b _
    have hge := bblock_ge sb b
    omega
  · intro i hi htype hx
    have hge := h.indirect_ge hi htype hx
    have hdata := bmapstart_lt_dataStart sb
    omega

/-! ### From and to the bitmap -/

theorem filter_insert_val {s : Finset Nat} {p q : Nat → Bool} (hb : b ∈ s)
    (hpb : p b = false) (hq : ∀ c, q c = (p c || decide (c = b))) :
    (s.filter fun c => q c = true).val = b ::ₘ (s.filter fun c => p c = true).val := by
  have hnot : b ∉ s.filter fun c => p c = true := by simp [hpb]
  have hcons : (s.filter fun c => q c = true) =
      Finset.cons b (s.filter fun c => p c = true) hnot := by
    ext c
    simp only [Finset.mem_filter, Finset.mem_cons, hq, Bool.or_eq_true, decide_eq_true_eq]
    constructor
    · intro hc
      cases hc.2 with
      | inl hold => exact Or.inr ⟨hc.1, hold⟩
      | inr heq => exact Or.inl heq
    · intro hc
      cases hc with
      | inl heq =>
          rw [heq]
          exact ⟨hb, Or.inr rfl⟩
      | inr hold => exact ⟨hold.1, Or.inl hold.2⟩
  rw [hcons, Finset.cons_val]

/-- Bitmap blocks are not indirect blocks. -/
theorem indirect_ne_bblock (h : Owned sb v d extra) (hb : b < sb.size) (hi : i < sb.ninodes)
    (htype : (d i).type ≠ 0) (hx : (d i).addrs ndirect ≠ 0) :
    (d i).addrs ndirect ≠ sb.bblock b := by
  have hge := h.indirect_ge hi htype hx
  have hlt := bblock_lt hb
  omega

theorem rebit (h : Owned sb v d extra) {extra' : Multiset Nat} (hb : b < sb.size)
    (hv : ∀ c, c ≠ sb.bblock b → v' c = v c)
    (hmeta : ∀ c, c < sb.dataStart → c < sb.size → sb.used v' c = sb.used v c)
    (hused : (sb.usedData v').val + extra = (sb.usedData v).val + extra') :
    Owned sb v' d extra' := by
  have hsum : ∑ inum ∈ Finset.range sb.ninodes, share v' d inum =
      ∑ inum ∈ Finset.range sb.ninodes, share v d inum := by
    apply Finset.sum_congr rfl
    intro i hi
    apply share_congr
    intro htype hx
    exact hv _ (h.indirect_ne_bblock hb (Finset.mem_range.mp hi) htype hx)
  constructor
  case meta_used =>
    intro c hc hlt
    rw [hmeta c hc hlt]
    exact h.meta_used c hc hlt
  case owned =>
    rw [hsum]
    apply add_right_cancel (b := extra)
    rw [hused, ← h.owned]
    exact add_right_comm _ _ _

theorem allocated (h : Owned sb v d extra) (hb : Allocated sb v b v') :
    Owned sb v' d (b ::ₘ extra) := by
  have hge := h.meta_used.free_ge hb.lt hb.free
  have hmark : Owned sb (sb.mark v b) d (b ::ₘ extra) := by
    apply h.rebit hb.lt (fun c hc => Function.update_of_ne hc _ _)
    · intro c hc _
      have hne : c ≠ b := by omega
      rw [used_mark]
      simp [hne]
    · have hinsert := filter_insert_val (q := sb.used (sb.mark v b))
        (Finset.mem_Ico.mpr ⟨hge, hb.lt⟩) hb.free fun c => used_mark
      rw [Superblock.usedData, hinsert, Superblock.usedData, Multiset.cons_add,
        Multiset.add_cons]
  rw [hb.view]
  apply hmark.store
  · intro c hc
    have hlt := bblock_lt hc
    omega
  · intro i hi htype hx heq
    have hmem := (h.indirect_mem hi htype hx).2
    rw [heq] at hmem
    have hused := (mem_usedData.mp hmem).2
    rw [hb.free] at hused
    cases hused

theorem cleared (h : Owned sb v d (b ::ₘ extra)) : Owned sb (sb.clear v b) d extra := by
  have hmem := mem_usedData.mp (h.mem_extra (Multiset.mem_cons_self b extra))
  apply h.rebit hmem.1.2 (fun c hc => Function.update_of_ne hc _ _)
  · intro c hc _
    have hne : c ≠ b := by omega
    rw [used_clear]
    simp [hne]
  · have hinsert := filter_insert_val (s := Finset.Ico sb.dataStart sb.size)
      (p := sb.used (sb.clear v b)) (q := sb.used v) (Finset.mem_Ico.mpr hmem.1)
      (by rw [used_clear]; simp) fun c => by
        rw [used_clear]
        by_cases hc : c = b
        · simp [hc, hmem.2]
        · simp [hc]
    rw [Superblock.usedData, Superblock.usedData, hinsert, Multiset.cons_add,
      Multiset.add_cons]

/-! ### From and to an inode -/

theorem change (h : Owned sb v d extra) {extra' : Multiset Nat} (hinum : inum < sb.ninodes)
    (hbit : ∀ b, b < sb.size → v' (sb.bblock b) = v (sb.bblock b))
    (hother : ∀ i, i < sb.ninodes → i ≠ inum → share v' d' i = share v d i)
    (hpaid : extra' + share v' d' inum = extra + share v d inum) : Owned sb v' d' extra' := by
  have hused := usedData_congr hbit
  constructor
  case meta_used =>
    intro b hb hlt
    rw [used_congr (hbit b hlt)]
    exact h.meta_used b hb hlt
  case owned =>
    have hsum := stock_change_share (f := share v d) (g := share v' d')
      (Finset.mem_range.mpr hinum) (fun j hj hne => hother j (Finset.mem_range.mp hj) hne) hpaid
    rw [add_comm, hsum, add_comm, h.owned, hused]

end Owned

end

end SyscallSched.Xv6.Fs.Code
