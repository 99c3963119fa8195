import SyscallSched.Xv6.Fs.Content
import SyscallSched.Xv6.Fs.Ownership

/-!
# Ownership while a file is written

A function that changes a locked inode works on the copy in memory, and `iupdate`
stores that copy at the end.  `Editing` is the state in between: ownership holds
with the copy in the place of the inode on the disk, also where the allocation
stops half-way.
-/

namespace SyscallSched.Xv6.Fs.Code

open SyscallSched.Foundation SyscallSched.Xv6.Fs

structure Editing (sb : Superblock) (v : Nat → Block) (d : Nat → Dinode) (ip : Inode) :
    Prop where
  laid : sb.Laid
  owned : Owned sb v d 0
  inode : d ip.inum = ip.toDinode
  inum_lt : ip.inum < sb.ninodes
  type : ip.type ≠ 0
  fits : ip.toDinode.Fits

structure Edited (sb : Superblock) (v : Nat → Block) (d : Nat → Dinode) (ip ip' : Inode)
    (v' : Nat → Block) : Prop where
  editing : Editing sb v' (Function.update d ip.inum ip'.toDinode) ip'
  inum : ip'.inum = ip.inum
  type : ip'.type = ip.type
  size : ip'.size = ip.size
  inodes : ∀ i, i < sb.ninodes → v' (sb.iblock i) = v (sb.iblock i)

/-- What such a function leaves of the blocks that inodes had before, and the blocks
that it logs. -/
structure Grown (sb : Superblock) (v : Nat → Block) (d : Nat → Dinode) (ip ip' : Inode)
    (v' : Nat → Block) (bs : List Nat) : Prop extends Edited sb v d ip ip' v' where
  places : KeepsPlaces v ip.addrs v' ip'.addrs
  others : ∀ i, i < sb.ninodes → i ≠ ip.inum → ∀ x ∈ share v d i, v' x = v x
  writes : ∀ b ∈ bs, sb.Writes b

structure Mapped (sb : Superblock) (v : Nat → Block) (d : Nat → Dinode) (ip : Inode)
    (r : Inode × Nat) (v' : Nat → Block) (bs : List Nat) : Prop
    extends Grown sb v d ip r.1 v' bs where
  blocks : KeepsBlocks v ip.addrs v' r.1.addrs
  full : r.2 = 0 → Full sb v'

section

variable {E : Terms} {sb : Superblock} {v v' v'' : Nat → Block} {d : Nat → Dinode}
variable {ip ip' ip'' : Inode} {b j k x bn off left : Nat} {bs bs' : List Nat}
  {extra : Multiset Nat}

theorem Editing.update_self (h : Editing sb v d ip) :
    Function.update d ip.inum ip.toDinode = d := by
  rw [← h.inode, Function.update_eq_self]

theorem Edited.refl (h : Editing sb v d ip) : Edited sb v d ip ip v := by
  constructor
  case editing =>
    rw [h.update_self]
    exact h
  case inum => rfl
  case type => rfl
  case size => rfl
  case inodes =>
    intro i _
    rfl

theorem Edited.trans (h : Edited sb v d ip ip' v')
    (h' : Edited sb v' (Function.update d ip.inum ip'.toDinode) ip' ip'' v'') :
    Edited sb v d ip ip'' v'' := by
  constructor
  case editing =>
    have hediting := h'.editing
    rw [h.inum, Function.update_idem] at hediting
    exact hediting
  case inum => rw [h'.inum, h.inum]
  case type => rw [h'.type, h.type]
  case size => rw [h'.size, h.size]
  case inodes =>
    intro i hi
    rw [h'.inodes i hi, h.inodes i hi]

theorem Grown.refl (h : Editing sb v d ip) : Grown sb v d ip ip v [] := by
  constructor
  case toEdited => exact Edited.refl h
  case places => exact KeepsPlaces.refl v ip.addrs
  case others => exact fun _ _ _ _ _ => rfl
  case writes => exact fun _ hb => absurd hb List.not_mem_nil

theorem Grown.trans (h : Grown sb v d ip ip' v' bs)
    (h' : Grown sb v' (Function.update d ip.inum ip'.toDinode) ip' ip'' v'' bs') :
    Grown sb v d ip ip'' v'' (bs ++ bs') := by
  constructor
  case toEdited => exact h.toEdited.trans h'.toEdited
  case places => exact h.places.trans h'.places
  case others =>
    intro i hi hne x hx
    have hsame : share v' (Function.update d ip.inum ip'.toDinode) i = share v d i := by
      have hblocks : share v' d i = share v d i := by
        apply share_congr
        intro htype hx0
        apply h.others i hi hne
        rw [share, if_neg htype]
        exact indirect_mem_held hx0
      rw [← hblocks, share, share, Function.update_of_ne hne]
    rw [← h.inum] at hne
    rw [h'.others i hi hne x (by rw [hsame]; exact hx)]
    rw [h.inum] at hne
    exact h.others i hi hne x hx
  case writes =>
    intro b hb
    cases List.mem_append.mp hb with
    | inl hfirst => exact h.writes b hfirst
    | inr hrest => exact h'.writes b hrest

namespace Editing

theorem share_eq (h : Editing sb v d ip) : share v d ip.inum = held v ip.addrs := by
  rw [share, h.inode, if_neg h.type]

theorem fits_setAddr (h : Editing sb v d ip) (hj : j ≤ ndirect) (hb : b < 2 ^ 32) :
    (ip.setAddr j b).toDinode.Fits := by
  have hold := h.fits
  constructor
  case type => exact hold.type
  case major => exact hold.major
  case minor => exact hold.minor
  case nlink => exact hold.nlink
  case size => exact hold.size
  case addrs =>
    intro i
    by_cases hi : i = j
    · simpa [Inode.setAddr, hi] using hb
    · simpa [Inode.setAddr, hi] using hold.addrs i
  case beyond =>
    intro i hi
    have hne : i ≠ j := by omega
    simpa [Inode.setAddr, hne] using hold.beyond i hi

theorem held_mem (h : Editing sb v d ip) (hb : b ∈ held v ip.addrs) : b ∈ sb.usedData v := by
  rw [← h.share_eq] at hb
  exact h.owned.mem_share h.inum_lt hb

theorem held_writes (h : Editing sb v d ip) (hb : b ∈ held v ip.addrs) : sb.Writes b :=
  writes_data h.laid (mem_usedData.mp (h.held_mem hb)).1.1

end Editing

theorem record_addr (h : Editing sb v d ip) (howned : Owned sb v' d (b ::ₘ 0))
    (hinodes : ∀ i, i < sb.ninodes → v' (sb.iblock i) = v (sb.iblock i))
    (hzero : v' b = zeroBlock) (hj : j ≤ ndirect) (hfree : ip.addrs j = 0) (hb0 : b ≠ 0)
    (hb : b < 2 ^ 32) :
    Edited sb v d ip (ip.setAddr j b) v' := by
  have htype : (ip.setAddr j b).type ≠ 0 := h.type
  have hset : held v' (Function.update ip.addrs j b) = b ::ₘ held v' ip.addrs := by
    cases Nat.lt_or_eq_of_le hj with
    | inl hlt => exact held_setDirect hlt hfree hb0
    | inr heq =>
        rw [heq] at hfree ⊢
        apply held_setIndirect hfree hb0
        intro k _
        rw [hzero]
        rfl
  constructor
  case editing =>
    constructor
    case laid => exact h.laid
    case owned =>
      apply howned.change h.inum_lt
      case hbit =>
        intro _ _
        rfl
      case hother =>
        intro i _ hne
        rw [share, share, Function.update_of_ne hne]
      case hpaid =>
        rw [share, Function.update_self, if_neg htype, share, h.inode, if_neg h.type, zero_add,
          Multiset.cons_add, zero_add]
        exact hset
    case inode => exact Function.update_self _ _ _
    case inum_lt => exact h.inum_lt
    case type => exact h.type
    case fits => exact h.fits_setAddr hj hb
  case inum => rfl
  case type => rfl
  case size => rfl
  case inodes => exact hinodes

theorem Editing.allocated (h : Editing sb v d ip) (hb : Allocated sb v b v') :
    Owned sb v' d (b ::ₘ 0) ∧ b ≠ 0 ∧ v' b = zeroBlock ∧
      (∀ i, i < sb.ninodes → v' (sb.iblock i) = v (sb.iblock i)) ∧
      ∀ x, x ∈ sb.usedData v → v' x = v x := by
  have hge := h.owned.meta_used.free_ge hb.lt hb.free
  have hdata := bmapstart_lt_dataStart sb
  have hbit := bblock_lt hb.lt
  refine ⟨h.owned.allocated hb, by omega, ?_, ?_, ?_⟩
  · rw [hb.view, Function.update_self]
  · intro i hi
    have hiblock := iblock_lt h.laid hi
    have hbblock := bblock_ge sb b
    rw [hb.view, Function.update_of_ne (by omega), Superblock.mark,
      Function.update_of_ne (by omega)]
  · intro x hx
    have hused := mem_usedData.mp hx
    have hne : x ≠ b := by
      intro heq
      rw [heq, hb.free] at hused
      exact Bool.false_ne_true hused.2
    rw [hb.view, Function.update_of_ne hne, Superblock.mark, Function.update_of_ne (by omega)]

theorem mapped_full (h : Editing sb v d ip) (hfull : Full sb v) {r : Inode × Nat}
    (hr : r.1 = ip) : Mapped sb v d ip r v [] := by
  subst hr
  exact ⟨Grown.refl h, KeepsBlocks.refl v r.1.addrs, fun _ => hfull⟩

theorem Editing.allocated_writes (h : Editing sb v d ip) (hb : Allocated sb v b v') :
    ∀ c ∈ [sb.bblock b, b], sb.Writes c := by
  have hge := h.owned.meta_used.free_ge hb.lt hb.free
  simp [writes_bblock h.laid b, writes_data h.laid hge]

theorem mapped_addr (h : Editing sb v d ip) (hb : Allocated sb v b v') (hj : j ≤ ndirect)
    (hfree : ip.addrs j = 0) : Mapped sb v d ip (ip.setAddr j b, b) v' [sb.bblock b, b] := by
  obtain ⟨howned, hb0, hzero, hinodes, hkeep⟩ := h.allocated hb
  have hblocks : KeepsBlocks v ip.addrs v' (ip.setAddr j b).addrs := by
    apply KeepsBlocks.of_held fun x hx => hkeep x (h.held_mem hx)
    intro i hi
    apply Function.update_of_ne
    intro hij
    exact hi (hij ▸ hfree)
  constructor
  case toGrown =>
    constructor
    case toEdited =>
      exact record_addr h howned hinodes hzero hj hfree hb0 (Nat.lt_trans hb.lt h.laid.size)
    case places => exact hblocks.places
    case others => exact fun i hi _ x hx => hkeep x (h.owned.mem_share hi hx)
    case writes => exact h.allocated_writes hb
  case blocks => exact hblocks
  case full => exact fun hzero => absurd hzero hb0

theorem allocAddr_performs (h : Editing sb v d ip) (hj : j ≤ ndirect) :
    Performs (allocAddr sb ip j) v fun r v' bs =>
      Mapped sb v d ip r v' bs ∧ r.1.addrs j = r.2 := by
  rw [allocAddr]
  by_cases hfree : ip.addrs j = 0
  · rw [if_pos hfree]
    apply balloc_performs.bind
    intro b v' bs hb
    cases hb with
    | inl hfull =>
        obtain ⟨rfl, rfl, rfl, hfull⟩ := hfull
        rw [if_pos rfl]
        apply Performs.pure
        exact ⟨mapped_full h hfull rfl, hfree⟩
    | inr hb =>
        obtain ⟨hb, rfl⟩ := hb
        rw [if_neg (h.allocated hb).2.1]
        apply Performs.pure
        exact ⟨mapped_addr h hb hj hfree, Function.update_self _ _ _⟩
  · rw [if_neg hfree]
    apply Performs.pure
    exact ⟨⟨Grown.refl h, KeepsBlocks.refl v ip.addrs, fun hzero => absurd hzero hfree⟩, rfl⟩

theorem record_entry (h : Editing sb v d ip) (hx : ip.addrs ndirect ≠ 0)
    (hk : k < nindirect) (hfree : (v (ip.addrs ndirect)).word k = 0)
    (hb : Allocated sb v b v') :
    Edited sb v d ip ip (Function.update v' (ip.addrs ndirect)
      ((v (ip.addrs ndirect)).setWord k b)) := by
  obtain ⟨howned, hb0, _, hinodes, hblocks⟩ := h.allocated hb
  have hmem := h.held_mem (indirect_mem_held hx)
  have hused := mem_usedData.mp hmem
  have hkeep := hblocks _ hmem
  have hdata := bmapstart_lt_dataStart sb
  have hlt : b < 2 ^ 32 := Nat.lt_trans hb.lt h.laid.size
  constructor
  case editing =>
    constructor
    case laid => exact h.laid
    case owned =>
      rw [h.update_self]
      apply howned.change h.inum_lt
      case hbit =>
        intro c hc
        have hclt := bblock_lt hc
        rw [Function.update_of_ne (by omega)]
      case hother =>
        intro i hi hne
        apply share_congr
        intro htype hi0
        rw [Function.update_of_ne]
        intro heq
        have hself : ip.addrs ndirect ∈ share v' d ip.inum := by
          rw [share, h.inode, if_neg h.type]
          exact indirect_mem_held hx
        apply howned.disjoint h.inum_lt hi hne.symm hself
        rw [← heq]
        exact (howned.indirect_mem hi htype hi0).1
      case hpaid =>
        rw [share, h.inode, if_neg h.type, share, h.inode, if_neg h.type, zero_add,
          Multiset.cons_add, zero_add]
        apply held_setEntry hx hk _ hb0 hlt
        · rw [Function.update_self, hkeep]
        · rw [hkeep]
          exact hfree
    case inode => exact Function.update_self _ _ _
    case inum_lt => exact h.inum_lt
    case type => exact h.type
    case fits => exact h.fits
  case inum => rfl
  case type => rfl
  case size => rfl
  case inodes =>
    intro i hi
    have hiblock := iblock_lt h.laid hi
    rw [Function.update_of_ne (by omega)]
    exact hinodes i hi

theorem mapped_entry (h : Editing sb v d ip) (hx : ip.addrs ndirect ≠ 0)
    (hk : k < nindirect) (hfree : (v (ip.addrs ndirect)).word k = 0)
    (hb : Allocated sb v b v') :
    Mapped sb v d ip (ip, b) (Function.update v' (ip.addrs ndirect)
      ((v (ip.addrs ndirect)).setWord k b)) [sb.bblock b, b, ip.addrs ndirect] := by
  obtain ⟨-, hb0, -, -, hkeep⟩ := h.allocated hb
  have hnodup := h.owned.nodup_share h.inum_lt
  rw [h.share_eq] at hnodup
  have hself := h.held_mem (indirect_mem_held hx)
  have hblocks : KeepsBlocks v ip.addrs (Function.update v' (ip.addrs ndirect)
      ((v (ip.addrs ndirect)).setWord k b)) ip.addrs := by
    constructor
    case places =>
        intro fbn hfbn hblock
        apply blockAt_setEntry_ne ?_ (Function.update_self _ _ _)
        intro heq
        subst heq
        rw [blockAt_indirect (Nat.le_add_left _ _) hx, Nat.add_sub_cancel] at hblock
        exact hblock hfree
    case data =>
        intro fbn hfbn hblock
        rw [Function.update_of_ne (blockAt_ne_indirect hnodup hfbn hblock)]
        exact hkeep _ (h.held_mem (blockAt_mem_held hfbn hblock))
  constructor
  case toGrown =>
    constructor
    case toEdited => exact record_entry h hx hk hfree hb
    case places => exact hblocks.places
    case others =>
      intro i hi hne x hx'
      rw [Function.update_of_ne]
      · exact hkeep x (h.owned.mem_share hi hx')
      · intro heq
        apply h.owned.disjoint hi h.inum_lt hne hx'
        rw [h.share_eq, heq]
        exact indirect_mem_held hx
    case writes =>
      intro c hc
      cases List.mem_append.mp (show c ∈ [sb.bblock b, b] ++ [ip.addrs ndirect] from hc) with
      | inl hnew => exact h.allocated_writes hb c hnew
      | inr hold =>
          rw [List.mem_singleton.mp hold]
          exact h.held_writes (indirect_mem_held hx)
  case blocks => exact hblocks
  case full => exact fun hzero => absurd hzero hb0

theorem bmapEntry_performs (h : Editing sb v d ip) (hx : ip.addrs ndirect ≠ 0)
    (hk : k < nindirect) :
    Performs (bmapEntry sb (ip.addrs ndirect) k) v fun addr v' bs =>
      Mapped sb v d ip (ip, addr) v' bs ∧ (v' (ip.addrs ndirect)).word k = addr := by
  rw [bmapEntry]
  apply performs_bread
  by_cases hfree : (v (ip.addrs ndirect)).word k = 0
  · rw [if_pos hfree]
    apply balloc_performs.bind
    intro b v' bs hb
    cases hb with
    | inl hfull =>
        obtain ⟨rfl, rfl, rfl, hfull⟩ := hfull
        rw [if_pos rfl]
        apply performs_brelse
        apply Performs.pure
        exact ⟨mapped_full h hfull rfl, hfree⟩
    | inr hb =>
        obtain ⟨hb, rfl⟩ := hb
        rw [if_neg (h.allocated hb).2.1]
        apply performs_store
        apply performs_logWrite
        apply performs_brelse
        apply Performs.pure
        refine ⟨mapped_entry h hx hk hfree hb, ?_⟩
        rw [Function.update_self]
        exact Block.word_setWord_self _ (Nat.lt_trans hb.lt h.laid.size)
  · rw [if_neg hfree]
    apply performs_brelse
    apply Performs.pure
    exact ⟨⟨Grown.refl h, KeepsBlocks.refl v ip.addrs, fun hzero => absurd hzero hfree⟩, rfl⟩

theorem Mapped.trans {r r' : Inode × Nat} (h : Mapped sb v d ip r v' bs)
    (h' : Mapped sb v' (Function.update d ip.inum r.1.toDinode) r.1 r' v'' bs') :
    Mapped sb v d ip r' v'' (bs ++ bs') where
  toGrown := h.toGrown.trans h'.toGrown
  blocks := h.blocks.trans h'.blocks
  full := h'.full

theorem bmap_performs (h : Editing sb v d ip) (hbn : bn < maxFile) :
    Performs (bmap sb ip bn) v fun r v' bs =>
      Mapped sb v d ip r v' bs ∧ blockAt v' r.1.addrs bn = r.2 := by
  rw [bmap]
  by_cases hdirect : bn < ndirect
  · rw [if_pos hdirect]
    apply (allocAddr_performs h (Nat.le_of_lt hdirect)).imp
    intro r v' bs hr
    refine ⟨hr.1, ?_⟩
    rw [blockAt_direct hdirect]
    exact hr.2
  · have hk : bn - ndirect < nindirect := by
      rw [maxFile] at hbn
      omega
    rw [if_neg hdirect, if_pos hk, bmapIndirect]
    apply (allocAddr_performs h (Nat.le_refl _)).bind
    intro r v₁ bs hr
    obtain ⟨hmapped, haddr⟩ := hr
    by_cases hzero : r.2 = 0
    · rw [if_pos hzero]
      apply Performs.pure
      rw [List.append_nil]
      rw [hzero] at haddr
      exact ⟨⟨hmapped.toGrown, hmapped.blocks, fun _ => hmapped.full hzero⟩,
        blockAt_none (Nat.le_of_not_lt hdirect) haddr⟩
    · rw [if_neg hzero, ← haddr]
      have hx : r.1.addrs ndirect ≠ 0 := by
        rw [haddr]
        exact hzero
      apply (bmapEntry_performs hmapped.editing hx hk).bind
      intro addr v₂ bs₂ haddr₂
      apply Performs.pure
      rw [List.append_nil]
      refine ⟨hmapped.trans haddr₂.1, ?_⟩
      rw [blockAt_indirect (Nat.le_of_not_lt hdirect) hx]
      exact haddr₂.2

theorem write_data (h : Editing sb v d ip) (hbn : bn < maxFile)
    (hx : blockAt v ip.addrs bn ≠ 0) (data : Block) :
    Edited sb v d ip ip (Function.update v (blockAt v ip.addrs bn) data) := by
  have hmem : blockAt v ip.addrs bn ∈ held v ip.addrs := blockAt_mem_held hbn hx
  have hused := mem_usedData.mp (h.held_mem hmem)
  have hdata := bmapstart_lt_dataStart sb
  have hnodup := h.owned.nodup_share h.inum_lt
  rw [h.share_eq] at hnodup
  constructor
  case editing =>
    constructor
    case laid => exact h.laid
    case owned =>
      rw [h.update_self]
      apply h.owned.store
      · intro c hc
        have hlt := bblock_lt hc
        omega
      · intro i hi htype hi0 heq
        by_cases hii : i = ip.inum
        · rw [hii, h.inode] at heq
          exact blockAt_ne_indirect hnodup hbn hx heq.symm
        · apply h.owned.disjoint hi h.inum_lt hii (h.owned.indirect_mem hi htype hi0).1
          rw [h.share_eq, heq]
          exact hmem
    case inode => exact Function.update_self _ _ _
    case inum_lt => exact h.inum_lt
    case type => exact h.type
    case fits => exact h.fits
  case inum => rfl
  case type => rfl
  case size => rfl
  case inodes =>
    intro i hi
    have hiblock := iblock_lt h.laid hi
    rw [Function.update_of_ne (by omega)]

theorem grown_data (h : Editing sb v d ip) (hbn : bn < maxFile)
    (hx : blockAt v ip.addrs bn ≠ 0) (data : Block)
    (hbs : ∀ b ∈ bs, b = blockAt v ip.addrs bn) :
    Grown sb v d ip ip (Function.update v (blockAt v ip.addrs bn) data) bs := by
  have hmem : blockAt v ip.addrs bn ∈ held v ip.addrs := blockAt_mem_held hbn hx
  have hnodup := h.owned.nodup_share h.inum_lt
  rw [h.share_eq] at hnodup
  constructor
  case toEdited => exact write_data h hbn hx data
  case places =>
    intro fbn hfbn _
    apply blockAt_congr ?_ hfbn
    intro _ k _
    rw [Function.update_of_ne (blockAt_ne_indirect hnodup hbn hx).symm]
  case others =>
    intro i hi hne x hx'
    apply Function.update_of_ne
    intro heq
    apply h.owned.disjoint hi h.inum_lt hne hx'
    rw [h.share_eq, heq]
    exact hmem
  case writes =>
    intro b hb
    rw [hbs b hb]
    exact h.held_writes hmem

/-- The loop of `writei` ends at `e` because the file has no block there. -/
structure Stopped (v : Nat → Block) (ip : Inode) (off e : Nat) : Prop where
  missing : blockAt v ip.addrs (e / bsize) = 0
  aligned : e = off ∨ e % bsize = 0

/-- What the loop of `writei` leaves that ends at `e`.  A copy from kernel memory
does not fail. -/
structure Written (sb : Superblock) (v : Nat → Block) (d : Nat → Dinode) (ip : Inode)
    (src : Source) (off left : Nat) (r : Inode × Nat) (v' : Nat → Block) (bs : List Nat) :
    Prop extends Grown sb v d ip r.1 v' bs where
  ge : off ≤ r.2
  le : r.2 ≤ off + left
  kernel : ∀ mem addr, src = .kernel mem addr →
    Overwrites v ip.addrs v' r.1.addrs off r.2 (fun o => mem (addr + (o - off))) ∧
      (r.2 < off + left → Full sb v' ∧ Stopped v ip off r.2)

theorem Written.turn {src : Source} {m : Nat} {r r' : Inode × Nat} {v₁ v₂ : Nat → Block}
    (h : Written sb v₂ (Function.update d ip.inum r.1.toDinode) r.1 (src.advance m) (off + m)
      (left - m) r' v'' bs') (hr : Mapped sb v d ip r v₁ bs) (hbn : off / bsize < maxFile)
    (hblock : blockAt v₁ r.1.addrs (off / bsize) ≠ 0) (hend : off + left ≤ maxFile * bsize)
    (hm : m = chunk left off)
    (hv₂ : v₂ = Function.update v₁ (blockAt v₁ r.1.addrs (off / bsize))
      (putBytes (v₁ (blockAt v₁ r.1.addrs (off / bsize))) (off % bsize) (src.copyin m).1))
    (hdata : Grown sb v₁ (Function.update d ip.inum r.1.toDinode) r.1 r.1 v₂
      [blockAt v₁ r.1.addrs (off / bsize)]) :
    Written sb v d ip src off left r' v''
      (bs ++ blockAt v₁ r.1.addrs (off / bsize) :: bs') := by
  have hle := h.le
  have hge := h.ge
  have hnodup := hr.editing.owned.nodup_share hr.editing.inum_lt
  rw [hr.editing.share_eq] at hnodup
  have hmin : m ≤ left := hm ▸ Nat.min_le_left _ _
  have hroom : m ≤ bsize - off % bsize := hm ▸ Nat.min_le_right _ _
  constructor
  case toGrown =>
    have hsame : Function.update (Function.update d ip.inum r.1.toDinode) r.1.inum
        r.1.toDinode = Function.update d ip.inum r.1.toDinode := by
      rw [hr.inum, Function.update_idem]
    have hrest := h.toGrown
    rw [← hsame] at hrest
    exact hr.toGrown.trans (hdata.trans hrest)
  case ge => omega
  case le => omega
  case kernel =>
    intro mem addr hsrc
    subst hsrc
    obtain ⟨hlater, hfull⟩ := h.kernel mem (addr + m) rfl
    have hstop : r'.2 < off + left → Full sb v'' ∧ Stopped v ip off r'.2 := by
      intro hlt
      obtain ⟨hfull', hstopped⟩ := hfull (by omega)
      refine ⟨hfull', ?_, ?_⟩
      · by_contra hpresent
        have hbn' : r'.2 / bsize < maxFile := by
          simp only [bsize] at *
          omega
        have hkept := (hr.places.trans hdata.places) _ hbn' hpresent
        exact hpresent (hkept.symm.trans hstopped.missing)
      · have haligned := hstopped.aligned
        rw [chunk] at hm
        simp only [bsize] at *
        omega
    refine ⟨?_, hstop⟩
    have hfirst : Overwrites v₁ r.1.addrs v₂ r.1.addrs off (off + m)
        (fun o => mem (addr + (o - off))) := by
      apply overwrites_putBytes hnodup hbn hblock ?_ hdata.places
      · rw [hv₂]
        simp [Source.copyin]
      · rw [bsize] at hroom ⊢
        omega
    have hlater' : Overwrites v₂ r.1.addrs v'' r'.1.addrs (off + m) r'.2
        (fun o => mem (addr + (o - off))) := by
      apply hlater.congr
      intro o hlow _
      rw [Nat.add_assoc]
      congr 2
      omega
    have hwritten := hfirst.trans hdata.places h.places hlater' (Nat.le_add_right off m) hge
    exact hr.blocks.overwrites.trans hr.places (hdata.places.trans h.places) hwritten
      (Nat.le_refl off) (by omega)

theorem writeLoop_performs {src : Source} (h : Editing sb v d ip)
    (hoff : off + left ≤ maxFile * bsize) :
    Performs (writeLoop sb ip src off left) v (Written sb v d ip src off left) := by
  induction hleft : left using Nat.strong_induction_on generalizing v d ip src off left with
  | _ n ih =>
    subst hleft
    rw [writeLoop]
    by_cases hzero : left = 0
    · rw [dif_pos hzero]
      apply Performs.pure
      refine ⟨Grown.refl h, Nat.le_refl off, Nat.le_add_right off left, ?_⟩
      exact fun _ _ _ =>
        ⟨(KeepsBlocks.refl v ip.addrs).overwrites, fun hlt => absurd hlt (by omega)⟩
    · have hbn : off / bsize < maxFile := by
        simp only [bsize] at *
        omega
      have hpos := chunk_pos hzero off
      have hchunk : chunk left off ≤ left := Nat.min_le_left _ _
      rw [dif_neg hzero]
      apply (bmap_performs h hbn).bind
      intro r v₁ bs hr
      obtain ⟨hmapped, hfound⟩ := hr
      by_cases hnone : r.2 = 0
      · rw [if_pos hnone]
        apply Performs.pure
        rw [List.append_nil]
        refine ⟨hmapped.toGrown, Nat.le_refl off, Nat.le_add_right off left, ?_⟩
        refine fun _ _ _ => ⟨hmapped.blocks.overwrites, fun _ => ⟨hmapped.full hnone, ?_, ?_⟩⟩
        · by_contra hpresent
          have hkept := hmapped.places _ hbn hpresent
          rw [hfound, hnone] at hkept
          exact hpresent hkept.symm
        · exact Or.inl rfl
      · have hblock := hfound
        have hpresent : blockAt v₁ r.1.addrs (off / bsize) ≠ 0 := by
          rw [hblock]
          exact hnone
        rw [if_neg hnone, ← hblock]
        apply performs_bread
        apply performs_copyin
        by_cases hok : (src.copyin (chunk left off)).2 = true
        · have hdata := grown_data hmapped.editing hbn hpresent
            (putBytes (v₁ (blockAt v₁ r.1.addrs (off / bsize))) (off % bsize)
              (src.copyin (chunk left off)).1)
            (fun b (hb : b ∈ [blockAt v₁ r.1.addrs (off / bsize)]) => List.mem_singleton.mp hb)
          have hediting := hdata.editing
          rw [hmapped.inum, Function.update_idem] at hediting
          rw [if_pos hok]
          apply performs_logWrite
          apply performs_brelse
          apply (ih (left - chunk left off) (by omega) hediting (by omega) rfl).imp
          intro r' v' bs' hr'
          exact hr'.turn hmapped hbn hpresent hoff rfl rfl hdata
        · have hdata := grown_data hmapped.editing hbn hpresent
            (putBytes (v₁ (blockAt v₁ r.1.addrs (off / bsize))) (off % bsize)
              (src.copyin (chunk left off)).1)
            (fun b (hb : b ∈ []) => absurd hb List.not_mem_nil)
          rw [if_neg hok]
          apply performs_brelse
          apply Performs.pure
          refine ⟨hmapped.toGrown.trans hdata, Nat.le_refl off, Nat.le_add_right off left, ?_⟩
          intro mem addr hsrc
          subst hsrc
          exact absurd rfl hok

/-! ## Between the functions -/

/-- Ownership by the inodes on the disk. -/
def Settled (sb : Superblock) (v : Nat → Block) : Prop := Owned sb v (sb.dinodeAt v) 0

/-- A function replaced the inode of `ip` by `ip'` and kept the others. -/
structure Updated (sb : Superblock) (v : Nat → Block) (ip ip' : Inode) (v' : Nat → Block) :
    Prop where
  settled : Settled sb v'
  inum : ip'.inum = ip.inum
  inode : sb.dinodeAt v' ip.inum = ip'.toDinode
  other : ∀ i, i < sb.ninodes → i ≠ ip.inum → sb.dinodeAt v' i = sb.dinodeAt v i

theorem Owned.congr_share (h : Owned sb v d extra) {d' : Nat → Dinode}
    (hd : ∀ i, i < sb.ninodes → share v d' i = share v d i) : Owned sb v d' extra := by
  have hsum : ∑ inum ∈ Finset.range sb.ninodes, share v d' inum =
      ∑ inum ∈ Finset.range sb.ninodes, share v d inum := by
    apply Finset.sum_congr rfl
    intro i hi
    exact hd i (Finset.mem_range.mp hi)
  constructor
  case meta_used => exact h.meta_used
  case owned =>
    rw [hsum]
    exact h.owned

theorem Owned.congr_inodes (h : Owned sb v d extra) {d' : Nat → Dinode}
    (hd : ∀ i, i < sb.ninodes → d' i = d i) : Owned sb v d' extra := by
  apply h.congr_share
  intro i hi
  rw [share, share, hd i hi]

theorem Owned.withSize (h : Owned sb v (Function.update d j ip.toDinode) extra) (size : Nat) :
    Owned sb v (Function.update d j (ip.withSize size).toDinode) extra := by
  apply h.congr_share
  intro i _
  by_cases hi : i = j
  · rw [share, share, hi, Function.update_self, Function.update_self]
    rfl
  · rw [share, share, Function.update_of_ne hi, Function.update_of_ne hi]

theorem fits_withSize (h : ip.toDinode.Fits) {size : Nat} (hsize : size < 2 ^ 32) :
    (ip.withSize size).toDinode.Fits :=
  { h with size := hsize }

theorem updated_withInode (hl : sb.Laid) (hinum : ip.inum < sb.ninodes)
    (hinum' : ip'.inum = ip.inum) (hfits : ip'.toDinode.Fits)
    (howned : Owned sb v' (Function.update (sb.dinodeAt v) ip.inum ip'.toDinode) 0)
    (hinodes : ∀ i, i < sb.ninodes → v' (sb.iblock i) = v (sb.iblock i)) :
    Updated sb v ip ip' (sb.withInode v' ip.inum ip'.toDinode) := by
  have hdinodes : sb.dinodeAt (sb.withInode v' ip.inum ip'.toDinode) =
      Function.update (sb.dinodeAt v') ip.inum ip'.toDinode := dinodeAt_withInode hfits
  constructor
  case settled =>
    rw [Settled, hdinodes]
    apply (howned.withInode hl hinum ip'.toDinode).congr_inodes
    intro i hi
    by_cases hii : i = ip.inum
    · rw [hii, Function.update_self, Function.update_self]
    · rw [Function.update_of_ne hii, Function.update_of_ne hii]
      exact dinodeAt_congr (hinodes i hi)
  case inum => exact hinum'
  case inode => rw [hdinodes, Function.update_self]
  case other =>
    intro i hi hii
    rw [hdinodes, Function.update_of_ne hii]
    exact dinodeAt_congr (hinodes i hi)

structure Synced (sb : Superblock) (v : Nat → Block) (ip : Inode) : Prop where
  inode : sb.dinodeAt v ip.inum = ip.toDinode
  inum_lt : ip.inum < sb.ninodes
  type : ip.type ≠ 0

theorem getDinode_fits (blk : Block) (o : Nat) : (getDinode blk o).Fits := by
  constructor
  case type => exact getLE_lt _ _ 2
  case major => exact getLE_lt _ _ 2
  case minor => exact getLE_lt _ _ 2
  case nlink => exact getLE_lt _ _ 2
  case size => exact getLE_lt _ _ 4
  case addrs =>
    intro j
    by_cases hj : j ≤ ndirect
    · simpa [getDinode, hj] using getLE_lt blk (o + 12 + 4 * j) 4
    · simp [getDinode, hj]
  case beyond =>
    intro j hj
    simp [getDinode, Nat.not_le.mpr hj]

theorem Synced.editing (h : Synced sb v ip) (hl : sb.Laid) (hs : Settled sb v) :
    Editing sb v (sb.dinodeAt v) ip where
  laid := hl
  owned := hs
  inode := h.inode
  inum_lt := h.inum_lt
  type := h.type
  fits := by
    rw [← h.inode]
    exact getDinode_fits _ _

theorem Updated.refl (h : Synced sb v ip) (hs : Settled sb v) : Updated sb v ip ip v where
  settled := hs
  inum := rfl
  inode := h.inode
  other := fun _ _ _ => rfl

theorem Edited.iupdate (h : Edited sb v (sb.dinodeAt v) ip ip' v') {size : Nat}
    (hsize : size < 2 ^ 32) :
    Updated sb v ip (ip'.withSize size)
      (sb.withInode v' ip'.inum (ip'.withSize size).toDinode) := by
  have hlt := h.editing.inum_lt
  rw [h.inum] at *
  exact updated_withInode h.editing.laid hlt h.inum (fits_withSize h.editing.fits hsize)
    (h.editing.owned.withSize size) h.inodes

theorem Updated.trans (h : Updated sb v ip ip' v') (h' : Updated sb v' ip' ip'' v'') :
    Updated sb v ip ip'' v'' := by
  constructor
  case settled => exact h'.settled
  case inum => rw [h'.inum, h.inum]
  case inode =>
    rw [← h.inum]
    exact h'.inode
  case other =>
    intro i hi hne
    have hne' : i ≠ ip'.inum := by
      rw [h.inum]
      exact hne
    rw [h'.other i hi hne', h.other i hi hne]

theorem withInode_of_ge (ip : Inode) (hl : sb.Laid) (hinum : ip.inum < sb.ninodes)
    (hb : sb.bmapstart ≤ b) :
    sb.withInode v ip.inum ip.toDinode b = v b := by
  have hlt := iblock_lt hl hinum
  exact Function.update_of_ne (by omega) _ _

def WriteRefused (ip : Inode) (off n : Nat) : Prop :=
  ip.size < off ∨ 2 ^ 32 ≤ off + n ∨ maxFile * bsize < off + n

structure Stored (sb : Superblock) (v : Nat → Block) (ip : Inode) (src : Source)
    (off n : Nat) (r : Inode × Option Nat) (v' : Nat → Block) (bs : List Nat) : Prop where
  updated : Updated sb v ip r.1 v'
  type : r.1.type = ip.type
  writes : ∀ b ∈ bs, sb.Writes b
  places : KeepsPlaces v ip.addrs v' r.1.addrs
  others : ∀ i, i < sb.ninodes → i ≠ ip.inum → ∀ x ∈ share v (sb.dinodeAt v) i, v' x = v x
  count : ∃ t, r.2 = some t ∧ t ≤ n ∧ r.1.size = max ip.size (off + t) ∧
    ∀ mem addr, src = .kernel mem addr →
      Overwrites v ip.addrs v' r.1.addrs off (off + t) (fun o => mem (addr + (o - off))) ∧
        (t < n → Full sb v' ∧ Stopped v ip off (off + t))

theorem Written.stored {src : Source} {n : Nat} {r : Inode × Nat}
    (h : Written sb v (sb.dinodeAt v) ip src off n r v' bs) (hs : Settled sb v)
    (hsize : ip.size < 2 ^ 32) (hend : off + n < 2 ^ 32) :
    Stored sb v ip src off n (r.1.withSize (max r.1.size r.2), some (r.2 - off))
      (sb.withInode v' r.1.inum (r.1.withSize (max r.1.size r.2)).toDinode)
      (bs ++ [sb.iblock r.1.inum]) := by
  have hge := h.ge
  have hle := h.le
  have hsame := h.size
  have hlaid := h.editing.laid
  have hdata := bmapstart_lt_dataStart sb
  have hkept : ∀ b, sb.bmapstart ≤ b →
      sb.withInode v' r.1.inum (r.1.withSize (max r.1.size r.2)).toDinode b = v' b := by
    intro b hb
    exact withInode_of_ge (r.1.withSize (max r.1.size r.2)) hlaid h.editing.inum_lt hb
  have hblocks : KeepsBlocks v' r.1.addrs
      (sb.withInode v' r.1.inum (r.1.withSize (max r.1.size r.2)).toDinode) r.1.addrs := by
    apply KeepsBlocks.of_held ?_ (fun _ _ => rfl)
    intro x hx
    have hused := mem_usedData.mp (h.editing.held_mem hx)
    exact hkept x (by omega)
  constructor
  case updated => exact h.toEdited.iupdate (by omega)
  case type => exact h.type
  case writes =>
    intro b hb
    cases List.mem_append.mp hb with
    | inl hloop => exact h.writes b hloop
    | inr hlast =>
        rw [List.mem_singleton.mp hlast]
        exact writes_iblock sb r.1.inum
  case places => exact h.places.trans hblocks.places
  case others =>
    intro i hi hne x hx
    have hused := (mem_usedData.mp (hs.mem_share hi hx)).1.1
    rw [hkept x (by omega)]
    exact h.others i hi hne x hx
  case count =>
    refine ⟨r.2 - off, rfl, by omega, ?_, ?_⟩
    · rw [Nat.add_sub_of_le hge, ← hsame]
      rfl
    · intro mem addr hsrc
      obtain ⟨hwritten, hfull⟩ := h.kernel mem addr hsrc
      rw [Nat.add_sub_of_le hge]
      refine ⟨hwritten.trans h.places hblocks.places hblocks.overwrites hge (Nat.le_refl _), ?_⟩
      intro hlt
      obtain ⟨hfull', hstopped⟩ := hfull (by omega)
      refine ⟨?_, hstopped⟩
      intro b hb
      have hbge := bblock_ge sb b
      rw [used_congr (hkept _ hbge)]
      exact hfull' b hb

theorem writei_performs {src : Source} {n : Nat} (hl : sb.Laid) (hs : Settled sb v)
    (h : Synced sb v ip) (hoff : off < 2 ^ 32) (hn : n < 2 ^ 32) :
    Performs (writei sb ip src off n) v fun r v' bs =>
      (WriteRefused ip off n ∧ r = (ip, none) ∧ v' = v ∧ bs = []) ∨
        (¬ WriteRefused ip off n ∧ Stored sb v ip src off n r v' bs) := by
  have hlimit : maxFile * bsize < 2 ^ 32 := by decide
  rw [writei, WriteRefused]
  by_cases hwrap : ip.size < off ∨ (off + n) % 2 ^ 32 < off
  · rw [if_pos hwrap]
    apply Performs.pure
    exact Or.inl ⟨by omega, rfl, rfl, rfl⟩
  rw [if_neg hwrap]
  by_cases hmax : maxFile * bsize < (off + n) % 2 ^ 32
  · rw [if_pos hmax]
    apply Performs.pure
    exact Or.inl ⟨by omega, rfl, rfl, rfl⟩
  have hend : off + n ≤ maxFile * bsize := by omega
  rw [if_neg hmax]
  have hediting := h.editing hl hs
  apply (writeLoop_performs hediting hend).bind
  intro r v₁ bs hr
  apply iupdate_performs
  apply Performs.pure
  refine Or.inr ⟨by omega, ?_⟩
  exact hr.stored hs hediting.fits.size (by omega)

theorem writei_does (hE : E.Logs sb.Writes) {src : Source} {n : Nat} (hl : sb.Laid)
    (hs : Settled sb v) (h : Synced sb v ip) (hoff : off < 2 ^ 32) (hn : n < 2 ^ 32) :
    Does E (writei sb ip src off n) v fun r v' =>
      Updated sb v ip r.1 v' ∧ r.1.type = ip.type := by
  apply (Does.of_performs hE (writei_performs hl hs h hoff hn) ?_).imp
  · intro r v' hr
    obtain ⟨bs, hr⟩ := hr
    cases hr with
    | inl hrefused =>
        obtain ⟨-, rfl, rfl, -⟩ := hrefused
        exact ⟨Updated.refl h hs, rfl⟩
    | inr hstored => exact ⟨hstored.2.updated, hstored.2.type⟩
  · intro r v' bs hr
    cases hr with
    | inl hrefused =>
        obtain ⟨-, -, -, rfl⟩ := hrefused
        simp
    | inr hstored => exact hstored.2.writes

end

end SyscallSched.Xv6.Fs.Code
