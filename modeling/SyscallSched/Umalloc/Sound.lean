import SyscallSched.Umalloc.Malloc

/-!
# Free and live blocks

Every byte that `sbrk` gave belongs to one block, free or live.  `morecore` treats a new
region as a live block that it frees at once.
-/

namespace SyscallSched.Umalloc

open SyscallSched.Foundation

def bytesOf (regions : List Region) : Multiset Nat :=
  (regions.map fun r => Multiset.Ico r.start (r.start + r.bytes)).sum

/-- A region that `sbrk` gives lies above `base` and above the earlier regions.  It ends
below 2³⁶: the machine has 2²⁷ bytes. -/
def Fresh (sbrk : Sbrk) (base : Nat) : Prop :=
  ∀ calls regions n a, sbrk calls regions n = some a →
    base + sizeofHeader ≤ a ∧ (∀ r ∈ regions, r.start + r.bytes ≤ a) ∧ a + n ≤ sizeLimit

/-- `Fresh` for what `sbrk` gives next when it is asked for `n` bytes. -/
def FreshNext (sbrk : Sbrk) (base : Nat) (h : Heap) (n : Nat) : Prop :=
  ∀ a, sbrk h.calls h.regions n = some a →
    base + sizeofHeader ≤ a ∧ (∀ r ∈ h.regions, r.start + r.bytes ≤ a) ∧ a + n ≤ sizeLimit

def Asked (sbrk : Sbrk) (n : Nat) (h h' : Heap) : Prop :=
  h'.regions = h.regions ∨
    ∃ a, sbrk h.calls h.regions n = some a ∧ h'.regions = h.regions ++ [⟨a, n⟩]

/-- `l` are the free blocks and `bs` the live ones. -/
structure Sound (base : Nat) (h : Heap) (l bs : List Nat) : Prop where
  list : FreeList base h l
  freep : h.freep ∈ l
  own : h.own l + h.own bs = bytesOf h.regions
  nodup : (bytesOf h.regions).Nodup
  above : ∀ x ∈ bytesOf h.regions, base < x
  limit : ∀ x ∈ bytesOf h.regions, x < sizeLimit
  pos : ∀ b ∈ bs, 0 < (h.header b).size

section

variable {base bp nunits fuel x : Nat} {h h' : Heap} {l l' bs : List Nat}

theorem mem_own : x ∈ h.own l ↔ ∃ a ∈ l, a ≤ x ∧ x < h.blockEnd a := by
  induction l with
  | nil => simp
  | cons a l ih => simp [own_cons, ih]

theorem mem_bytesOf {regions : List Region} :
    x ∈ bytesOf regions ↔ ∃ r ∈ regions, r.start ≤ x ∧ x < r.start + r.bytes := by
  induction regions with
  | nil => simp [bytesOf]
  | cons r regions ih =>
      have hcons : bytesOf (r :: regions) =
          Multiset.Ico r.start (r.start + r.bytes) + bytesOf regions := by
        rw [bytesOf, List.map_cons, List.sum_cons, bytesOf]
      simp [hcons, ih]

theorem bytesOf_concat (regions : List Region) (r : Region) : bytesOf (regions ++ [r]) =
    bytesOf regions + Multiset.Ico r.start (r.start + r.bytes) := by
  simp [bytesOf]

theorem FreeList.congr (hl : FreeList base h l)
    (hsame : ∀ a ∈ l, h'.header a = h.header a) : FreeList base h' l where
  first := hl.first
  path := hl.path.congr fun a ha => congrArg Header.ptr (hsame a ha)
  gaps := by
    refine hl.gaps.imp_of_mem fun {a b} ha _ hgap => ?_
    rw [blockEnd_congr (congrArg Header.size (hsame a ha))]
    exact hgap
  zero := by
    rw [hsame base hl.base_mem]
    exact hl.zero
  pos := by
    intro a ha hne
    rw [hsame a ha]
    exact hl.pos a ha hne

namespace Sound

variable (hs : Sound base h l bs)

include hs

theorem mem_bytes_of_free (hx : x ∈ h.own l) : x ∈ bytesOf h.regions := by
  rw [← hs.own]
  exact Multiset.mem_add.mpr (.inl hx)

theorem mem_bytes_of_live (hx : x ∈ h.own bs) : x ∈ bytesOf h.regions := by
  rw [← hs.own]
  exact Multiset.mem_add.mpr (.inr hx)

theorem disjoint : Disjoint (h.own l) (h.own bs) := by
  have hnodup := hs.nodup
  rw [← hs.own, Multiset.nodup_add] at hnodup
  exact hnodup.2.2

theorem mem_own_live {b : Nat} (hb : b ∈ bs) : b ∈ h.own bs :=
  mem_own.mpr ⟨b, hb, le_rfl, lt_blockEnd (hs.pos b hb)⟩

theorem mem_own_free {a : Nat} (ha : a ∈ l) (hne : a ≠ base) : a ∈ h.own l :=
  mem_own.mpr ⟨a, ha, le_rfl, lt_blockEnd (hs.list.pos a ha hne)⟩

theorem base_lt_live {b : Nat} (hb : b ∈ bs) : base < b :=
  hs.above b (hs.mem_bytes_of_live (hs.mem_own_live hb))

theorem live_not_free {b : Nat} (hb : b ∈ bs) : b ∉ l := by
  intro hl
  have hfree := hs.mem_own_free hl (hs.base_lt_live hb).ne'
  exact Multiset.disjoint_left.mp hs.disjoint hfree (hs.mem_own_live hb)

theorem apart {a b : Nat} (ha : a ∈ l) (hb : b ∈ bs) : h.Apart a b := by
  have hlt := lt_blockEnd (hs.pos b hb)
  by_cases hbase : a = base
  · left
    rw [hbase, hs.list.blockEnd_base]
    exact (hs.base_lt_live hb).le
  · by_contra hover
    obtain ⟨x, hxa, hxb⟩ := exists_shared hover (lt_blockEnd (hs.list.pos a ha hbase)) hlt
    exact Multiset.disjoint_left.mp hs.disjoint (mem_own.mpr ⟨a, ha, hxa⟩)
      (mem_own.mpr ⟨b, hb, hxb⟩)

theorem blockEnd_free_le {a : Nat} (ha : a ∈ l) :
    h.blockEnd a = base ∨ h.blockEnd a - 1 ∈ bytesOf h.regions := by
  by_cases hbase : a = base
  · rw [hbase]
    exact .inl hs.list.blockEnd_base
  · have hlt := lt_blockEnd (hs.list.pos a ha hbase)
    exact .inr (hs.mem_bytes_of_free (mem_own.mpr ⟨a, ha, by omega⟩))

end Sound

theorem Sound.outside (hs : Sound base h l (bp :: bs)) : Outside base bp h l := by
  have hpos := hs.pos bp List.mem_cons_self
  have hlt := lt_blockEnd hpos
  have hbase := hs.base_lt_live List.mem_cons_self
  have hend : h.blockEnd bp - 1 < sizeLimit :=
    hs.limit _ (hs.mem_bytes_of_live (mem_own.mpr ⟨bp, List.mem_cons_self, by omega⟩))
  constructor
  case above => exact hbase
  case pos => exact hpos
  case apart => exact fun a ha => hs.apart ha List.mem_cons_self
  case limit =>
    intro a ha
    cases List.mem_cons.mp ha with
    | inl heq =>
        rw [heq]
        omega
    | inr ha =>
        cases hs.blockEnd_free_le ha with
        | inl heq => omega
        | inr hmem =>
            have := hs.limit _ hmem
            omega

/-! ## Operations -/

theorem Sound.free (hs : Sound base h l (bp :: bs)) (hfuel : l.length ≤ fuel) :
    ∃ h' l', Umalloc.free fuel (bp + sizeofHeader) h = .ok ((), h') ∧ Sound base h' l' bs ∧
      (∀ b ∈ bs, h'.header b = h.header b) ∧
      (∃ a ∈ l', (h.header bp).size ≤ (h'.header a).size) ∧ l'.length ≤ l.length + 1 ∧
      h'.regions = h.regions := by
  obtain ⟨h', l', hrun, hfreed⟩ := free_spec hs.list hs.freep hs.outside hfuel
  have hsame : ∀ b ∈ bs, h'.header b = h.header b := by
    intro b hb
    apply hfreed.same
    · exact hs.live_not_free (List.mem_cons_of_mem bp hb)
    · rintro rfl
      have hnodup := hs.nodup
      rw [← hs.own, own_cons, Multiset.nodup_add, Multiset.nodup_add] at hnodup
      have hpos := lt_blockEnd (hs.pos b List.mem_cons_self)
      exact Multiset.disjoint_left.mp hnodup.2.1.2.2
        (Multiset.mem_Ico.mpr ⟨le_rfl, hpos⟩) (mem_own.mpr ⟨b, hb, le_rfl, hpos⟩)
  refine ⟨h', l', hrun, ?_, hsame, hfreed.large, hfreed.length, hfreed.regions⟩
  have hregions := hfreed.regions
  constructor
  case list => exact hfreed.list
  case freep => exact hfreed.freep
  case own =>
    rw [hfreed.own, own_congr fun b hb => congrArg Header.size (hsame b hb), hregions, ← hs.own,
      own_cons]
    abel
  case nodup => exact hregions ▸ hs.nodup
  case above => exact hregions ▸ hs.above
  case limit => exact hregions ▸ hs.limit
  case pos =>
    intro b hb
    rw [hsame b hb]
    exact hs.pos b (List.mem_cons_of_mem bp hb)

theorem Sound.carved (hs : Sound base h l bs) (hn : 0 < nunits)
    (hcarved : Carved base bp nunits h h' l l') :
    Sound base h' l' (bp :: bs) ∧ ∀ b ∈ bs, h'.header b = h.header b := by
  have hbp : bp ∈ h.own l := by
    rw [← hcarved.own]
    refine Multiset.mem_add.mpr (.inr (Multiset.mem_Ico.mpr ⟨le_rfl, lt_blockEnd ?_⟩))
    rw [hcarved.size]
    exact hn
  have hsame : ∀ b ∈ bs, h'.header b = h.header b := by
    intro b hb
    apply hcarved.same b (hs.live_not_free hb)
    rintro rfl
    exact Multiset.disjoint_left.mp hs.disjoint hbp (hs.mem_own_live hb)
  refine ⟨?_, hsame⟩
  have hregions := hcarved.regions
  constructor
  case list => exact hcarved.list
  case freep => exact hcarved.freep
  case own =>
    rw [own_cons, own_congr fun b hb => congrArg Header.size (hsame b hb), ← add_assoc,
      hcarved.own, hregions, hs.own]
  case nodup => exact hregions ▸ hs.nodup
  case above => exact hregions ▸ hs.above
  case limit => exact hregions ▸ hs.limit
  case pos =>
    intro b hb
    cases List.mem_cons.mp hb with
    | inl heq =>
        rw [heq, hcarved.size]
        exact hn
    | inr hb =>
        rw [hsame b hb]
        exact hs.pos b hb

theorem Sound.grown {a : Nat} {hd : Header} (hs : Sound base h l bs) (hn : 0 < nunits)
    (habove : base < a) (hends : ∀ r ∈ h.regions, r.start + r.bytes ≤ a)
    (hlimit : a + nunits * sizeofHeader ≤ sizeLimit) (hsize : hd.size = nunits)
    (hregions : h'.regions = h.regions ++ [⟨a, nunits * sizeofHeader⟩])
    (hfreep : h'.freep = h.freep) (hheader : h'.header = Function.update h.header a hd) :
    Sound base h' l (a :: bs) ∧ ∀ b ∈ bs, h'.header b = h.header b := by
  have hbytes : ∀ x ∈ bytesOf h.regions, x < a := by
    intro x hx
    obtain ⟨r, hr, hx⟩ := mem_bytesOf.mp hx
    have := hends r hr
    omega
  have ha : h'.header a = hd := by rw [hheader, Function.update_self]
  have hother : ∀ b, b ≠ a → h'.header b = h.header b := by
    intro b hb
    rw [hheader, Function.update_of_ne hb]
  have hlive : ∀ b ∈ bs, h'.header b = h.header b := fun b hb =>
    hother b (hbytes b (hs.mem_bytes_of_live (hs.mem_own_live hb))).ne
  have hfree : ∀ b ∈ l, h'.header b = h.header b := by
    intro b hb
    apply hother
    by_cases hbase : b = base
    · rw [hbase]
      exact habove.ne
    · exact (hbytes b (hs.mem_bytes_of_free (hs.mem_own_free hb hbase))).ne
  have hend : h'.blockEnd a = a + nunits * sizeofHeader := by
    rw [Heap.blockEnd, ha, hsize, Nat.mul_comm]
  have hgrow : bytesOf h'.regions =
      bytesOf h.regions + Multiset.Ico a (a + nunits * sizeofHeader) := by
    rw [hregions, bytesOf_concat]
  refine ⟨?_, hlive⟩
  constructor
  case list => exact hs.list.congr hfree
  case freep => exact hfreep ▸ hs.freep
  case own =>
    rw [own_congr fun b hb => congrArg Header.size (hfree b hb), own_cons,
      own_congr fun b hb => congrArg Header.size (hlive b hb), hend, hgrow, ← hs.own]
    abel
  case nodup =>
    rw [hgrow, Multiset.nodup_add]
    refine ⟨hs.nodup, Multiset.nodup_Ico, ?_⟩
    rw [Multiset.disjoint_left]
    intro x hx hx'
    have hlt := hbytes x hx
    have hge := (Multiset.mem_Ico.mp hx').1
    omega
  case above =>
    intro x hx
    rw [hgrow, Multiset.mem_add] at hx
    cases hx with
    | inl hx => exact hs.above x hx
    | inr hx => exact habove.trans_le (Multiset.mem_Ico.mp hx).1
  case limit =>
    intro x hx
    rw [hgrow, Multiset.mem_add] at hx
    cases hx with
    | inl hx => exact hs.limit x hx
    | inr hx => exact (Multiset.mem_Ico.mp hx).2.trans_le hlimit
  case pos =>
    intro b hb
    cases List.mem_cons.mp hb with
    | inl heq =>
        rw [heq, ha, hsize]
        exact hn
    | inr hb =>
        rw [hlive b hb]
        exact hs.pos b hb

end

end SyscallSched.Umalloc
