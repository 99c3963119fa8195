import SyscallSched.Umalloc.Sound

/-!
# The heap along a run

However a program calls `malloc` and `free`, each call returns, and the free blocks and
the live ones make up the memory that `sbrk` gave.
-/

namespace SyscallSched.Umalloc

open SyscallSched.Foundation

section

variable {sbrk : Sbrk} {base nunits fuel : Nat} {h : Heap} {l bs : List Nat}

/-! ## `morecore` -/

theorem callSbrk_none {n : Nat} (hsbrk : sbrk h.calls h.regions n = none) :
    callSbrk sbrk n h = .ok (none, { h with calls := h.calls + 1 }) := by
  simp only [callSbrk, bind, StateT.bind, get, getThe, MonadStateOf.get, StateT.get, Except.bind,
    pure, Except.pure, hsbrk]
  rfl

theorem callSbrk_some {n a : Nat} (hsbrk : sbrk h.calls h.regions n = some a) :
    callSbrk sbrk n h =
      .ok (some a, { h with calls := h.calls + 1, regions := h.regions ++ [⟨a, n⟩] }) := by
  simp only [callSbrk, bind, StateT.bind, get, getThe, MonadStateOf.get, StateT.get, Except.bind,
    pure, Except.pure, hsbrk]
  rfl

def Heap.grow (h : Heap) (a nunits : Nat) : Heap :=
  { h with
    calls := h.calls + 1
    regions := h.regions ++ [⟨a, nunits * sizeofHeader⟩]
    header := Function.update h.header a ⟨(h.header a).ptr, nunits⟩ }

theorem refill_none
    (hsbrk : sbrk h.calls h.regions (coreUnits nunits * sizeofHeader) = none) :
    refill sbrk nunits fuel h = .ok (0, { h with calls := h.calls + 1 }) := by
  simp only [refill, morecore, bind, StateT.bind, callSbrk_none hsbrk, Except.bind]
  rfl

theorem refill_some {a : Nat} {h' : Heap}
    (hsbrk : sbrk h.calls h.regions (coreUnits nunits * sizeofHeader) = some a)
    (hfree : free fuel (a + sizeofHeader) (h.grow a (coreUnits nunits)) = .ok ((), h'))
    (hfreep : h'.freep ≠ 0) :
    refill sbrk nunits fuel h =
      mallocLoop sbrk nunits fuel h'.freep (h'.header h'.freep).ptr h' := by
  have hgrow : setSize a (coreUnits nunits)
      { h with
        calls := h.calls + 1
        regions := h.regions ++ [⟨a, coreUnits nunits * sizeofHeader⟩] } =
      .ok ((), h.grow a (coreUnits nunits)) :=
    setSize_eq _ _ _
  simp only [refill, morecore, bind, StateT.bind, callSbrk_some hsbrk, Except.bind, hgrow, hfree,
    get, getThe, MonadStateOf.get, StateT.get, pure, Except.pure]
  change (if h'.freep = 0 then _ else _ : HeapM Nat) h' = _
  rw [if_neg hfreep]
  rfl

theorem le_coreUnits (nunits : Nat) : nunits ≤ coreUnits nunits := by
  rw [coreUnits]
  split
  · omega
  · exact le_rfl

/-! ## `malloc` -/

def Allocated (base nunits : Nat) (h h' : Heap) (l bs : List Nat) (ap : Nat) : Prop :=
  ∃ l', l'.length ≤ l.length + 1 ∧ (∀ b ∈ bs, h'.header b = h.header b) ∧
    (ap = 0 ∧ Sound base h' l' bs ∨
      ∃ bp, ap = bp + sizeofHeader ∧ (h'.header bp).size = nunits ∧
        Sound base h' l' (bp :: bs))

theorem Sound.freep_ne_zero (hs : Sound base h l bs) (hbase : 0 < base) : h.freep ≠ 0 := by
  have := hs.list.base_le hs.freep
  omega

def coreBytes (nunits : Nat) : Nat := coreUnits nunits * sizeofHeader

theorem Sound.refill (hs : Sound base h l bs) (hfresh : FreshNext sbrk base h (coreBytes nunits))
    (hbase : 0 < base) (hn : 0 < nunits) (hfuel : l.length + 1 ≤ fuel) :
    ∃ ap h', Umalloc.refill sbrk nunits fuel h = .ok (ap, h') ∧
      Allocated base nunits h h' l bs ap ∧ Asked sbrk (coreBytes nunits) h h' := by
  cases hsbrk : sbrk h.calls h.regions (coreUnits nunits * sizeofHeader) with
  | none =>
      refine ⟨0, _, refill_none hsbrk, ⟨l, Nat.le_succ _, fun _ _ => rfl, .inl ⟨rfl, ?_⟩⟩, .inl rfl⟩
      exact { hs with list := hs.list.congr fun _ _ => rfl }
  | some a =>
      obtain ⟨habove, hends, hlimit⟩ := hfresh a hsbrk
      have hcore : 0 < coreUnits nunits := hn.trans_le (le_coreUnits nunits)
      rw [sizeofHeader] at habove
      have hregions : (h.grow a (coreUnits nunits)).regions =
          h.regions ++ [⟨a, coreUnits nunits * sizeofHeader⟩] := rfl
      obtain ⟨hgrown, hsame⟩ := hs.grown hcore (by omega) hends hlimit rfl hregions rfl rfl
      obtain ⟨h₁, l₁, hfree, hs₁, hsame₁, ⟨x, hx, hlarge⟩, hlength, hregions₁⟩ :=
        hgrown.free (by omega : l.length ≤ fuel)
      have hsize : ((h.grow a (coreUnits nunits)).header a).size = coreUnits nunits := by
        simp [Heap.grow]
      rw [hsize] at hlarge
      rw [refill_some hsbrk hfree (hs₁.freep_ne_zero hbase)]
      cases hs₁.list.scan sbrk hs₁.freep hn (hlength.trans hfuel) with
      | inl hfound =>
          obtain ⟨bp, h₂, l₂, hloop, hcarved⟩ := hfound
          obtain ⟨hs₂, hsame₂⟩ := hs₁.carved hn hcarved
          refine ⟨_, h₂, hloop, ⟨l₂, hcarved.length.trans hlength, ?_,
            .inr ⟨bp, rfl, hcarved.size, hs₂⟩⟩, .inr ⟨a, hsbrk, ?_⟩⟩
          · intro b hb
            rw [hsame₂ b hb, hsame₁ b hb, hsame b hb]
          · rw [hcarved.regions, hregions₁]
            exact hregions
      | inr hnone =>
          -- the region that was just freed is large enough
          have hsmall := hnone.1 x hx
          have hle := le_coreUnits nunits
          omega

theorem Sound.mallocLoop (hs : Sound base h l bs)
    (hfresh : FreshNext sbrk base h (coreBytes nunits)) (hbase : 0 < base) (hn : 0 < nunits)
    (hfuel : 2 * l.length + 1 ≤ fuel) :
    ∃ ap h', Umalloc.mallocLoop sbrk nunits fuel h.freep (h.header h.freep).ptr h =
        .ok (ap, h') ∧ Allocated base nunits h h' l bs ap ∧
        Asked sbrk (coreBytes nunits) h h' := by
  cases hs.list.scan sbrk hs.freep hn (by omega : l.length ≤ fuel) with
  | inl hfound =>
      obtain ⟨bp, h', l', hloop, hcarved⟩ := hfound
      obtain ⟨hs', hsame⟩ := hs.carved hn hcarved
      exact ⟨_, h', hloop, ⟨l', hcarved.length.trans (Nat.le_succ _), hsame,
        .inr ⟨bp, rfl, hcarved.size, hs'⟩⟩, .inl hcarved.regions⟩
  | inr hnone =>
      rw [hnone.2]
      exact hs.refill hfresh hbase hn (by omega)

theorem malloc_first {n : Nat} (hfreep : h.freep = 0) : malloc sbrk base fuel n h =
    Umalloc.mallocLoop sbrk (unitsFor n) fuel base base
      { h.set base ⟨base, 0⟩ with freep := base } := by
  have hptr : setPtr base base { h with freep := base } =
      .ok ((), { h.set base ⟨base, (h.header base).size⟩ with freep := base }) := setPtr_eq _ _ _
  have hsize : setSize base 0 { h.set base ⟨base, (h.header base).size⟩ with freep := base } =
      .ok ((), { h.set base ⟨base, 0⟩ with freep := base }) := by
    rw [setSize_eq]
    simp [Heap.set]
  have hself : (h.set base ⟨base, 0⟩).header base = ⟨base, 0⟩ := set_header_self
  simp only [malloc, bind, StateT.bind, get, getThe, MonadStateOf.get, StateT.get, pure,
    Except.pure, Except.bind, hfreep, if_true, setFreep, modify, modifyGet,
    MonadStateOf.modifyGet, StateT.modifyGet, hptr, hsize, hself]

theorem malloc_again {n : Nat} (hfreep : h.freep ≠ 0) : malloc sbrk base fuel n h =
    Umalloc.mallocLoop sbrk (unitsFor n) fuel h.freep (h.header h.freep).ptr h := by
  simp only [malloc, bind, StateT.bind, get, getThe, MonadStateOf.get, StateT.get, pure,
    Except.pure, Except.bind, if_neg hfreep]

theorem Sound.initial (base : Nat) (hregions : h.regions = []) :
    Sound base { h.set base ⟨base, 0⟩ with freep := base } [base] [] := by
  have hbase : (h.set base ⟨base, 0⟩).header base = ⟨base, 0⟩ := set_header_self
  constructor
  case list =>
    constructor
    case first => exact ⟨[], rfl⟩
    case path => exact ⟨congrArg Header.ptr hbase, trivial⟩
    case gaps => exact List.pairwise_singleton _ _
    case zero => exact congrArg Header.size hbase
    case pos =>
      intro a ha hne
      exact absurd (List.mem_singleton.mp ha) hne
  case freep => exact List.mem_cons_self
  case own =>
    have hend : (h.set base ⟨base, 0⟩).blockEnd base = base := by
      rw [Heap.blockEnd, hbase, Nat.mul_zero, Nat.add_zero]
    change (h.set base ⟨base, 0⟩).own [base] + 0 = bytesOf h.regions
    rw [own_cons, hend, hregions]
    simp [bytesOf]
  case nodup =>
    change (bytesOf h.regions).Nodup
    rw [hregions]
    exact Multiset.nodup_zero
  case above =>
    intro x hx
    change x ∈ bytesOf h.regions at hx
    rw [hregions] at hx
    exact absurd hx (Multiset.notMem_zero x)
  case limit =>
    intro x hx
    change x ∈ bytesOf h.regions at hx
    rw [hregions] at hx
    exact absurd hx (Multiset.notMem_zero x)
  case pos => exact fun b hb => absurd hb List.not_mem_nil

end

/-! ## Runs -/

def Live.header (block : Live) : Nat := block.ap - sizeofHeader

structure Heap.Holds (h : Heap) (block : Live) : Prop where
  start : block.header + sizeofHeader = block.ap
  room : block.ap + block.nbytes ≤ h.blockEnd block.header

structure World.Untouched (w : World) : Prop where
  freep : w.heap.freep = 0
  regions : w.heap.regions = []
  live : w.live = []

def World.Kept (base k : Nat) (w : World) : Prop :=
  w.Untouched ∨ ∃ l, Sound base w.heap l (w.live.map Live.header) ∧ l.length ≤ k + 1 ∧
    ∀ block ∈ w.live, w.heap.Holds block

section

variable {sbrk : Sbrk} {base fuel k : Nat} {w : World} {h h' : Heap} {l bs : List Nat}

theorem unitsFor_pos {n : Nat} (hn : n < 2 ^ 32) : 0 < unitsFor n := by
  rw [unitsFor, sizeofHeader]
  omega

theorem le_unitsFor {n : Nat} (hn : n < 2 ^ 32) :
    sizeofHeader + n ≤ sizeofHeader * unitsFor n := by
  rw [unitsFor, sizeofHeader]
  omega

theorem Heap.Holds.congr {block : Live} (hholds : h.Holds block)
    (hsame : h'.header block.header = h.header block.header) : h'.Holds block where
  start := hholds.start
  room := by
    rw [blockEnd_congr (congrArg Header.size hsame)]
    exact hholds.room

theorem Sound.congr (hs : Sound base h l bs) (hfree : ∀ a ∈ l, h'.header a = h.header a)
    (hlive : ∀ b ∈ bs, h'.header b = h.header b) (hfreep : h'.freep = h.freep)
    (hregions : h'.regions = h.regions) : Sound base h' l bs where
  list := hs.list.congr hfree
  freep := hfreep ▸ hs.freep
  own := by
    rw [own_congr fun a ha => congrArg Header.size (hfree a ha),
      own_congr fun b hb => congrArg Header.size (hlive b hb), hregions, hs.own]
  nodup := hregions ▸ hs.nodup
  above := hregions ▸ hs.above
  limit := hregions ▸ hs.limit
  pos := by
    intro b hb
    rw [hlive b hb]
    exact hs.pos b hb

theorem own_perm {l l' : List Nat} (hperm : l.Perm l') : h.own l = h.own l' :=
  (hperm.map _).sum_eq

theorem Sound.perm {bs' : List Nat} (hs : Sound base h l bs) (hperm : bs.Perm bs') :
    Sound base h l bs' where
  list := hs.list
  freep := hs.freep
  own := own_perm hperm ▸ hs.own
  nodup := hs.nodup
  above := hs.above
  limit := hs.limit
  pos := fun b hb => hs.pos b (hperm.mem_iff.mpr hb)

theorem Sound.pairwise (hs : Sound base h l bs) :
    bs.Pairwise h.Apart := by
  have hnodup := hs.nodup
  rw [← hs.own, Multiset.nodup_add] at hnodup
  have hown := hnodup.2.1
  have hpos := hs.pos
  clear hs hnodup
  induction bs with
  | nil => exact .nil
  | cons b bs ih =>
      rw [own_cons, Multiset.nodup_add] at hown
      refine .cons ?_ (ih hown.2.1 fun c hc => hpos c (List.mem_cons_of_mem b hc))
      intro c hc
      by_contra hover
      obtain ⟨x, hxb, hxc⟩ := exists_shared hover (lt_blockEnd (hpos b List.mem_cons_self))
        (lt_blockEnd (hpos c (List.mem_cons_of_mem b hc)))
      exact Multiset.disjoint_left.mp hown.2.2 (Multiset.mem_Ico.mpr hxb)
        (mem_own.mpr ⟨c, hc, hxc⟩)

theorem Allocated.kept {nbytes ap : Nat} {live : List Live}
    (halloc : Allocated base (unitsFor nbytes) h h' l (live.map Live.header) ap)
    (hlength : l.length ≤ k + 1) (hn : nbytes < 2 ^ 32)
    (hholds : ∀ block ∈ live, h.Holds block) :
    World.Kept base (k + 1)
      { heap := h', live := if ap = 0 then live else ⟨ap, nbytes⟩ :: live } := by
  obtain ⟨l', hlength', hsame, hcases⟩ := halloc
  have hold : ∀ block ∈ live, h'.Holds block := fun block hmem =>
    (hholds block hmem).congr (hsame _ (List.mem_map_of_mem hmem))
  refine .inr ⟨l', ?_, by omega, ?_⟩
  · cases hcases with
    | inl hnone =>
        rw [if_pos hnone.1]
        exact hnone.2
    | inr hsome =>
        obtain ⟨bp, rfl, -, hs⟩ := hsome
        rw [if_neg (by rw [sizeofHeader]; omega)]
        exact hs
  · cases hcases with
    | inl hnone =>
        rw [if_pos hnone.1]
        exact hold
    | inr hsome =>
        obtain ⟨bp, rfl, hsize, hs⟩ := hsome
        rw [if_neg (by rw [sizeofHeader]; omega)]
        intro block hmem
        cases List.mem_cons.mp hmem with
        | inl heq =>
            have hheader : block.header = bp := by
              rw [heq, Live.header, Nat.add_sub_cancel]
            have hroom := le_unitsFor hn
            rw [heq] at hheader ⊢
            constructor
            case start => rw [hheader]
            case room =>
              rw [hheader, Heap.blockEnd, hsize]
              change bp + sizeofHeader + nbytes ≤ _
              omega
        | inr hmem => exact hold block hmem

theorem World.Kept.mono {k' : Nat} (hw : w.Kept base k) (hk : k ≤ k') : w.Kept base k' := by
  cases hw with
  | inl huntouched => exact .inl huntouched
  | inr hsome =>
      obtain ⟨l, hs, hlength, hholds⟩ := hsome
      exact .inr ⟨l, hs, by omega, hholds⟩

theorem kept_malloc {nbytes : Nat} (hw : w.Kept base k)
    (hfresh : FreshNext sbrk base w.heap (coreBytes (unitsFor nbytes)))
    (hbase : 0 < base) (hn : nbytes < 2 ^ 32) (hfuel : 2 * k + 3 ≤ fuel) :
    ∃ w', (Op.malloc nbytes).run sbrk base fuel w = .ok w' ∧ w'.Kept base (k + 1) ∧
      Asked sbrk (coreBytes (unitsFor nbytes)) w.heap w'.heap := by
  have hpos := unitsFor_pos hn
  have hmalloc : ∃ ap h', malloc sbrk base fuel nbytes w.heap = .ok (ap, h') ∧
      World.Kept base (k + 1)
        { heap := h', live := if ap = 0 then w.live else ⟨ap, nbytes⟩ :: w.live } ∧
      Asked sbrk (coreBytes (unitsFor nbytes)) w.heap h' := by
    cases hw with
    | inl huntouched =>
        have hs := Sound.initial base huntouched.regions
        have hround : 2 * [base].length + 1 ≤ fuel := by
          rw [List.length_singleton]
          omega
        obtain ⟨ap, h', hloop, halloc, hasked⟩ := hs.mallocLoop hfresh hbase hpos hround
        rw [malloc_first huntouched.freep]
        have hself : (w.heap.set base ⟨base, 0⟩).header base = ⟨base, 0⟩ := set_header_self
        rw [hself] at hloop
        refine ⟨ap, h', hloop, ?_, hasked⟩
        have hlive := huntouched.live
        refine Allocated.kept (l := [base]) (h := { w.heap.set base ⟨base, 0⟩ with freep := base })
          ?_ (by simp) hn ?_
        · rw [hlive]
          exact halloc
        · rw [hlive]
          exact fun block hmem => absurd hmem List.not_mem_nil
    | inr hsome =>
        obtain ⟨l, hs, hlength, hholds⟩ := hsome
        obtain ⟨ap, h', hloop, halloc, hasked⟩ := hs.mallocLoop hfresh hbase hpos
          (by omega : 2 * l.length + 1 ≤ fuel)
        rw [malloc_again (hs.freep_ne_zero hbase)]
        exact ⟨ap, h', hloop, halloc.kept hlength hn hholds, hasked⟩
  obtain ⟨ap, h', hmalloc, hkept, hasked⟩ := hmalloc
  refine ⟨_, ?_, hkept, hasked⟩
  rw [Op.run, hmalloc]

theorem kept_free {ap : Nat} (hw : w.Kept base k) (hallowed : (Op.free ap).Allowed w.live)
    (hfuel : 2 * k + 3 ≤ fuel) :
    ∃ w', (Op.free ap).run sbrk base fuel w = .ok w' ∧ w'.Kept base (k + 1) ∧
      w'.heap.regions = w.heap.regions := by
  obtain ⟨block, hblock, rfl⟩ := hallowed
  cases hw with
  | inl huntouched =>
      rw [huntouched.live] at hblock
      exact absurd hblock List.not_mem_nil
  | inr hsome =>
      obtain ⟨l, hs, hlength, hholds⟩ := hsome
      obtain ⟨live₁, live₂, hlive⟩ := List.append_of_mem hblock
      have hperm : (w.live.map Live.header).Perm
          (block.header :: (live₁ ++ live₂).map Live.header) := by
        rw [hlive, ← List.map_cons]
        exact List.perm_middle.map _
      have hstart : ∀ other ∈ live₁ ++ live₂, other.ap ≠ block.ap := by
        intro other hother heq
        have hpos := lt_blockEnd (hs.pos _ (List.mem_map_of_mem hblock))
        have hapart := (List.pairwise_cons.mp (hs.perm hperm).pairwise).1 _
          (List.mem_map_of_mem hother)
        have hsame : other.header = block.header := by rw [Live.header, heq, Live.header]
        rw [hsame, Heap.Apart] at hapart
        omega
      have hfilter : w.live.filter (fun other => other.ap ≠ block.ap) = live₁ ++ live₂ := by
        rw [hlive, List.filter_append, List.filter_cons_of_neg (by simp), ← List.filter_append,
          List.filter_eq_self]
        intro other hother
        exact decide_eq_true (hstart other hother)
      obtain ⟨h', l', hfree, hs', hsame, -, hlength', hregions⟩ :=
        (hs.perm hperm).free (by omega : l.length ≤ fuel)
      rw [(hholds block hblock).start] at hfree
      refine ⟨{ heap := h', live := live₁ ++ live₂ }, ?_, .inr ⟨l', hs', by omega, ?_⟩, hregions⟩
      · rw [Op.run, hfree, hfilter]
      · intro other hother
        have hmem : other ∈ w.live := by
          rw [hlive]
          simp only [List.mem_append, List.mem_cons] at hother ⊢
          tauto
        exact (hholds other hmem).congr (hsame _ (List.mem_map_of_mem hother))

theorem kept_store {ap : Nat} {content : Nat → Header} (hw : w.Kept base k)
    (hallowed : (Op.store ap content).Allowed w.live) :
    ∃ w', (Op.store ap content).run sbrk base fuel w = .ok w' ∧ w'.Kept base (k + 1) ∧
      w'.heap.regions = w.heap.regions := by
  obtain ⟨block, hblock, rfl⟩ := hallowed
  refine ⟨_, rfl, ?_, rfl⟩
  cases hw with
  | inl huntouched =>
      rw [huntouched.live] at hblock
      exact absurd hblock List.not_mem_nil
  | inr hsome =>
      obtain ⟨l, hs, hlength, hholds⟩ := hsome
      have hmem : block.header ∈ w.live.map Live.header := List.mem_map_of_mem hblock
      have hkeep : ∀ a, w.heap.Apart a block.header →
          (w.heap.write block.header content).header a = w.heap.header a := by
        intro a hapart
        have hle := le_blockEnd w.heap a
        rw [Heap.Apart] at hapart
        exact if_neg (by omega)
      have hfree : ∀ a ∈ l, (w.heap.write block.header content).header a = w.heap.header a :=
        fun a ha => hkeep a (hs.apart ha hmem)
      have hlive : ∀ b ∈ w.live.map Live.header,
          (w.heap.write block.header content).header b = w.heap.header b := by
        intro b hb
        by_cases heq : b = block.header
        · rw [heq]
          exact if_neg (by omega)
        · apply hkeep
          have hsymm : Std.Symm w.heap.Apart := ⟨fun _ _ => Or.symm⟩
          exact hs.pairwise.forall hb hmem heq
      refine .inr ⟨l, hs.congr hfree hlive rfl rfl, by omega, ?_⟩
      exact fun other hother => (hholds other hother).congr (hlive _ (List.mem_map_of_mem hother))

theorem kept_step (op : Op) (hw : w.Kept base k) (hfresh : Fresh sbrk base) (hbase : 0 < base)
    (hfuel : 2 * k + 3 ≤ fuel) :
    ∃ w', step sbrk base fuel w op = .ok w' ∧ w'.Kept base (k + 1) := by
  by_cases hallowed : op.Allowed w.live
  · rw [step, if_pos hallowed]
    cases op with
    | malloc nbytes =>
        obtain ⟨w', hrun, hw', -⟩ := kept_malloc hw (fun _ => hfresh _ _ _ _) hbase hallowed.1 hfuel
        exact ⟨w', hrun, hw'⟩
    | free ap =>
        obtain ⟨w', hrun, hw', -⟩ := kept_free hw hallowed hfuel
        exact ⟨w', hrun, hw'⟩
    | store ap content =>
        obtain ⟨w', hrun, hw', -⟩ := kept_store hw hallowed
        exact ⟨w', hrun, hw'⟩
  · rw [step, if_neg hallowed]
    exact ⟨w, rfl, hw.mono (Nat.le_succ k)⟩

theorem kept_run (ops : List Op) (hw : w.Kept base k) (hfresh : Fresh sbrk base)
    (hbase : 0 < base) (hfuel : 2 * (k + ops.length) + 3 ≤ fuel) :
    ∃ w', ops.foldlM (step sbrk base fuel) w = .ok w' ∧ w'.Kept base (k + ops.length) := by
  induction ops generalizing w k with
  | nil => exact ⟨w, rfl, hw⟩
  | cons op ops ih =>
      rw [List.length_cons] at hfuel ⊢
      obtain ⟨w₁, hstep, hw₁⟩ := kept_step op hw hfresh hbase (by omega : 2 * k + 3 ≤ fuel)
      obtain ⟨w', hrest, hw'⟩ := ih hw₁ (by omega)
      refine ⟨w', ?_, hw'.mono (by omega)⟩
      rw [List.foldlM_cons, hstep]
      exact hrest

/-- The free list is one ascending cycle through `base` of blocks with gaps between them,
live blocks are apart from each other and from free ones, and together they are the
memory that `sbrk` gave. -/
structure World.Correct (base : Nat) (w : World) (l : List Nat) : Prop where
  first : ∃ rest, l = base :: rest
  cycle : Path (fun a => (w.heap.header a).ptr) l base
  freep : w.heap.freep ∈ l
  ascending : l.Pairwise fun a b => a < b
  coalesced : l.Pairwise fun a b => w.heap.blockEnd a < b
  live : w.live.Pairwise fun a b => w.heap.Apart a.header b.header
  apart : ∀ a ∈ l, ∀ block ∈ w.live, w.heap.Apart a block.header
  inside : ∀ block ∈ w.live, ∀ x ∈ Set.Ico block.header (w.heap.blockEnd block.header),
    ∃ r ∈ w.heap.regions, x ∈ Set.Ico r.start (r.start + r.bytes)
  holds : ∀ block ∈ w.live, w.heap.Holds block
  units : sizeofHeader * ((l.map fun a => (w.heap.header a).size).sum +
      (w.live.map fun block => (w.heap.header block.header).size).sum) =
    (w.heap.regions.map Region.bytes).sum

theorem card_Ico (a b : Nat) : (Multiset.Ico a b).card = b - a := Nat.card_Ico a b

theorem card_own (h : Heap) (l : List Nat) :
    (h.own l).card = sizeofHeader * (l.map fun a => (h.header a).size).sum := by
  induction l with
  | nil => simp
  | cons a l ih =>
      rw [own_cons, Multiset.card_add, ih, List.map_cons, List.sum_cons, Nat.mul_add,
        card_Ico, Heap.blockEnd, Nat.add_sub_cancel_left]

theorem card_bytesOf (regions : List Region) :
    (bytesOf regions).card = (regions.map Region.bytes).sum := by
  induction regions with
  | nil => rfl
  | cons r regions ih =>
      rw [List.map_cons, List.sum_cons, ← ih, bytesOf, List.map_cons, List.sum_cons,
        Multiset.card_add, card_Ico, Nat.add_sub_cancel_left, bytesOf]

theorem Sound.correct (hs : Sound base w.heap l (w.live.map Live.header))
    (hholds : ∀ block ∈ w.live, w.heap.Holds block) : w.Correct base l := by
  constructor
  case first => exact hs.list.first
  case cycle => exact hs.list.path
  case freep => exact hs.freep
  case ascending => exact hs.list.gaps.imp fun {a _} hgap => (le_blockEnd w.heap a).trans_lt hgap
  case coalesced => exact hs.list.gaps
  case live => exact List.pairwise_map.mp hs.pairwise
  case apart => exact fun a ha block hmem => hs.apart ha (List.mem_map_of_mem hmem)
  case inside =>
    intro block hmem x hx
    have hown : x ∈ w.heap.own (w.live.map Live.header) :=
      mem_own.mpr ⟨block.header, List.mem_map_of_mem hmem, hx⟩
    exact mem_bytesOf.mp (hs.mem_bytes_of_live hown)
  case holds => exact hholds
  case units =>
    have hcard := congrArg Multiset.card hs.own
    rw [Multiset.card_add, card_own, card_own, card_bytesOf, List.map_map] at hcard
    rw [Nat.mul_add]
    exact hcard

/-- Whatever a program does, its calls return and the heap is right afterwards. -/
theorem run_correct (sbrk : Sbrk) (base fuel : Nat) (header : Nat → Header) (ops : List Op)
    (hbase : 0 < base) (hfresh : Fresh sbrk base) (hfuel : 2 * ops.length + 3 ≤ fuel) :
    ∃ w, run sbrk base fuel header ops = .ok w ∧ (w.Untouched ∨ ∃ l, w.Correct base l) := by
  have hstart : (World.start header).Kept base 0 := .inl ⟨rfl, rfl, rfl⟩
  obtain ⟨w, hrun, hw⟩ := kept_run ops hstart hfresh hbase (by omega : 2 * (0 + _) + 3 ≤ fuel)
  refine ⟨w, hrun, ?_⟩
  cases hw with
  | inl huntouched => exact .inl huntouched
  | inr hsome =>
      obtain ⟨l, hs, -, hholds⟩ := hsome
      exact .inr ⟨l, hs.correct hholds⟩

end

/-- Regions one behind the other from 4096 on, as `growproc` gives them. -/
def bumpSbrk : Sbrk := fun _ regions n =>
  let a := regions.foldr (fun r a => max (r.start + r.bytes) a) 4096
  if a + n ≤ sizeLimit then some a else none

theorem bumpSbrk_fresh : Fresh bumpSbrk 1024 := by
  intro calls regions n a hsbrk
  have hends : ∀ regions : List Region,
      4096 ≤ regions.foldr (fun r a => max (r.start + r.bytes) a) 4096 ∧
      ∀ r ∈ regions, r.start + r.bytes ≤
        regions.foldr (fun r a => max (r.start + r.bytes) a) 4096 := by
    intro regions
    induction regions with
    | nil => simp
    | cons r regions ih => simp_all
  simp only [bumpSbrk] at hsbrk
  split at hsbrk
  · rename_i hlimit
    cases hsbrk
    obtain ⟨hle, hall⟩ := hends regions
    refine ⟨?_, hall, hlimit⟩
    rw [sizeofHeader]
    omega
  · cases hsbrk

theorem run_correct_two_blocks :
    (run bumpSbrk 1024 20 (fun _ => ⟨0, 0⟩) [.malloc 100, .malloc 20, .free 69520]).toOption.map
        World.live = some [⟨69472, 20⟩] ∧
      ∃ w, run bumpSbrk 1024 20 (fun _ => ⟨0, 0⟩) [.malloc 100, .malloc 20, .free 69520] = .ok w ∧
        (w.Untouched ∨ ∃ l, w.Correct 1024 l) :=
  ⟨by decide +kernel, run_correct bumpSbrk 1024 20 (fun _ => ⟨0, 0⟩)
    [.malloc 100, .malloc 20, .free 69520] (by decide) bumpSbrk_fresh (by decide)⟩

end SyscallSched.Umalloc
