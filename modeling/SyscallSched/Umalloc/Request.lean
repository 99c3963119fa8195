import SyscallSched.Umalloc.Heap
import SyscallSched.Xv6.GrowReport

/-!
# What `malloc` asks for

`morecore` computes the bytes in 64 bits and `sbrk` takes an `int`.  From 2^27 units on
the two differ: the process is made smaller, stays as it is or grows by one unit, and the
header has the size that was meant.
-/

namespace SyscallSched.Umalloc

open SyscallSched.Foundation SyscallSched.Xv6

/-! ## `sbrk` -/

/-- Which sizes `uvmalloc` can bring about at which call.  Each page has a frame of its
own, so that no process gets 2^32 bytes. -/
structure Memory where
  grants : Nat → Nat → Bool
  limit : ∀ call sz, grants call sz = true → sz < 4294967296

def processSize (sz₀ : Nat) (regions : List Region) : Nat :=
  regions.foldl (fun sz r => aimedSize sz (asInt r.bytes)) sz₀

/-- `sbrk`, asked for a number of bytes that need not be an `int`. -/
def kernelSbrk (sz₀ : Nat) (memory : Memory) : Sbrk := fun calls regions n =>
  let sz := processSize sz₀ regions
  if 0 < asInt n ∧ memory.grants calls (aimedSize sz (asInt n)) = false then none else some sz

theorem processSize_concat (sz₀ : Nat) (regions : List Region) (r : Region) :
    processSize sz₀ (regions ++ [r]) = aimedSize (processSize sz₀ regions) (asInt r.bytes) := by
  rw [processSize, List.foldl_append]
  rfl

theorem sysSbrk_kernelSbrk [Image] {X U : Multiset Nat} {k : Kernel} {p sz₀ : Nat}
    {g : Nat → Nat} {regions : List Region} (h : UserSpace X k.mem (k.proc p).pagetable g
      (pageCount (k.proc p).sz) (k.proc p).trapframe U)
    (hsz : (k.proc p).sz = processSize sz₀ regions) (n : Nat) :
    ∃ res k' memory, sysSbrk p (asInt n) k = .ok (res, k') ∧ ∀ calls,
      (kernelSbrk sz₀ memory calls regions n = none ∧ res = -1 ∧
        (k'.proc p).sz = processSize sz₀ regions) ∨
      ∃ a : Nat, kernelSbrk sz₀ memory calls regions n = some a ∧ res = a ∧
        (k'.proc p).sz = processSize sz₀ (regions ++ [⟨a, n⟩]) := by
  obtain ⟨res, k', hrun, hres⟩ := sysSbrk_run h (asInt n)
  cases hres with
  | inl hfail =>
      obtain ⟨hres, hpos, hout⟩ := hfail
      refine ⟨res, k', ⟨fun _ _ => false, fun _ _ hfalse => by cases hfalse⟩, hrun, fun calls => ?_⟩
      refine .inl ⟨if_pos ⟨hpos, rfl⟩, hres, ?_⟩
      rw [hout.edited.self]
      exact hsz
  | inr hdone =>
      obtain ⟨hres, g', hout⟩ := hdone
      have hlt := sized_lt hout.space rfl
      refine ⟨res, k', ⟨fun _ sz => sz < 4294967296, fun _ _ => of_decide_eq_true⟩, hrun,
        fun calls => .inr ⟨processSize sz₀ regions, if_neg ?_, ?_, ?_⟩⟩
      · rw [← hsz]
        rintro ⟨-, hfalse⟩
        exact of_decide_eq_false hfalse hlt
      · rw [hres, hsz]
      · rw [processSize_concat, ← hsz, hout.edited.self]

/-! ## The sizes -/

section

variable (sbrk : Sbrk)

/-- `morecore` up to the call of `free`: the new block. -/
def newBlock (nu : Nat) : HeapM (Option Nat) := do
  match ← callSbrk sbrk (coreUnits nu * sizeofHeader) with
  | none => pure none
  | some hp => do
      setSize hp (coreUnits nu)
      pure (some hp)

/-- The rest of `morecore`. -/
def freeBlock (fuel : Nat) : Option Nat → HeapM Nat
  | none => pure 0
  | some hp => do
      free fuel (hp + sizeofHeader)
      let h ← get
      pure h.freep

theorem newBlock_none {nu : Nat} {h : Heap}
    (hsbrk : sbrk h.calls h.regions (coreUnits nu * sizeofHeader) = none) :
    newBlock sbrk nu h = .ok (none, { h with calls := h.calls + 1 }) := by
  simp only [newBlock, bind, StateT.bind, callSbrk_none hsbrk, Except.bind]
  rfl

theorem newBlock_some {nu hp : Nat} {h : Heap}
    (hsbrk : sbrk h.calls h.regions (coreUnits nu * sizeofHeader) = some hp) :
    newBlock sbrk nu h = .ok (some hp, h.grow hp (coreUnits nu)) := by
  simp only [newBlock, bind, StateT.bind, callSbrk_some hsbrk, Except.bind, setSize_eq]
  rfl

theorem morecore_newBlock (fuel nu : Nat) :
    morecore sbrk fuel nu = newBlock sbrk nu >>= freeBlock fuel := by
  funext h
  cases hsbrk : sbrk h.calls h.regions (coreUnits nu * sizeofHeader) with
  | none =>
      simp only [morecore, bind, StateT.bind, callSbrk_none hsbrk, newBlock_none sbrk hsbrk,
        Except.bind]
      rfl
  | some hp =>
      simp only [morecore, bind, StateT.bind, callSbrk_some hsbrk, newBlock_some sbrk hsbrk,
        Except.bind, setSize_eq]
      rfl

end

/-- The last bytes that `sbrk` gave are those of the block at `hp`, and there are some. -/
def SizesAgree (h : Heap) (hp : Nat) : Prop :=
  ∃ n, h.regions.getLast? = some ⟨hp, n⟩ ∧
    asInt n = sizeofHeader * (h.header hp).size ∧ 0 < asInt n

section

variable {sbrk : Sbrk} {h h' : Heap} {hp nu nbytes : Nat}

theorem eq_grow_of_newBlock (hrun : newBlock sbrk nu h = .ok (some hp, h')) :
    h' = h.grow hp (coreUnits nu) := by
  cases hsbrk : sbrk h.calls h.regions (coreUnits nu * sizeofHeader) with
  | none =>
      rw [newBlock_none sbrk hsbrk] at hrun
      cases hrun
  | some a =>
      rw [newBlock_some sbrk hsbrk] at hrun
      cases hrun
      rfl

theorem sizesAgree_grow_iff : SizesAgree (h.grow hp nu) hp ↔
    asInt (nu * sizeofHeader) = sizeofHeader * nu ∧ 0 < asInt (nu * sizeofHeader) := by
  have hsize : ((h.grow hp nu).header hp).size = nu := by simp [Heap.grow]
  have hlast : (h.grow hp nu).regions.getLast? = some ⟨hp, nu * sizeofHeader⟩ :=
    List.getLast?_concat
  rw [SizesAgree, hlast, hsize]
  constructor
  · rintro ⟨n, hn, hagree⟩
    cases hn
    exact hagree
  · intro hagree
    exact ⟨_, rfl, hagree⟩

theorem coreUnits_unitsFor (hn : nbytes < 2 ^ 32) :
    coreUnits (unitsFor nbytes) = max 4096 ((nbytes + 15) / 16 + 1) := by
  rw [coreUnits, unitsFor, sizeofHeader]
  split
  · omega
  · omega

theorem asInt_coreBytes_iff (hn : nbytes < 2 ^ 32) :
    (asInt (coreBytes (unitsFor nbytes)) = sizeofHeader * coreUnits (unitsFor nbytes) ∧
      0 < asInt (coreBytes (unitsFor nbytes))) ↔ nbytes ≤ 2147483616 := by
  have hunits := coreUnits_unitsFor hn
  rw [coreBytes, sizeofHeader]
  by_cases hsmall : nbytes ≤ 2147483616
  · rw [asInt_small (by omega)]
    omega
  · rw [asInt_large (by omega) (by omega)]
    omega

theorem coreBytes_small (hsmall : nbytes ≤ 2147483616) :
    0 < coreBytes (unitsFor nbytes) ∧ coreBytes (unitsFor nbytes) < 2147483648 := by
  have hunits := coreUnits_unitsFor (by omega : nbytes < 2 ^ 32)
  rw [coreBytes, sizeofHeader]
  omega

end

/-! ## Runs -/

/-- The program frees and writes only what it has; it may ask for any number of bytes. -/
def Op.Possible (live : List Live) : Op → Prop
  | .malloc nbytes => nbytes < 2 ^ 32
  | .free ap => (Op.free ap).Allowed live
  | .store ap content => (Op.store ap content).Allowed live

instance (live : List Live) (op : Op) : Decidable (op.Possible live) :=
  match op with
  | .malloc nbytes => inferInstanceAs (Decidable (nbytes < 2 ^ 32))
  | .free ap => inferInstanceAs (Decidable ((Op.free ap).Allowed live))
  | .store ap content => inferInstanceAs (Decidable ((Op.store ap content).Allowed live))

def possibleStep (sbrk : Sbrk) (base fuel : Nat) (w : World) (op : Op) : Except Stuck World :=
  if op.Possible w.live then op.run sbrk base fuel w else .ok w

def possibleRun (sbrk : Sbrk) (base fuel : Nat) (header : Nat → Header) (ops : List Op) :
    Except Stuck World :=
  ops.foldlM (possibleStep sbrk base fuel) (World.start header)

def Op.Small : Op → Prop
  | .malloc nbytes => nbytes ≤ 2147483616
  | _ => True

/-- The regions lie in the part of the process that was added to it. -/
structure Stacked (sz₀ : Nat) (regions : List Region) : Prop where
  start : ∀ r ∈ regions, sz₀ ≤ r.start
  ends : ∀ r ∈ regions, r.start + r.bytes ≤ processSize sz₀ regions
  grown : sz₀ ≤ processSize sz₀ regions
  limit : processSize sz₀ regions < 4294967296

section

variable {memory : Memory} {base sz₀ fuel calls n a k : Nat} {regions : List Region}
  {w : World} {op : Op}

theorem Stacked.next (hs : Stacked sz₀ regions) (hpos : 0 < n) (hn : n < 2147483648)
    (hsbrk : kernelSbrk sz₀ memory calls regions n = some a) :
    a = processSize sz₀ regions ∧ a + n < 4294967296 ∧ Stacked sz₀ (regions ++ [⟨a, n⟩]) := by
  rw [kernelSbrk, asInt_small hn] at hsbrk
  have hlimit := hs.limit
  have haim : aimedSize (processSize sz₀ regions) n = processSize sz₀ regions + n := by
    have haim := aimedSize_eq (n := (n : Int)) hlimit (by omega) (by omega)
    omega
  rw [haim] at hsbrk
  split_ifs at hsbrk with hdenied
  cases hsbrk
  have hgrants : memory.grants calls (processSize sz₀ regions + n) = true := by
    rw [← Bool.not_eq_false]
    exact fun hfalse => hdenied ⟨by omega, hfalse⟩
  have hlt := memory.limit _ _ hgrants
  have hsize : processSize sz₀ (regions ++ [⟨processSize sz₀ regions, n⟩]) =
      processSize sz₀ regions + n := by
    rw [processSize_concat, asInt_small hn, haim]
  refine ⟨rfl, hlt, ?_⟩
  constructor
  case start =>
    intro r hr
    cases List.mem_append.mp hr with
    | inl hr => exact hs.start r hr
    | inr hr =>
        rw [List.mem_singleton.mp hr]
        exact hs.grown
  case ends =>
    intro r hr
    rw [hsize]
    cases List.mem_append.mp hr with
    | inl hr => exact (hs.ends r hr).trans (Nat.le_add_right _ _)
    | inr hr => rw [List.mem_singleton.mp hr]
  case grown =>
    rw [hsize]
    exact hs.grown.trans (Nat.le_add_right _ _)
  case limit =>
    rw [hsize]
    exact hlt

theorem possible_step (memory : Memory) (hw : w.Kept base k) (hs : Stacked sz₀ w.heap.regions)
    (hbase : 0 < base) (hsz : base + sizeofHeader ≤ sz₀) (hsmall : op.Small)
    (hfuel : 2 * k + 3 ≤ fuel) :
    ∃ w', possibleStep (kernelSbrk sz₀ memory) base fuel w op = .ok w' ∧
      w'.Kept base (k + 1) ∧ Stacked sz₀ w'.heap.regions := by
  rw [possibleStep]
  by_cases hpossible : op.Possible w.live
  · rw [if_pos hpossible]
    cases op with
    | malloc nbytes =>
        obtain ⟨hpos, hlt⟩ := coreBytes_small hsmall
        have hfresh : FreshNext (kernelSbrk sz₀ memory) base w.heap
            (coreBytes (unitsFor nbytes)) := by
          intro a ha
          obtain ⟨heq, hend, -⟩ := hs.next hpos hlt ha
          have hgrown := hs.grown
          refine ⟨by omega, fun r hr => heq ▸ hs.ends r hr, ?_⟩
          rw [sizeLimit]
          omega
        obtain ⟨w', hrun, hw', hasked⟩ := kept_malloc hw hfresh hbase hpossible hfuel
        refine ⟨w', hrun, hw', ?_⟩
        cases hasked with
        | inl hsame => exact hsame ▸ hs
        | inr hgiven =>
            obtain ⟨a, ha, hregions⟩ := hgiven
            exact hregions ▸ (hs.next hpos hlt ha).2.2
    | free ap =>
        obtain ⟨w', hrun, hw', hregions⟩ := kept_free hw hpossible hfuel
        exact ⟨w', hrun, hw', hregions ▸ hs⟩
    | store ap content =>
        obtain ⟨w', hrun, hw', hregions⟩ := kept_store hw hpossible
        exact ⟨w', hrun, hw', hregions ▸ hs⟩
  · rw [if_neg hpossible]
    exact ⟨w, rfl, hw.mono (Nat.le_succ k), hs⟩

theorem possible_run (memory : Memory) (ops : List Op) (hw : w.Kept base k)
    (hs : Stacked sz₀ w.heap.regions) (hbase : 0 < base) (hsz : base + sizeofHeader ≤ sz₀)
    (hsmall : ∀ op ∈ ops, op.Small)
    (hfuel : 2 * (k + ops.length) + 3 ≤ fuel) :
    ∃ w', ops.foldlM (possibleStep (kernelSbrk sz₀ memory) base fuel) w = .ok w' ∧
      w'.Kept base (k + ops.length) ∧ Stacked sz₀ w'.heap.regions := by
  induction ops generalizing w k with
  | nil => exact ⟨w, rfl, hw, hs⟩
  | cons op ops ih =>
      rw [List.length_cons] at hfuel ⊢
      obtain ⟨w₁, hstep, hw₁, hs₁⟩ := possible_step memory hw hs hbase hsz
        (hsmall op List.mem_cons_self) (by omega : 2 * k + 3 ≤ fuel)
      obtain ⟨w', hrest, hw', hs'⟩ := ih hw₁ hs₁ (fun op' hop' =>
        hsmall op' (List.mem_cons_of_mem op hop')) (by omega)
      refine ⟨w', ?_, hw'.mono (by omega), hs'⟩
      rw [List.foldlM_cons, hstep]
      exact hrest

/-- The bytes of the block lie in the memory that `sbrk` gave to the process. -/
def Obtained (sz₀ : Nat) (w : World) (block : Live) : Prop :=
  ∀ x, block.header ≤ x → x < block.ap + block.nbytes →
    sz₀ ≤ x ∧ x < processSize sz₀ w.heap.regions

theorem World.Kept.obtained (hw : w.Kept base k) (hs : Stacked sz₀ w.heap.regions)
    {block : Live} (hblock : block ∈ w.live) : Obtained sz₀ w block := by
  cases hw with
  | inl huntouched =>
      rw [huntouched.live] at hblock
      exact absurd hblock List.not_mem_nil
  | inr hsome =>
      obtain ⟨l, hsound, -, hholds⟩ := hsome
      intro x hge hlt
      have hend := hlt.trans_le (hholds block hblock).room
      obtain ⟨r, hr, hx⟩ := (hsound.correct hholds).inside block hblock x ⟨hge, hend⟩
      exact ⟨(hs.start r hr).trans hx.1, hx.2.trans_le (hs.ends r hr)⟩

end

/-- The sizes agree exactly for requests of up to 2^31 - 32 bytes, and as long as a program
makes only such requests its blocks lie in memory that was obtained. -/
theorem malloc_sizes_iff {base sz₀ : Nat} (hbase : 0 < base)
    (hsz : base + sizeofHeader ≤ sz₀) (hlt : sz₀ < 4294967296) :
    (∀ nbytes < 2 ^ 32,
      (∀ sbrk h hp h', newBlock sbrk (unitsFor nbytes) h = .ok (some hp, h') →
        SizesAgree h' hp) ↔ nbytes ≤ 2147483616) ∧
    ∀ (memory : Memory) (fuel : Nat) (header : Nat → Header) (ops : List Op),
      (∀ op ∈ ops, op.Small) → 2 * ops.length + 3 ≤ fuel →
      ∃ w, possibleRun (kernelSbrk sz₀ memory) base fuel header ops = .ok w ∧
        ∀ block ∈ w.live, Obtained sz₀ w block := by
  constructor
  · intro nbytes hn
    rw [← asInt_coreBytes_iff hn]
    constructor
    · intro h
      have hrun := @newBlock_some (fun _ _ _ => some 0) (unitsFor nbytes) 0
        (World.start fun _ => ⟨0, 0⟩).heap rfl
      exact sizesAgree_grow_iff.mp (h _ _ _ _ hrun)
    · intro hagree sbrk h hp h' hrun
      rw [eq_grow_of_newBlock hrun]
      exact sizesAgree_grow_iff.mpr hagree
  · intro memory fuel header ops hsmall hfuel
    have hstart : (World.start header).Kept base 0 := .inl ⟨rfl, rfl, rfl⟩
    have hempty : Stacked sz₀ (World.start header).heap.regions :=
      ⟨fun r hr => absurd hr List.not_mem_nil, fun r hr => absurd hr List.not_mem_nil, le_rfl, hlt⟩
    obtain ⟨w, hrun, hw, hs⟩ := possible_run memory ops hstart hempty hbase hsz hsmall
      (by omega : 2 * (0 + _) + 3 ≤ fuel)
    exact ⟨w, hrun, fun block hblock => hw.obtained hs hblock⟩

def anyMemory : Memory := ⟨fun _ sz => sz < 4294967296, fun _ _ => of_decide_eq_true⟩

theorem malloc_sizes_small :
    (∀ sbrk h hp h', newBlock sbrk (unitsFor 100) h = .ok (some hp, h') → SizesAgree h' hp) ∧
      ∃ w, possibleRun (kernelSbrk 65536 anyMemory) 1024 20 (fun _ => ⟨0, 0⟩)
        [.malloc 100, .malloc 70000] = .ok w ∧ ∀ block ∈ w.live, Obtained 65536 w block := by
  have hsizes := @malloc_sizes_iff 1024 65536 (by decide) (by decide) (by decide)
  constructor
  · exact (hsizes.1 100 (by decide)).mpr (by decide)
  · apply hsizes.2 anyMemory 20 (fun _ => ⟨0, 0⟩) [.malloc 100, .malloc 70000]
    · simp [Op.Small]
    · decide

/-- After a first block, `malloc` of 2^32 - 16 bytes asks `sbrk` for none, and returns a
block that begins at the end of the process, within its last page. -/
theorem malloc_unobtained :
    asInt (coreBytes (unitsFor 4294967280)) = 0 ∧
      ∃ w, possibleRun (kernelSbrk 65536 anyMemory) 1024 20 (fun _ => ⟨0, 0⟩)
          [.malloc 70000, .malloc 4294967280] = .ok w ∧
        w.live = [⟨135568, 4294967280⟩, ⟨65552, 70000⟩] ∧
        ¬ Obtained 65536 w ⟨135568, 4294967280⟩ := by
  have heval : (possibleRun (kernelSbrk 65536 anyMemory) 1024 20 (fun _ => ⟨0, 0⟩)
      [.malloc 70000, .malloc 4294967280]).toOption.map
        (fun w => (w.live, processSize 65536 w.heap.regions)) =
      some ([⟨135568, 4294967280⟩, ⟨65552, 70000⟩], 135552) := by
    decide +kernel
  refine ⟨by decide, ?_⟩
  cases hrun : possibleRun (kernelSbrk 65536 anyMemory) 1024 20 (fun _ => ⟨0, 0⟩)
      [.malloc 70000, .malloc 4294967280] with
  | error e =>
      rw [hrun] at heval
      cases heval
  | ok w =>
      rw [hrun] at heval
      obtain ⟨hlive, hsize⟩ := Prod.mk.inj (Option.some.inj heval)
      refine ⟨w, rfl, hlive, fun h => ?_⟩
      have hlt := (h 135552 (by decide) (by decide)).2
      omega

end SyscallSched.Umalloc
