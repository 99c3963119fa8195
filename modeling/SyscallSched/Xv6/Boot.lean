import SyscallSched.Xv6.Calls

/-!
# The first process

`userinit` on a kernel that has at least seven free pages: a trapframe, three
pages for the table of the process, one for its code, and two on the path to it.
-/

namespace SyscallSched.Xv6

open SyscallSched.Foundation

section

variable [Image]

/-! ## `uvmfirst` -/

theorem uvmfirst_spec {X U : Multiset Nat} {m : Mem} {r tf : Nat} {g : Nat → Nat}
    {src : List Nat} (h : UserSpace X m r g 0 tf U) (hsrc : src.length < pgSize)
    (hfree : 3 ≤ m.freelist.length) :
    Total (uvmfirst r src) m fun _ m' => Within X m m' ∧
      m.freelist.length ≤ m'.freelist.length + 3 ∧ ∃ g', UserSpace X m' r g' 1 tf U := by
  have hperm : Maps (pteW ||| pteR ||| pteX ||| pteU) := by decide
  rw [uvmfirst, if_neg (Nat.not_le.mpr hsrc)]
  apply Total.bind (h.space.kalloc_spec.and kalloc_count)
  intro result m₁ hm₁
  obtain ⟨⟨hwithin₁, hresult⟩, hcount⟩ := hm₁
  cases result with
  | none =>
      have hempty : m.freelist.length = 0 := hcount
      omega
  | some q =>
      have hspace₁ : Space X m₁ r g (q ::ₘ (framesOf g 0 0 + U)) := hresult
      have hlength : m₁.freelist.length + 1 = m.freelist.length := hcount
      obtain ⟨hspace₂, hwithin₂⟩ := hspace₁.setPage_spec fun _ => 0 * 0x0101010101010101
      obtain ⟨-, habsent⟩ := h.growing.next_absent hspace₂
      have hq : Frame q :=
        hspace₁.valid q (Multiset.mem_of_le hspace₁.held_le (Multiset.mem_cons_self _ _))
      have hmap := (h.growing.map_next hspace₂ (by decide) hperm).and
        (mappages_count hspace₂ (by decide) habsent)
      rw [Nat.zero_mul] at hmap
      apply Total.bind_eq memset_run
      apply Total.bind hmap
      intro mapped m₃ hm₃
      obtain ⟨⟨hwithin₃, -, hmapped⟩, hcount₃⟩ := hm₃
      cases mapped with
      | false =>
          have hshort : m₁.freelist.length < 2 := Nat.lt_of_lt_of_le hcount₃ missing_le
          omega
      | true =>
          have hgrown : Growing X m₃ r g 0 (Function.update g 0
              (leafEntry q (pteW ||| pteR ||| pteX ||| pteU))) 1 tf U := hmapped
          have hentry : pte2pa (Function.update g 0
              (leafEntry q (pteW ||| pteR ||| pteX ||| pteU)) 0) = q := by
            rw [Function.update_self, pte2pa_leafEntry hq (by decide)]
          have hle := user_frame_le (g := Function.update g 0
            (leafEntry q (pteW ||| pteR ||| pteX ||| pteU))) Nat.zero_lt_one
          rw [hentry] at hle
          have hwrote := (Wrote.writeBytes m₃ q 0 src).mono hle
          apply Total.of_eq (a := ()) rfl
          refine ⟨?_, ?_, _, hgrown.now.wrote hwrote⟩
          · exact ((hwithin₁.trans hwithin₂).trans hwithin₃).trans
              (hwrote.within.mono hgrown.now.user_le)
          · have hlength₃ : m₃.freelist.length + missing (m₁.setPage q fun _ =>
                0 * 0x0101010101010101) 2 r 0 = m₁.freelist.length := hcount₃.1
            have hpath : missing (m₁.setPage q fun _ => 0 * 0x0101010101010101) 2 r 0 ≤ 2 :=
              missing_le
            rw [hwrote.freelist]
            omega

/-! ## `userinit` -/

theorem Boot.inv (b : Boot) : Inv ↑b.kernel.mem.freelist b.kernel := by
  have hunused : ∀ p, (b.kernel.proc p).state = .unused := by
    intro p
    rw [b.procs p]
  constructor
  case frames =>
      have hsum : ∑ p ∈ slots, (b.kernel.proc p).frames b.kernel.mem = 0 := by
        apply Finset.sum_eq_zero
        intro p _
        exact Proc.frames_unused (hunused p)
      rw [hsum, add_zero]
  case nodup => exact Multiset.coe_nodup.mpr b.nodup
  case valid => exact b.frames
  case refreed => exact b.refreed
  case slot =>
      intro p _
      rw [b.procs p]
      constructor
      case unused => exact fun _ => ⟨rfl, rfl, rfl⟩
      case shaped => exact fun h0 => absurd rfl h0
      case map => exact fun h0 => absurd rfl h0
      case files => exact fun _ => rfl
      case cwd => exact fun h0 => absurd rfl h0

theorem Boot.unusedSlot (b : Boot) : b.kernel.unusedSlot = some 0 := by
  have hall : (fun p => decide ((b.kernel.proc p).state = .unused)) = fun _ => true := by
    funext p
    rw [b.procs p]
    rfl
  rw [Kernel.unusedSlot, hall]
  decide

theorem Boot.canAlloc (b : Boot) : b.kernel.canAlloc := by
  refine ⟨?_, (by decide : 4 ≤ 7).trans b.enough⟩
  rw [b.unusedSlot]
  rfl

/-- Slot 0 holds the first process, and the other slots are empty. -/
structure FirstProcess (b : Boot) (k : Kernel) : Prop where
  live : k.live 0
  others : ∀ p, p ≠ 0 → (k.proc p).state = .unused
  length : b.kernel.mem.freelist.length ≤ k.mem.freelist.length + 7

theorem userinit_spec (b : Boot) :
    Total (userinit b.root) b.kernel fun _ k' =>
      Inv ↑b.kernel.mem.freelist k' ∧ FirstProcess b k' := by
  have hinv := b.inv
  have henough := b.enough
  rw [userinit]
  apply Total.bind (allocproc_spec hinv)
  intro result k₁ hk₁
  cases result with
  | none => exact absurd b.canAlloc hk₁.2
  | some p =>
      have halloc : Allocated b.kernel k₁ p := hk₁.1
      obtain ⟨g₁, hspace₁⟩ := halloc.space
      have hlength := halloc.length
      have hstart : Inv ↑b.kernel.mem.freelist { b.kernel with initproc := some p } :=
        ⟨hinv.frames, hinv.nodup, hinv.valid, hinv.refreed, hinv.slot⟩
      have hfree : ↑b.kernel.mem.freelist + (b.kernel.proc p).frames b.kernel.mem =
          ↑b.kernel.mem.freelist := by
        rw [Proc.frames_unused halloc.was, add_zero]
      have he : Edited { b.kernel with initproc := some p }
          { k₁ with initproc := some p } p (k₁.proc p) k₁.mem :=
        ⟨rfl, rfl, halloc.others, rfl⟩
      apply Total.bind_eq (a := ()) (t := { k₁ with initproc := some p }) rfl
      apply he.bind_getProc
      apply he.bind_inMem (uvmfirst_spec hspace₁ (by decide) (by omega))
      intro _ m₂ k₂ hm₂ h₂
      obtain ⟨hwithin₂, hlength₂, g₂, hspace₂⟩ := hm₂
      apply h₂.bind_setProc
      intro k₃ h₃
      apply h₃.bind_inMem (store_wrote _ _ _)
      intro _ m₄ k₄ hw₄ h₄
      apply h₄.bind_inMem (store_wrote _ _ _)
      intro _ m₅ k₅ hw₅ h₅
      have hw := hw₄.trans hw₅
      refine h₅.bind_same (a := b.root) rfl rfl rfl rfl ?_
      intro k₆ h₆
      apply h₆.end_setProc
      intro k' h'
      have hone : pageCount pgSize = 1 := by decide
      rw [← hone] at hspace₂
      have hheld := hw.within.mono
        ((Multiset.le_add_left _ _).trans hspace₂.space.held_le)
      have hofile : (k₁.proc p).ofile = (b.kernel.proc p).ofile := by rw [halloc.proc]
      constructor
      case left =>
          apply hstart.set_space halloc.lt h' hfree
            ((halloc.within.trans hwithin₂).trans hheld) (hspace₂.wrote_held hw) (nomatch ·)
          · rw [hofile]
            exact (hinv.slot p halloc.lt).files
          · exact fun _ => (nomatch ·)
      case right =>
          have hfirst : some p = some 0 := by rw [← halloc.found, b.unusedSlot]
          injection hfirst with hp
          subst hp
          constructor
          case live =>
              refine ⟨halloc.lt, Or.inl ?_⟩
              rw [h'.self]
          case others =>
              intro i hi
              rw [h'.others i hi]
              change (b.kernel.proc i).state = .unused
              rw [b.procs i]
          case length =>
              rw [h'.mem, hw.freelist]
              omega

end

/-! ## The kernel as built -/

/-- The addresses in `kernel.sym`. -/
abbrev builtImage : Image where
  kernelEnd := 0x800235b0
  trampoline := 0x80006000
  forkret := 0x80001910
  kernBase_le := by decide
  kernelEnd_le := by decide
  trampoline_lt := by decide
  trampoline_aligned := by decide

/-- The free list after `kfree` of `n` pages from `pa` on, in ascending order. -/
def freerangePages (pa : Nat) : Nat → List Nat
  | 0 => []
  | n + 1 => (pa + n * pgSize) :: freerangePages pa n

theorem mem_freerangePages {pa n q : Nat} (h : q ∈ freerangePages pa n) :
    ∃ i < n, q = pa + i * pgSize := by
  induction n with
  | zero => exact absurd h List.not_mem_nil
  | succ n ih =>
      cases List.mem_cons.mp h with
      | inl hlast => exact ⟨n, Nat.lt_succ_self n, hlast⟩
      | inr hmem =>
          obtain ⟨i, hi, hq⟩ := ih hmem
          exact ⟨i, Nat.lt_succ_of_lt hi, hq⟩

theorem nodup_freerangePages (pa n : Nat) : (freerangePages pa n).Nodup := by
  induction n with
  | zero => exact List.nodup_nil
  | succ n ih =>
      apply List.nodup_cons.mpr
      refine ⟨?_, ih⟩
      intro hmem
      obtain ⟨i, hi, hq⟩ := mem_freerangePages hmem
      simp only [pgSize] at hq
      omega

theorem length_freerangePages (pa n : Nat) : (freerangePages pa n).length = n := by
  induction n with
  | zero => rfl
  | succ n ih => rw [freerangePages, List.length_cons, ih]

/-- The pages from `end` on, less the 169 that `kvminit` and `virtio_disk_init` took. -/
def builtKernel : Kernel where
  mem :=
    { freelist := freerangePages 0x80024000 32563
      page := fun _ _ => 0x0101010101010101
      refreed := [] }
  proc := fun _ => {}
  nextpid := 1
  initproc := none
  file := fun _ => {}
  pipe := fun _ => {}
  inodeRef := fun _ => 0
  outstanding := 0

theorem length_builtKernel : builtKernel.mem.freelist.length = 32563 :=
  length_freerangePages 0x80024000 32563

attribute [local instance] builtImage in
def builtBoot : Boot where
  kernel := builtKernel
  nodup := nodup_freerangePages _ _
  frames := by
    intro q hq
    obtain ⟨i, hi, rfl⟩ := mem_freerangePages hq
    have hstart : 0x800235b0 ≤ 0x80024000 := by decide
    have hend : 0x80024000 + 32563 * pgSize ≤ physTop := by decide
    have hbelow : i * pgSize < 32563 * pgSize := Nat.mul_lt_mul_of_pos_right hi (by decide)
    refine ⟨?_, hstart.trans (Nat.le_add_right _ _), ?_⟩
    · rw [Nat.add_mul_mod_self_right]
      decide
    · exact (Nat.add_lt_add_left hbelow _).trans_le hend
  enough := by
    rw [length_builtKernel]
    decide
  refreed := rfl
  procs := fun _ => rfl
  root := 0

end SyscallSched.Xv6
