import Mathlib.Tactic.Abel
import SyscallSched.Xv6.Fork

/-!
# `exec` of one process

`exec` builds the new image from free pages while the old one stays as it is, and
then exchanges the two.  If the image cannot be built, the free pages are all that
was touched.
-/

namespace SyscallSched.Xv6

open SyscallSched.Foundation

variable [Image] {X U : Multiset Nat} {k k' : Kernel} {p : Nat} {m m₁ m₂ : Mem} {g : Nat → Nat}

/-! ## The old image and the new one -/

namespace Owner

theorem trapframe_not_table (h : Owner k p) :
    Disjoint (tables k.mem 2 (k.proc p).pagetable) {(k.proc p).trapframe} := by
  have hnd := (Multiset.nodup_add.mp h.space.space.nodup).2.1
  rw [Proc.frames_live h.state] at hnd
  exact (Multiset.nodup_add.mp hnd).2.2.mono_right (Multiset.le_add_left _ _)

theorem old_image (h : Owner k p) (hwithin : Within ↑k.mem.freelist k.mem m₁)
    (hwrote : Wrote {(k.proc p).trapframe} m₁ m₂)
    (hX : X = ↑m₁.freelist + tables k.mem 2 (k.proc p).pagetable +
      framesOf (leafAt k.mem 2 (k.proc p).pagetable) 0 (pageCount (k.proc p).sz))
    (hle : X ≤ ↑k.mem.freelist + (k.proc p).frames k.mem) :
    UserSpace X m₂ (k.proc p).pagetable (leafAt k.mem 2 (k.proc p).pagetable)
      (pageCount (k.proc p).sz) (k.proc p).trapframe 0 := by
  have hagree₁ := h.agree hwithin
  have hagree₂ : Agree m₁ m₂ 2 (k.proc p).pagetable := by
    apply hwrote.within.agree
    rw [hagree₁.tables_eq]
    exact h.trapframe_not_table
  refine ⟨?_, h.space.map⟩
  apply h.space.space.rebase (hagree₁.trans hagree₂)
  · rw [hwrote.freelist, add_zero, hX]
  · exact Multiset.nodup_of_le hle h.space.space.nodup
  · exact fun f hf => h.space.space.valid f (Multiset.mem_of_le hle hf)

theorem replace_image {r n : Nat} (h : Owner k p)
    (hwithin : Within ↑k.mem.freelist k.mem m₁)
    (hnew : UserSpace ↑k.mem.freelist m₁ r g n (k.proc p).trapframe 0)
    (hwrote : Wrote {(k.proc p).trapframe} m₁ m₂) :
    Total (procFreepagetable (k.proc p).pagetable (k.proc p).sz) m₂ fun _ m' =>
      Within (↑k.mem.freelist + (k.proc p).frames k.mem) k.mem m' ∧
        UserSpace (↑k.mem.freelist + (k.proc p).frames k.mem) m' r g n
          (k.proc p).trapframe {(k.proc p).trapframe} ∧
        Kept (framesOf g 0 n) m₁ m' ∧ Kept {(k.proc p).trapframe} m₂ m' := by
  have hspace := h.space
  have hnewframes := hnew.space.frames
  rw [add_zero] at hnewframes
  obtain ⟨X₂, hX₂⟩ : ∃ X₂, X₂ = ↑m₁.freelist + tables k.mem 2 (k.proc p).pagetable +
    framesOf (leafAt k.mem 2 (k.proc p).pagetable) 0 (pageCount (k.proc p).sz) := ⟨_, rfl⟩
  have hsplit : X₂ + (tables m₁ 2 r + (framesOf g 0 n + {(k.proc p).trapframe})) =
      ↑k.mem.freelist + (k.proc p).frames k.mem := by
    rw [hX₂, Proc.frames_live h.state, ← hnewframes]
    abel
  have hle : X₂ ≤ ↑k.mem.freelist + (k.proc p).frames k.mem := by
    rw [← hsplit]
    exact Multiset.le_add_right _ _
  have hnd := hspace.space.nodup
  rw [← hsplit] at hnd
  obtain ⟨-, hrest, hdis⟩ := Multiset.nodup_add.mp hnd
  obtain ⟨-, hheld, htables⟩ := Multiset.nodup_add.mp hrest
  have hnewX₂ : Disjoint (tables m₁ 2 r) X₂ :=
    (hdis.mono_right (Multiset.le_add_right _ _)).symm
  have hheldX₂ : Disjoint X₂ (framesOf g 0 n + {(k.proc p).trapframe}) :=
    hdis.mono_right (Multiset.le_add_left _ _)
  have hnewtf : Disjoint (tables m₁ 2 r) {(k.proc p).trapframe} :=
    htables.mono_right (Multiset.le_add_left _ _)
  have husertf : Disjoint {(k.proc p).trapframe} (framesOf g 0 n) :=
    (Multiset.nodup_add.mp hheld).2.2.symm
  have hagree₂ := hwrote.within.agree hnewtf
  apply (procFreepagetable_spec (h.old_image hwithin hwrote hX₂ hle)).mono
  intro _ m' hm'
  obtain ⟨hwithin', hstock⟩ := hm'
  have hagree' : Agree m₂ m' 2 r := by
    apply hwithin'.agree
    rw [hagree₂.tables_eq]
    exact hnewX₂
  have hkept := Kept.of_within hwithin' hheldX₂
  have htf : ({(k.proc p).trapframe} : Multiset Nat) ≤
      ↑k.mem.freelist + (k.proc p).frames k.mem :=
    (Multiset.le_add_left _ _).trans hspace.space.held_le
  have hfree := hstock.frames
  rw [add_zero] at hfree
  refine ⟨?_, ⟨?_, hnew.map⟩, ?_, hkept.mono (Multiset.le_add_left _ _)⟩
  · have hbuilt := hwithin.mono
      (Multiset.le_add_right ↑k.mem.freelist ((k.proc p).frames k.mem))
    exact (hbuilt.trans (hwrote.within.mono htf)).trans (hwithin'.mono hle)
  · apply hnew.space.rebase (hagree₂.trans hagree')
    · rw [hfree, ← hsplit, add_assoc]
    · exact hspace.space.nodup
    · exact hspace.space.valid
  · exact (Kept.of_within hwrote.within husertf).trans
      (hkept.mono (Multiset.le_add_right _ _))

end Owner

/-! ## The call -/

def ExecFailed (k k' : Kernel) : Prop :=
  ∃ mem, k' = { k with mem } ∧ (↑mem.freelist : Multiset Nat) = ↑k.mem.freelist ∧
    Within ↑k.mem.freelist k.mem mem

structure ExecDone (k k' : Kernel) (p : Nat) (path : List Nat) (argv : List (List Nat))
    (image : NewImage) (g : Nat → Nat) : Prop where
  edited : Edited k k' p
    { k.proc p with
      name := safestrcpy (path.reverse.takeWhile (· ≠ 47)).reverse
      pagetable := image.pagetable
      sz := image.sz } k'.mem
  within : Within (↑k.mem.freelist + (k.proc p).frames k.mem) k.mem k'.mem
  space : UserSpace (↑k.mem.freelist + (k.proc p).frames k.mem) k'.mem image.pagetable g
    (pageCount image.sz) (k.proc p).trapframe {(k.proc p).trapframe}
  handed : Handed k'.mem g argv image
  a1 : k'.mem.page (k.proc p).trapframe tfA1 = image.sp
  epc : k'.mem.page (k.proc p).trapframe tfEpc = image.entry
  sp : k'.mem.page (k.proc p).trapframe tfSp = image.sp

omit [Image] in
/-- The stack of an image lies in its user pages. -/
theorem Handed.keep {argv : List (List Nat)} {image : NewImage}
    (h : Handed m g argv image) (hkept : Kept (framesOf g 0 (pageCount image.sz)) m m₁) :
    Handed m₁ g argv image := by
  have hsame : ∀ w < image.sz, mapByte m₁ g w = mapByte m g w := by
    intro w hw
    have hpage : w / pgSize < pageCount image.sz := by
      simp only [pageCount, pgSize]
      omega
    rw [mapByte, pageByte, hkept _ (mem_framesOf_zero hpage), mapByte, pageByte]
  obtain ⟨addrs, low, hpushed, hlow, hwords⟩ := h.args
  have hcount := hpushed.length_eq
  have htop := hpushed.le
  refine { h with args := ⟨addrs, low, ?_, hlow, ?_⟩ }
  · apply hpushed.mono
    intro a s _ hhigh hstring
    apply hstring.congr
    exact fun w _ hw => hsame w (by omega)
  · intro i hi
    rw [← hwords i hi]
    apply getLE_congr
    intro w _ hw
    rw [List.length_append, List.length_singleton] at hi
    exact hsame w (by omega)

def install (p : Nat) (path : List Nat) (q : Proc) : Option NewImage → KernelM Int
  | none => pure (-1)
  | some image => do
      inMem (store q.trapframe tfA1 image.sp)
      setProc p fun q =>
        { q with
          name := safestrcpy (path.reverse.takeWhile (· ≠ 47)).reverse
          pagetable := image.pagetable
          sz := image.sz }
      inMem (store q.trapframe tfEpc image.entry)
      inMem (store q.trapframe tfSp image.sp)
      inMem (procFreepagetable q.pagetable q.sz)
      pure image.argc

/-- The reference to the inode is given back, and so is the place in the log. -/
theorem exec_built {path : List Nat} {ip : Nat} {bytes : List Nat} {argv : List (List Nat)}
    {image : Option NewImage} {mem : Mem}
    (hrun : execImage (k.proc p).trapframe bytes argv k.mem = .ok (image, mem)) :
    exec p path (some (ip, bytes)) argv k = install p path (k.proc p) image { k with mem } := by
  obtain ⟨k₁, hk₁⟩ : ∃ k₁ : Kernel, k₁ = { k with
      inodeRef := fun i => if i = ip then k.inodeRef i + 1 else k.inodeRef i
      outstanding := k.outstanding + 1 } := ⟨_, rfl⟩
  have hproc : k₁.proc p = k.proc p := by rw [hk₁]
  have hrun₁ : execImage (k.proc p).trapframe bytes argv k₁.mem = .ok (image, mem) := by
    rw [hk₁]
    exact hrun
  have hput : iput ip { k₁ with mem } = .ok ((),
      { k with mem, outstanding := k.outstanding + 1 }) := by
    rw [hk₁]
    have href : (fun i => if i = ip then
        (if i = ip then k.inodeRef i + 1 else k.inodeRef i) - 1
        else if i = ip then k.inodeRef i + 1 else k.inodeRef i) = k.inodeRef := by
      funext i
      cases Nat.decEq i ip with
      | isTrue hi => rw [if_pos hi, if_pos hi, Nat.add_sub_cancel]
      | isFalse hi => rw [if_neg hi, if_neg hi]
    exact congrArg (fun inodeRef => Except.ok ((),
      ({ k with mem, inodeRef, outstanding := k.outstanding + 1 } : Kernel))) href
  rw [exec, Total.run_bind (a := ()) rfl]
  dsimp only
  rw [Total.run_bind (a := ip) (t := k₁) (by rw [hk₁]; rfl), Total.run_bind (a := k₁.proc p) rfl,
    hproc, Total.run_bind (inMem_run hrun₁), Total.run_bind hput, Total.run_bind (a := ()) rfl]
  cases image with
  | none => rfl
  | some image => rfl

theorem exec_run {path : List Nat} {found : Option (Nat × List Nat)}
    {argv : List (List Nat)} (h : Owner k p) :
    Total (exec p path found argv) k fun res k' => (res = -1 ∧ ExecFailed k k') ∨
      ∃ image g, res = image.argc ∧ ExecDone k k' p path argv image g := by
  cases found with
  | none =>
      apply Total.of_eq (a := -1) rfl
      exact Or.inl ⟨rfl, k.mem, rfl, rfl, Within.refl _ _⟩
  | some found =>
      obtain ⟨ip, bytes⟩ := found
      have hbuilt : Total (execImage (k.proc p).trapframe bytes argv) k.mem _ :=
        execImage_spec h.stock (k.proc p).trapframe
      obtain ⟨result, m₁, hrun, hwithin₁, hresult⟩ := hbuilt
      apply Total.congr (exec_built hrun)
      cases result with
      | none =>
          apply Total.pure
          have hfree := hresult.frames
          rw [add_zero] at hfree
          exact Or.inl ⟨rfl, m₁, rfl, hfree, hwithin₁⟩
      | some image =>
          obtain ⟨g, hnew, hhanded⟩ := hresult
          have h₁ : Edited k { k with mem := m₁ } p (k.proc p) m₁ :=
            ⟨rfl, rfl, fun _ _ => rfl, rfl⟩
          apply h₁.bind_inMem (store_spec _ _ _)
          intro _ m₂ k₂ hm₂ h₂
          obtain ⟨hw₂, ha1⟩ := hm₂
          apply h₂.bind_setProc
          intro k₃ h₃
          apply h₃.bind_inMem (store_spec _ _ _)
          intro _ m₄ k₄ hm₄ h₄
          obtain ⟨hw₄, hepc⟩ := hm₄
          apply h₄.bind_inMem (store_spec _ _ _)
          intro _ m₅ k₅ hm₅ h₅
          obtain ⟨hw₅, hsp⟩ := hm₅
          apply h₅.bind_inMem (h.replace_image hwithin₁ hnew ((hw₂.trans hw₄).trans hw₅))
          intro _ m' k' hm' h'
          obtain ⟨hwithin, hspace, huser, htf⟩ := hm'
          have hword := htf _ (Multiset.mem_singleton_self _)
          apply Total.pure
          refine Or.inr ⟨image, g, rfl, ?_⟩
          constructor
          case edited =>
              rw [h'.mem]
              exact h'
          case within =>
              rw [h'.mem]
              exact hwithin
          case space =>
              rw [h'.mem]
              exact hspace
          case handed =>
              rw [h'.mem]
              exact hhanded.keep huser
          case a1 => rw [h'.mem, hword, hsp, hepc, ha1]; rfl
          case epc => rw [h'.mem, hword, hsp, hepc]; rfl
          case sp => rw [h'.mem, hword, hsp]; rfl

end SyscallSched.Xv6
