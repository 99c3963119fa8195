import SyscallSched.Xv6.ExecRun
import SyscallSched.Xv6.Growproc

/-!
# The system calls keep the pages apart

Every call but a successful `sfork` keeps `Inv`, and none of them panics,
except that `init` must not exit.
-/

namespace SyscallSched.Xv6

open SyscallSched.Foundation

variable [Image] {pool X : Multiset Nat} {k k' : Kernel} {p : Nat} {q : Proc} {m : Mem}
  {g : Nat → Nat}

/-! ## Back to the invariant -/

theorem Inv.set_space (h : Inv pool k) (hp : p < nproc) (he : Edited k k' p q m)
    (hX : ↑k.mem.freelist + (k.proc p).frames k.mem = X) (hwithin : Within X k.mem m)
    (hspace : UserSpace X m q.pagetable g (pageCount q.sz) q.trapframe {q.trapframe})
    (hs : q.state ≠ .unused) (hfiles : ∀ fd, q.ofile fd = none)
    (hcwd : q.state ≠ .zombie → q.cwd ≠ none) : Inv pool k' := by
  have hmem := he.mem
  subst hmem
  subst hX
  apply h.change hp
  case hothers =>
      intro i hi
      rw [he.others i hi]
      exact Keeps.refl _
  case hwithin => exact hwithin
  case hpaid =>
      rw [he.self]
      exact hspace.frames_eq hs
  case hslot =>
      rw [he.self]
      constructor
      case unused => exact fun h0 => absurd h0 hs
      case shaped => exact fun _ => hspace.space.shaped
      case map => exact fun _ => hspace.leaf_map
      case files => exact hfiles
      case cwd => exact fun _ => hcwd

theorem Inv.freed (h : Inv pool k) (hp : p < nproc)
    (hf : SlotFreed (↑k.mem.freelist + (k.proc p).frames k.mem) k k' p q k.mem)
    (hfiles : ∀ fd, q.ofile fd = none) : Inv pool k' := by
  have hunused : (k'.proc p).state = .unused := by
    rw [hf.edited.self]
    rfl
  apply h.change hp
  case hothers =>
      intro i hi
      rw [hf.edited.others i hi]
      exact Keeps.refl _
  case hwithin => exact hf.within
  case hpaid => rw [Proc.frames_unused hunused, add_zero, hf.free]
  case hslot =>
      rw [hf.edited.self]
      constructor
      case unused => exact fun _ => ⟨rfl, rfl, rfl⟩
      case shaped => exact fun h0 => absurd rfl h0
      case map => exact fun h0 => absurd rfl h0
      case files => exact hfiles
      case cwd => exact fun h0 => absurd rfl h0

/-! ## `growproc` -/

theorem growproc_inv (h : Inv pool k) (hl : k.live p) (n : Int) :
    Total (growproc p n) k fun _ k' => Inv pool k' := by
  obtain ⟨hs, hz⟩ := live_state hl
  have hspace := h.userSpace hl.1 hs
  have hback : ∀ {k' : Kernel} {sz : Nat} {g' : Nat → Nat},
      GrowOutcome (↑k.mem.freelist + (k.proc p).frames k.mem) {(k.proc p).trapframe} k k' p
        (leafAt k.mem 2 (k.proc p).pagetable) sz g' → Inv pool k' := by
    intro k' sz g' hout
    exact h.set_space hl.1 hout.edited rfl hout.within hout.space hs
      (h.slot p hl.1).files (fun _ => (h.slot p hl.1).cwd hs hz)
  apply (growproc_run hspace n).mono
  intro res k' hout
  cases hout with
  | inl hfail => exact hback hfail.2.2
  | inr hdone =>
      obtain ⟨-, g', hdone⟩ := hdone
      exact hback hdone

/-! ## `fork` -/

theorem Inv.tables_disjoint (h : Inv pool k) (hp : p < nproc)
    (hs : (k.proc p).state ≠ .unused) :
    Disjoint (tables k.mem 2 (k.proc p).pagetable) ↑k.mem.freelist := by
  have hnd := Multiset.nodup_of_le (h.share_le hp) h.nodup
  exact ((Multiset.nodup_add.mp hnd).2.2.mono_right (tables_le_frames hs)).symm

theorem Inv.owner (h : Inv pool k) (hl : k.live p) : Owner k p :=
  ⟨(live_state hl).1, h.userSpace hl.1 (live_state hl).1⟩

theorem Inv.forkable (h : Inv pool k) (hl : k.live p) : Forkable k p := by
  obtain ⟨hs, hz⟩ := live_state hl
  exact ⟨h.owner hl, (h.slot p hl.1).cwd hs hz, h.vacant⟩

theorem fork_spec (h : Inv pool k) (hl : k.live p) :
    Total (fork p) k fun pid k' => Inv pool k' ∧ (pid = -1 ∨ ∃ np, Forked k k' p np) := by
  apply (fork_run (h.forkable hl) (h.slot p hl.1).files).mono
  intro pid k' hk'
  cases hk' with
  | inl hfail => exact ⟨(hfail.2.refused h.vacant).inv h, Or.inl hfail.1⟩
  | inr hdone =>
      obtain ⟨np, -, hcopy⟩ := hdone
      refine ⟨?_, Or.inr ⟨np, hcopy.toForked⟩⟩
      obtain ⟨hnp, hunused⟩ := unusedSlot_some hcopy.slot
      have hfree : ↑k.mem.freelist + (k.proc np).frames k.mem = ↑k.mem.freelist := by
        rw [Proc.frames_unused hunused, add_zero]
      obtain ⟨g, hspace, -⟩ := hcopy.space
      apply h.set_space hnp hcopy.edited hfree hcopy.within hspace
      · rw [hcopy.proc]
        exact (nomatch ·)
      · rw [hcopy.proc]
        exact (h.slot np hnp).files
      · rw [hcopy.proc]
        exact fun _ => (h.forkable hl).cwd

theorem fork_inv (h : Inv pool k) (hl : k.live p) :
    Total (fork p) k fun _ k' => Inv pool k' :=
  (fork_spec h hl).mono fun _ _ h => h.1

/-! ## `sfork` -/

/-- What `sfork` leaves in the child's slot. -/
def Proc.shared (np q : Proc) (me : Nat) : Proc :=
  { np with
    sz := q.sz, pagetable := q.pagetable, parent := some me, state := .runnable
    context := q.context }

theorem sfork_allocated (h : Inv pool k) (hl : k.live p) (hcan : k.canAlloc) :
    Total (sfork p) k fun _ k' => ∃ k₁ np, Allocated k k₁ np ∧
      Edited k k' np ((k₁.proc np).shared (k.proc p) p) k₁.mem := by
  rw [sfork]
  apply Total.bind (allocproc_spec h)
  intro result k₁ hk₁
  cases result with
  | none => exact absurd hcan hk₁.2
  | some np =>
      have halloc : Allocated k k₁ np := hk₁.1
      apply halloc.edited.bind_getOther (halloc.ne (live_state hl).1)
      apply halloc.edited.bind_setProc
      intro k₂ h₂
      apply h₂.bind_getProc
      apply Total.pure
      exact ⟨k₁, np, halloc, h₂⟩

theorem sfork_refused_inv (h : Inv pool k) (hno : ¬ k.canAlloc) :
    Total (sfork p) k fun _ k' => Inv pool k' := by
  rw [sfork]
  apply Total.bind (allocproc_spec h)
  intro result k₁ hk₁
  cases result with
  | none => exact Total.pure (hk₁.1.inv h)
  | some np => exact absurd hk₁.2 hno

/-! ## `wait` -/

theorem Inv.keep_mem (h : Inv pool k) (hall : ∀ i, Keeps (k.proc i) (k'.proc i))
    (hmem : k'.mem = k.mem) : Inv pool k' := by
  apply h.keep hall
  · rw [hmem]
  · rw [hmem]
    exact Within.refl _ _

omit [Image] in
theorem Edited.keeps (h : Edited k k' p q m) (hq : Keeps (k.proc p) q) (i : Nat) :
    Keeps (k.proc i) (k'.proc i) := by
  by_cases hi : i = p
  · rw [hi, h.self]
    exact hq
  · rw [h.others i hi]
    exact Keeps.refl _

theorem copyout_inv {addr : Nat} {src : List Nat} (h : Inv pool k) (hl : k.live p) :
    Total (inMem (copyout (k.proc p).pagetable addr src)) k fun _ k' =>
      Inv pool k' ∧ ∃ mem, k' = { k with mem } := by
  obtain ⟨hs, hz⟩ := live_state hl
  have hspace := h.userSpace hl.1 hs
  have hcopy : Total (copyout (k.proc p).pagetable addr src) k.mem
      fun _ m' => Wrote (framesOf (leafAt k.mem 2 (k.proc p).pagetable) 0
        (pageCount (k.proc p).sz)) k.mem m' := copyout_spec hspace
  obtain ⟨a, m₁, hrun, hw⟩ := hcopy
  have he : Edited k { k with mem := m₁ } p (k.proc p) m₁ :=
    ⟨rfl, rfl, fun _ _ => rfl, rfl⟩
  apply Total.of_eq (inMem_run hrun)
  refine ⟨?_, m₁, rfl⟩
  exact h.set_space hl.1 he rfl (hw.within.mono hspace.user_le) (hspace.wrote hw) hs
    (h.slot p hl.1).files (fun _ => (h.slot p hl.1).cwd hs hz)

theorem reportStatus_inv {addr : Nat} {xstate : Int} (h : Inv pool k) (hl : k.live p) :
    Total (reportStatus (k.proc p).pagetable addr xstate) k fun _ k' =>
      Inv pool k' ∧ ∀ i, k'.proc i = k.proc i := by
  rw [reportStatus]
  by_cases haddr : addr = 0
  · rw [if_pos haddr]
    exact Total.pure ⟨h, fun _ => rfl⟩
  · rw [if_neg haddr]
    apply (copyout_inv h hl).mono
    rintro _ _ ⟨hinv, mem, rfl⟩
    exact ⟨hinv, fun _ => rfl⟩

theorem freeproc_inv (h : Inv pool k) (hp : p < nproc) (hs : (k.proc p).state ≠ .unused) :
    Total (freeproc p) k fun _ k' => Inv pool k' := by
  apply (freeproc_all (Edited.refl k p) (h.userSpace hp hs)).mono
  intro _ k' hfreed
  exact h.freed hp hfreed (h.slot p hp).files

theorem wait_inv {addr : Nat} (h : Inv pool k) (hl : k.live p) :
    Total (wait p addr) k fun _ k' => Inv pool k' := by
  obtain ⟨hs, hz⟩ := live_state hl
  rw [wait]
  apply (Edited.refl k p).bind_setProc
  intro k₁ h₁
  have hinv : Inv pool k₁ :=
    h.keep_mem (h₁.keeps ⟨rfl, rfl, rfl, Iff.rfl, Iff.rfl, rfl, rfl⟩) h₁.mem
  have hl₁ : k₁.live p := by
    refine ⟨hl.1, ?_⟩
    rw [h₁.self]
    exact hl.2
  have hget : (get : KernelM Kernel) k₁ = .ok (k₁, k₁) := rfl
  apply Total.bind_eq hget
  split
  case h_1 pp hfound =>
      have hpp : pp < nproc := List.mem_range.mp (List.mem_of_find?_eq_some hfound)
      have hzombie := List.find?_some hfound
      rw [decide_eq_true_eq] at hzombie
      apply Total.bind (reportStatus_inv hinv hl₁)
      intro copied k₂ hk₂
      cases copied with
      | false => exact Total.pure hk₂.1
      | true =>
          have hs₂ : (k₂.proc pp).state ≠ .unused := by
            rw [hk₂.2 pp, hzombie.2]
            exact (nomatch ·)
          apply Total.bind (freeproc_inv hk₂.1 hpp hs₂)
          intro _ k' hk'
          exact Total.pure hk'
  case h_2 =>
      split
      case isTrue => exact Total.pure hinv
      case isFalse =>
          obtain ⟨hs₁, hz₁⟩ := live_state hl₁
          apply (Edited.refl k₁ p).bind_setProc
          intro k₂ h₂
          apply Total.pure
          apply hinv.keep_mem (h₂.keeps ?_) h₂.mem
          refine ⟨rfl, rfl, rfl, ?_, ?_, rfl, rfl⟩
          · exact ⟨(nomatch ·), fun h0 => absurd h0 hs₁⟩
          · exact ⟨(nomatch ·), fun h0 => absurd h0 hz₁⟩

/-! ## `exit` -/

/-- A step that changes neither memory nor anything ownership depends on. -/
structure Quiet (k k' : Kernel) : Prop where
  mem : k'.mem = k.mem
  initproc : k'.initproc = k.initproc
  keeps : ∀ i, Keeps (k.proc i) (k'.proc i)

omit [Image] in
theorem Quiet.refl (k : Kernel) : Quiet k k := ⟨rfl, rfl, fun _ => Keeps.refl _⟩

omit [Image] in
theorem Quiet.trans {k'' : Kernel} (h : Quiet k k') (h' : Quiet k' k'') : Quiet k k'' :=
  ⟨h'.mem.trans h.mem, h'.initproc.trans h.initproc,
    fun i => (h.keeps i).trans (h'.keeps i)⟩

omit [Image] in
theorem wakeup_quiet (me : Nat) (chan : Option Chan) :
    Total (wakeup me chan) k fun _ k' => Quiet k k' := by
  apply Total.of_eq (a := ()) rfl
  refine ⟨rfl, rfl, ?_⟩
  intro i
  change Keeps (k.proc i) (if i ≠ me ∧ (k.proc i).state = .sleeping ∧
    (k.proc i).chan = chan then { k.proc i with state := .runnable } else k.proc i)
  split
  case isTrue hasleep =>
      refine ⟨rfl, rfl, rfl, ?_, ?_, rfl, rfl⟩
      · rw [hasleep.2.1]
        exact ⟨(nomatch ·), (nomatch ·)⟩
      · rw [hasleep.2.1]
        exact ⟨(nomatch ·), (nomatch ·)⟩
  case isFalse => exact Keeps.refl _

omit [Image] in
theorem reparent_quiet (p : Nat) : Total (reparent p) k fun _ k' => Quiet k k' := by
  have hget : (get : KernelM Kernel) k = .ok (k, k) := rfl
  rw [reparent]
  apply Total.bind_eq hget
  apply Total.forRange (I := fun _ k' => Quiet k k') nproc (Quiet.refl k)
  intro i t _ ht
  apply Total.bind_eq (a := t.proc i) rfl
  split
  case isFalse => exact Total.pure ht
  case isTrue =>
      apply (Edited.refl t i).bind_setProc
      intro t₁ h₁
      have hquiet : Quiet t t₁ :=
        ⟨h₁.mem, h₁.initproc, h₁.keeps ⟨rfl, rfl, rfl, Iff.rfl, Iff.rfl, rfl, rfl⟩⟩
      apply (wakeup_quiet p _).mono
      intro _ t' h'
      exact (ht.trans hquiet).trans h'

theorem closeFiles_none (h : ∀ fd, (k.proc p).ofile fd = none) :
    Total (closeFiles p) k fun _ k' => k' = k := by
  apply Total.forRange (I := fun _ k' => k' = k) nofile rfl
  intro i t _ ht
  rw [ht]
  apply Total.bind_eq (a := k.proc p) rfl
  rw [h i]
  exact Total.pure rfl

theorem Inv.zombie (h : Inv pool k) (hp : p < nproc) (hs : (k.proc p).state ≠ .unused)
    (hmem : k'.mem = k.mem) (hothers : ∀ i, i ≠ p → Keeps (k.proc i) (k'.proc i))
    (hself : Keeps { k.proc p with state := .zombie, cwd := none } (k'.proc p)) :
    Inv pool k' := by
  have hok := h.slot p hp
  have hdead : SlotOk k.mem { k.proc p with state := .zombie, cwd := none } := by
    constructor
    case unused => exact (nomatch ·)
    case shaped => exact fun _ => hok.shaped hs
    case map => exact fun _ => hok.map hs
    case files => exact hok.files
    case cwd => exact fun _ h0 => absurd rfl h0
  have hagree : ∀ i, Agree k.mem k'.mem 2 i := by
    intro i f _
    rw [hmem]
  apply h.change hp hothers
  case hwithin =>
      rw [hmem]
      exact Within.refl _ _
  case hpaid =>
      have hframes := hself.frames_eq (fun _ => hagree _)
      have hsame : ({ k.proc p with state := .zombie, cwd := none } : Proc).frames k.mem =
          (k.proc p).frames k.mem := by
        rw [Proc.frames_live hs,
          Proc.frames_live (show ProcState.zombie ≠ .unused by decide)]
      rw [hframes, hsame, hmem]
  case hslot => exact hdead.keeps hself (fun _ => hagree _)

theorem exit_inv {status : Int} (h : Inv pool k) (hl : k.live p)
    (hinit : k.initproc ≠ some p) :
    Total (exit p status) k fun _ k' => Inv pool k' := by
  obtain ⟨hs, hz⟩ := live_state hl
  have hget : (get : KernelM Kernel) k = .ok (k, k) := rfl
  have hcwd := (h.slot p hl.1).cwd hs hz
  rw [exit]
  apply Total.bind_eq hget
  rw [if_neg hinit]
  apply Total.bind (closeFiles_none (h.slot p hl.1).files)
  intro _ k₀ hk₀
  rw [hk₀]
  apply (Edited.refl k p).bind_getProc
  cases hip : (k.proc p).cwd with
  | none => exact absurd hip hcwd
  | some ip =>
      refine (Edited.refl k p).bind_same (a := ()) rfl rfl rfl rfl ?_
      intro k₁ h₁
      refine h₁.bind_same (a := ()) rfl rfl rfl rfl ?_
      intro k₂ h₂
      refine h₂.bind_same (a := ()) rfl rfl rfl rfl ?_
      intro k₃ h₃
      apply h₃.bind_setProc
      intro k₄ h₄
      apply Total.bind (reparent_quiet p)
      intro _ k₅ hq₅
      apply Total.bind_eq (a := k₅.proc p) rfl
      apply Total.bind (wakeup_quiet p _)
      intro _ k₆ hq₆
      have hq := hq₅.trans hq₆
      apply (Edited.refl k₆ p).end_setProc
      intro k' h'
      apply h.zombie hl.1 hs
      case hmem => rw [h'.mem, hq.mem, h₄.mem]
      case hothers =>
          intro i hi
          rw [h'.others i hi, ← h₄.others i hi]
          exact hq.keeps i
      case hself =>
          have hkeep := hq.keeps p
          rw [h₄.self] at hkeep
          rw [h'.self]
          exact ⟨hkeep.pagetable, hkeep.trapframe, hkeep.sz, ⟨(nomatch ·), (nomatch ·)⟩,
            ⟨fun _ => rfl, fun _ => rfl⟩, hkeep.ofile, hkeep.cwd⟩

/-! ## `exec` -/

theorem exec_inv {path : List Nat} {found : Option (Nat × List Nat)}
    {argv : List (List Nat)} (h : Inv pool k) (hl : k.live p) :
    Total (exec p path found argv) k fun _ k' => Inv pool k' := by
  obtain ⟨hs, hz⟩ := live_state hl
  apply (exec_run (h.owner hl)).mono
  intro res k' hout
  cases hout with
  | inl hfail =>
      obtain ⟨-, mem, rfl, hfree, hwithin⟩ := hfail
      exact h.keep (fun _ => Keeps.refl _) hfree hwithin
  | inr hdone =>
      obtain ⟨image, g, -, hnew⟩ := hdone
      exact h.set_space hl.1 hnew.edited rfl hnew.within hnew.space hs
        (h.slot p hl.1).files (fun _ => (h.slot p hl.1).cwd hs hz)

end SyscallSched.Xv6
