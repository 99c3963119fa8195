import SyscallSched.Xv6.Smp.Sleeping

/-!
# The life of a process keeps to the rules

`fork` fills a slot, `exit` leaves a zombie and wakes the parent, `wait` frees the slot.
-/

namespace SyscallSched.Xv6.Smp

open SyscallSched.Foundation

variable {u v w z z' : Local} {k : Lock} {p q np : Nat}

/-! ## Filling a slot -/

theorem safe_allocpid {Q : Nat → Local → Prop} (hu : u.Steady) (hbelow : u.Below .pid)
    (hQ : ∀ n w, Learned u w → Q n w) : Safe allocpid Q u := by
  have hquiet : ∀ ch : Chan, ch.lock ≠ .pid := by
    intro ch
    cases ch <;> simp [Chan.lock]
  have hz := Section.hold hu hbelow.free hquiet
  apply safe_bind
  apply safe_hold hbelow
  apply safe_bind
  refine safe_load (hz.owns (x := .nextpid) rfl).2 ?_
  intro pid _
  have hz₁ := hz.load (x := .nextpid) (v := pid) rfl
  apply safe_bind
  refine safe_load (hz₁.owns (x := .nextpid) rfl).2 ?_
  intro n _
  have hz₂ := hz₁.load (x := .nextpid) (v := n) rfl
  apply safe_bind
  have hown := (hz₂.owns (x := .nextpid) rfl).1
  refine safe_store (x := .nextpid) hown ?_
  have hz₃ := hz₂.store (x := .nextpid) (v := n + 1) rfl hown
  apply safe_bind
  refine safe_back hu hz₃.toInside hbelow.free ?_ ?_ ?_
  · exact fun q hq => by cases hq
  · exact fun ch hch => absurd hch (hquiet ch)
  · exact hQ pid _ (hz₃.learned hu hbelow.free rfl)

structure Slot (np : Nat) (z z' : Local) : Prop where
  steady : z'.Steady
  core : z'.core = z.core
  mem : ∀ x, x.lock ≠ some (.proc np) → z'.mon.mem x = z.mon.mem x
  stale : z'.mon.stale = z.mon.stale
  sleeps : z'.mon.sleeps = z.mon.sleeps

theorem Slot.refl (hz : z.Steady) : Slot np z z := ⟨hz, rfl, fun _ _ => rfl, rfl, rfl⟩

theorem Slot.store {x : Loc} {a : x.Val} (h : Slot np z z') (hw : z'.Writes x a)
    (hown : z'.Owns x → x.lock = some (.proc np)) (htouch : ∀ ch, ¬ Touches x a ch)
    (hsleep : ∀ j, x ≠ .sleepLocked j) : Slot np z ⟨z'.core, z'.storeMon x a⟩ := by
  constructor
  case steady => exact h.steady.store hw
  case core => exact h.core
  case mem =>
      intro y hy
      rw [← h.mem y hy]
      by_cases hyx : y = x
      · subst hyx
        simp only [Local.storeMon_mem hw]
        rw [if_neg fun ho => hy (hown ho)]
      · exact Local.storeMon_mem_of_ne hw hyx
  case stale =>
      rw [← h.stale]
      funext ch
      rw [Bool.eq_iff_iff, Local.storeMon_stale]
      simp [htouch ch]
  case sleeps =>
      rw [← h.sleeps]
      funext j
      rw [Bool.eq_iff_iff, Local.storeMon_sleeps]
      simp [hsleep j]

theorem safe_freeproc {Q : Unit → Local → Prop} (hz : Inside (.proc np) u z)
    (hme : u.core.me ≠ .proc np)
    (hvacant : ∃ st, z.core.state np = some st ∧ (st = .unused ∨ st = .used ∨ st = .zombie))
    (hmoves : z.core.Moves np .unused)
    (hQ : ∀ z', Inside (.proc np) u z' → z'.Settled np →
      z'.core.child = z.core.childAfter np .unused →
      (∀ x, x.lock ≠ some (.proc np) → z'.mon.mem x = z.mon.mem x) →
      z'.mon.stale = z.mon.stale → z'.mon.sleeps = z.mon.sleeps → Q () z') :
    Safe (freeproc np) Q z := by
  have hmez : z.core.me ≠ .proc np := by rwa [hz.me]
  have hheld : z.core.grip (.proc np) ≠ .free := by simp [hz.held]
  have hvac : z.Vacant np := ⟨hmez, hz.held, hvacant⟩
  have hchan : ∃ st, z.core.state np = some st ∧ st ≠ .sleeping := by
    obtain ⟨st, hst, hcases⟩ := hvacant
    refine ⟨st, hst, ?_⟩
    obtain rfl | rfl | rfl := hcases <;> simp
  have h₁ : Slot np z ⟨z.core, z.storeMon (.pid np) 0⟩ :=
    (Slot.refl hz.steady).store hvac (fun ho => absurd ho hmez) (fun _ => id) (by simp)
  have h₂ := h₁.store (x := .parent np) (a := none) (.inr ⟨rfl, hvac⟩)
    (fun ho => absurd ho.1 hmez) (fun _ => id) (by simp)
  have h₃ := h₂.store (x := .chan np) (a := none) ⟨hheld, hchan⟩ (fun _ => rfl) (fun _ => id)
    (by simp)
  have h₄ := h₃.store (x := .killed np) (a := false) hheld (fun _ => rfl) (fun _ => id) (by simp)
  have h₅ := h₄.store (x := .xstate np) (a := 0) hheld (fun _ => rfl) (fun _ => id) (by simp)
  have hz₅ := hz.of_core h₅.steady rfl
  apply safe_bind
  refine safe_store (x := .pid np) hvac ?_
  apply safe_bind
  refine safe_store (x := .parent np) (.inr ⟨rfl, hvac⟩) ?_
  apply safe_bind
  refine safe_store (x := .chan np) ⟨hheld, hchan⟩ ?_
  apply safe_bind
  refine safe_store (x := .killed np) hheld ?_
  apply safe_bind
  refine safe_store (x := .xstate np) hheld ?_
  refine safe_setState hz₅.held hmoves (fun heq => absurd heq hmez) ?_
  refine hQ _ (hz₅.setState _ fun heq => absurd heq hmez)
    (Local.Settled.setState hmez (by simp)) (if_neg hmez) ?_ ?_ ?_
  · exact h₅.mem
  · exact h₅.stale
  · exact h₅.sleeps

theorem safe_findUnused {ps : List Nat} {Q : Option Nat → Local → Prop} (hu : u.Top p)
    (hnone : Q none u)
    (hsome : ∀ np ∈ ps, u.core.me ≠ .proc np →
      Q (some np) ((u.hold (.proc np)).next (.state np) .unused)) :
    Safe (findUnused ps) Q u := by
  induction ps with
  | nil => exact hnone
  | cons np ps ih =>
      have hz := Inside.hold hu.steady (hu.free (.proc np))
      have hset := hu.steady.settled_hold (hu.free (.proc np))
      apply safe_bind
      apply safe_hold hu.below
      apply safe_bind
      refine safe_getState hz.held ?_
      intro st hst _
      split
      case isTrue hunused =>
          subst hunused
          apply hsome np (by simp)
          intro hme
          cases hst _ (hset.1 hme)
      case isFalse =>
          have hz₁ := hz.getState st
          apply safe_bind
          refine safe_back_proc hu.steady hz₁ (hu.free _) (hset.getState hst) ?_
          rw [hz₁.back_eq hu.steady hu.free rfl (fun _ _ => rfl) rfl Local.not_leaves]
          exact ih fun np' hnp' => hsome np' (by simp [hnp'])

/-- The slot that `fork` is filling, with its lock held. -/
structure Filling (np : Nat) (b : Bool) (u z : Local) : Prop where
  inside : Inside (.proc np) u z
  settled : z.Settled np
  state : z.core.state np = some .used
  child : z.core.child = some (np, b)
  sleeps : ∀ j, z.mon.sleeps j = false

theorem Filling.of_core {b b' : Bool} (h : Filling np b u z) (hw : w.Steady)
    (hcore : w.core = { z.core with child := some (np, b') })
    (hsleeps : ∀ j, w.mon.sleeps j = false) : Filling np b' u w := by
  have hstate : w.core.state = z.core.state := by rw [hcore]
  have hchild : w.core.child = some (np, b') := by rw [hcore]
  constructor
  case inside => exact h.inside.of_core hw (by rw [hcore])
  case settled =>
      obtain ⟨hown, hidle⟩ := h.settled
      refine ⟨?_, ?_⟩
      · rw [hcore]
        exact hown
      · rw [hcore]
        exact hidle
  case state => rw [hstate, h.state]
  case child => exact hchild
  case sleeps => exact hsleeps

theorem Filling.safe_free {b : Bool} {α : Type} {a : α} {Q : α → Local → Prop} (hu : u.Top p)
    (hme : u.core.me ≠ .proc np) (hz : Filling np b u z) (hQ : ∀ w, w.Top p → Q a w) :
    Safe (do freeproc np; release (.proc np); pure a) Q z := by
  have hmoves : z.core.Moves np .unused := by
    rw [Core.Moves, if_neg (by rwa [hz.inside.me])]
    exact .inr ⟨b, hz.child⟩
  apply safe_bind
  refine safe_freeproc hz.inside hme ⟨.used, hz.state, by simp⟩ hmoves ?_
  intro z' hz' hset hchild _ _ hsleeps
  apply safe_bind
  refine safe_back_proc hu.steady hz' (hu.free _) hset ?_
  apply hQ
  apply hu.back hz'
  · rw [hchild]
    exact if_pos (by rw [hz.child]; rfl)
  · rw [hsleeps]
    exact hz.sleeps

theorem safe_attempt {Q : Bool → Local → Prop} (hQ : ∀ b, Q b u) : Safe (op .attempt) Q u :=
  safe_op trivial trivial fun b _ _ _ => hQ b

theorem safe_allocproc {Q : Option Nat → Local → Prop} (hu : u.Top p)
    (hnone : ∀ w, w.Top p → Q none w)
    (hsome : ∀ np z, u.core.me ≠ .proc np → Filling np true u z → Q (some np) z) :
    Safe allocproc Q u := by
  apply safe_bind
  refine safe_findUnused hu (safe_pure (hnone u hu)) ?_
  intro np hnp hme
  have hz := Inside.hold hu.steady (hu.free (.proc np))
  have hset := hu.steady.settled_hold (hu.free (.proc np))
  have hz₁ := hz.getState .unused
  have hset₁ : ((u.hold (.proc np)).next (.state np) .unused).Settled np := by
    apply hset.getState
    intro st hst
    have hunknown : (u.hold (.proc np)).core.state np = none :=
      (if_neg fun hand => hme hand.2).trans (hu.steady.unknown np (hu.free _)).1
    cases hunknown.symm.trans hst
  have hidle₁ : ((u.hold (.proc np)).next (.state np) .unused).core.idle np = true := by
    have hmez : (u.hold (.proc np)).core.me ≠ .proc np := hme
    simp [Local.next, Core.next, hmez]
  have hsleeps₁ : ∀ j, ((u.hold (.proc np)).next (.state np) .unused).mon.sleeps j = false :=
    hu.sleeps
  have hstate₁ : ((u.hold (.proc np)).next (.state np) .unused).core.state np = some .unused :=
    Function.update_self _ _ _
  have hchild₁ : ((u.hold (.proc np)).next (.state np) .unused).core.child = none := hu.child
  generalize (u.hold (.proc np)).next (.state np) .unused = z₁
    at hz₁ hset₁ hidle₁ hsleeps₁ hstate₁ hchild₁ ⊢
  apply safe_bind
  refine safe_allocpid hz₁.steady (hz₁.below hu.below (by simp [Lock.rank])) ?_
  intro pid w hw
  have hw₁ := hz₁.of_core hw.steady (by rw [hw.core])
  have hme₁ : w.core.me ≠ .proc np := by rwa [hw₁.me]
  have hvac : w.Vacant np := ⟨hme₁, hw₁.held, .unused, by rw [hw.core, hstate₁], by simp⟩
  -- the slot is used
  apply safe_bind
  refine safe_store (x := .pid np) hvac ?_
  have hslot : Slot np w ⟨w.core, w.storeMon (.pid np) pid⟩ :=
    (Slot.refl hw.steady).store hvac (fun ho => absurd ho hme₁) (fun _ => id) (by simp)
  have hz₂ := hw₁.of_core hslot.steady rfl
  have hmoves : w.core.Moves np .used := by
    rw [Core.Moves, if_neg hme₁, hw.core]
    exact ⟨hidle₁, hstate₁, hchild₁, by simpa using hnp⟩
  apply safe_bind
  refine safe_setState hz₂.held hmoves (fun heq => absurd heq hme₁) ?_
  have hz₃ := hz₂.setState .used fun heq => absurd heq hme₁
  have hsleeps₃ : ∀ j, (Local.next ⟨w.core, w.storeMon (.pid np) pid⟩
      (.setState np .used) ()).mon.sleeps j = false := by
    intro j
    refine Eq.trans (b := w.mon.sleeps j) rfl ?_
    rw [hw.sleeps, hsleeps₁]
  have hfill : Filling np false u (Local.next ⟨w.core, w.storeMon (.pid np) pid⟩
      (.setState np .used) ()) :=
    ⟨hz₃, Local.Settled.setState hme₁ (by simp), Function.update_self _ _ _, if_neg hme₁,
      hsleeps₃⟩
  generalize Local.next ⟨w.core, w.storeMon (.pid np) pid⟩ (.setState np .used) () = z₃ at hfill ⊢
  have hfail : Safe (do freeproc np; release (.proc np); pure none) Q z₃ :=
    hfill.safe_free hu hme hnone
  apply safe_bind
  apply safe_attempt
  intro trapframe
  split
  case isFalse => exact hfail
  case isTrue =>
      apply safe_bind
      apply safe_attempt
      intro pagetable
      split
      case isFalse => exact hfail
      case isTrue =>
          apply safe_bind
          refine safe_op ⟨hfill.inside.held, hfill.child⟩ trivial fun _ _ _ _ => ?_
          apply safe_pure
          have hcore : (z₃.next (.setContext np) ()).core =
              { z₃.core with child := some (np, true) } := rfl
          have hsteady : (z₃.next (.setContext np) ()).Steady :=
            ⟨hfill.inside.steady.top, hfill.inside.steady.off, hfill.inside.steady.prev,
              hfill.inside.steady.unknown, hfill.inside.steady.mem, hfill.inside.steady.quiet,
              hfill.inside.steady.unseen, hfill.inside.steady.unspared,
              hfill.inside.steady.going⟩
          exact hsome np _ hme (hfill.of_core hsteady hcore hfill.sleeps)

theorem safe_fork {Q : Int → Local → Prop} (hu : u.Top p) (hQ : ∀ n w, w.Top p → Q n w) :
    Safe fork Q u := by
  apply safe_bind
  apply safe_self hu.steady hu.me
  apply safe_bind
  refine safe_allocproc hu (hQ (-1)) ?_
  intro np z hme hfill
  have hmez : z.core.me ≠ .proc np := by rwa [hfill.inside.me]
  apply safe_bind
  apply safe_attempt
  intro copied
  split
  case isFalse => exact hfill.safe_free hu hme (hQ (-1))
  case isTrue =>
      have hheld : z.core.grip (.proc np) ≠ .free := by simp [hfill.inside.held]
      apply safe_bind
      refine safe_load (x := .pid np) (.inr hheld) ?_
      intro pid _
      have hsame : z.core = { z.core with child := some (np, true) } := by
        rw [← hfill.child]
      have hfill₁ : Filling np true u ⟨z.core, z.loadMon (.pid np) pid⟩ := by
        refine hfill.of_core (hfill.inside.steady.load (.inr hheld)) hsame ?_
        intro j
        rw [Local.loadMon_sleeps]
        exact hfill.sleeps j
      apply safe_bind
      refine safe_back_proc hu.steady hfill₁.inside (hu.free _) hfill₁.settled ?_
      -- the parent is set under its own lock
      have hu₁ := hu.back hfill₁.inside hfill₁.child hfill₁.sleeps
      generalize u.back ⟨z.core, z.loadMon (.pid np) pid⟩ (.proc np) = u₁ at hu₁ ⊢
      have hz₁ := Inside.hold hu₁.steady (hu₁.free .wait)
      have hquiet : ∀ ch, (u₁.hold .wait).mon.stale ch = false := fun ch =>
        (hu₁.steady.quiet ch (hu₁.free _)).1
      have hw : (u₁.hold .wait).Writes (.parent np) (some p) := by
        refine .inl ⟨by simp [hz₁.held], ?_⟩
        rintro q ⟨⟩
        exact .inr ⟨hu₁.me, Local.hold_free (by simp) (hu₁.free _), true, hu₁.child⟩
      apply safe_bind
      apply safe_hold hu₁.below
      apply safe_bind
      refine safe_store (x := .parent np) hw ?_
      have hz₂ := hz₁.of_core (hz₁.steady.store hw) rfl
      apply safe_bind
      refine safe_back hu₁.steady hz₂ (hu₁.free _) (fun q hq => by cases hq) ?_ ?_
      · intro ch _ hst
        obtain hold | hnew := Local.storeMon_stale (x := .parent np).1 hst
        · cases (hquiet ch).symm.trans hold
        · obtain ⟨rfl, hnot⟩ := hnew
          exact absurd hu₁.me (hnot p rfl)
      have hu₂ := hu₁.back hz₂ hu₁.child hu₁.sleeps
      generalize u₁.back _ .wait = u₂ at hu₂ ⊢
      -- and the child can run
      have hz₃ := Inside.hold hu₂.steady (hu₂.free (.proc np))
      have hme₃ : (u₂.hold (.proc np)).core.me ≠ .proc np := by
        rw [hz₃.me, hu₂.me, ← hu.me]
        exact hme
      have hmoves : (u₂.hold (.proc np)).core.Moves np .runnable := by
        unfold Core.Moves
        rw [if_neg hme₃]
        exact .inr hu₂.child
      apply safe_bind
      apply safe_hold hu₂.below
      apply safe_bind
      refine safe_setState hz₃.held hmoves (fun heq => absurd heq hme₃) ?_
      have hz₄ := hz₃.setState .runnable fun heq => absurd heq hme₃
      apply safe_bind
      refine safe_back_proc hu₂.steady hz₄ (hu₂.free _) (Local.Settled.setState hme₃ (by simp)) ?_
      apply safe_pure
      apply hQ
      refine hu₂.back hz₄ ((if_neg hme₃).trans (if_pos ?_)) hu₂.sleeps
      have hchild : (u₂.hold (.proc np)).core.child = some (np, true) := hu₂.child
      rw [hchild]
      rfl

/-! ## `exit` -/

def Local.Woken (z : Local) : Prop :=
  ∀ ch, z.mon.stale ch = true → ∀ q < NPROC, z.core.me ≠ .proc q → z.mon.maybe ch q = false

theorem Local.Woken.learned (hz : z.Woken) (hw : Learned z w) : w.Woken := by
  intro ch hch q hq hme
  rw [hw.stale] at hch
  rw [hw.core] at hme
  by_contra hmay
  have hold := hz ch hch q hq hme
  rw [hw.maybe ch q (by simpa using hmay)] at hold
  cases hold

structure Exiting (u z : Local) : Prop where
  inside : Inside .wait u z
  woken : z.Woken
  child : z.core.child = none
  sleeps : ∀ j, z.mon.sleeps j = false

theorem Exiting.learned (hz : Exiting u z) (hw : Learned z w) : Exiting u w where
  inside := hz.inside.of_core hw.steady (by rw [hw.core])
  woken := hz.woken.learned hw
  child := by rw [hw.core, hz.child]
  sleeps := by simpa [hw.sleeps] using hz.sleeps

theorem Exiting.load {x : Loc} {a : x.Val} (hz : Exiting u z) (hx : z.Reads x) :
    Exiting u ⟨z.core, z.loadMon x a⟩ where
  inside := hz.inside.of_core (hz.inside.steady.load hx) rfl
  woken := by
    intro ch hch
    simp only [Local.loadMon_stale, Local.loadMon_maybe] at hch ⊢
    exact hz.woken ch hch
  child := hz.child
  sleeps := by simpa [Local.loadMon_sleeps] using hz.sleeps

theorem Local.spared_loadMon {pp : Nat} {a : Option Nat} (hme : z.core.me = .proc p)
    (hq : z.mon.spared q = true ∨ q = pp ∧ a ≠ some p) :
    (z.loadMon (.parent pp) a).spared q = true := by
  simp only [Local.loadMon, hme]
  by_cases ha : a = some p
  · rw [if_pos ha]
    exact hq.resolve_right fun hand => hand.2 ha
  · rw [if_neg ha]
    by_cases hpp : q = pp
    · rw [hpp, Function.update_self]
    · rw [Function.update_of_ne hpp]
      exact hq.resolve_right fun hand => hpp hand.1

theorem Local.spared_storeMon {pp : Nat} {a : Option Nat} (hme : z.core.me = .proc p)
    (hwait : z.core.grip .wait ≠ .free) (ha : a ≠ some p)
    (hq : z.mon.spared q = true ∨ q = pp) : (z.storeMon (.parent pp) a).spared q = true := by
  simp only [Local.storeMon, hme, if_neg hwait]
  by_cases hpp : q = pp
  · rw [hpp, Function.update_self]
    exact decide_eq_true ha
  · rw [Function.update_of_ne hpp]
    exact hq.resolve_right hpp

theorem safe_reparentOne {pp : Nat} {Q : Unit → Local → Prop} (hz : Exiting u z)
    (hme : z.core.me = .proc p) (hinit : p ≠ initproc) (hpp : pp < NPROC)
    (hbelow : ∀ q, z.Below (.proc q)) (hcproc : z.core.cproc = none)
    (hQ : ∀ w, Exiting u w → w.core = z.core →
      (∀ q, z.mon.spared q = true ∨ q = pp → w.mon.spared q = true) → Q () w) :
    Safe (reparentOne p pp) Q z := by
  have hheld : z.core.grip .wait ≠ .free := by simp [hz.inside.held]
  apply safe_bind
  refine safe_load (x := .parent pp) hheld ?_
  intro q hgives
  have hz₁ := hz.load (x := .parent pp) (a := q) hheld
  have hspared₁ : ∀ r, z.mon.spared r = true ∨ r = pp ∧ q ≠ some p →
      (z.loadMon (.parent pp) q).spared r = true := fun r => Local.spared_loadMon hme
  generalize hu₁ : Local.mk z.core (z.loadMon (.parent pp) q) = z₁ at hz₁ ⊢
  have hcore₁ : z₁.core = z.core := by rw [← hu₁]
  have hmon₁ : z.loadMon (.parent pp) q = z₁.mon := by rw [← hu₁]
  rw [hmon₁] at hspared₁
  split
  case isFalse hne =>
      refine safe_pure (hQ _ hz₁ hcore₁ fun r hr => hspared₁ r ?_)
      exact hr.imp_right fun heq => ⟨heq, hne⟩
  case isTrue hchild =>
      have hheld₁ : z₁.core.grip .wait ≠ .free := by simp [hz₁.inside.held]
      have hroot : pp ≠ initproc := by
        intro heq
        rw [hgives.2 heq] at hchild
        cases hchild
      have hw : z₁.Writes (.parent pp) (some initproc) := by
        refine .inl ⟨hheld₁, ?_⟩
        rintro r ⟨⟩
        exact .inl ⟨rfl, hroot, hpp⟩
      have hsteady := hz₁.inside.steady.store hw
      apply safe_bind
      refine safe_store (x := .parent pp) hw ?_
      refine safe_wakeup hsteady (fun q => ?_) (by rw [hcore₁, hcproc]) ?_
      · have hb := hbelow q
        rwa [Local.Below, ← hcore₁] at hb
      intro w hw' hwoken
      have hcore : w.core = z.core := hw'.core.trans hcore₁
      refine hQ w ?_ hcore ?hspared
      case hspared =>
          intro r hr
          rw [hw'.spared]
          refine Local.spared_storeMon (by rw [hcore₁, hme]) hheld₁ ?_
            (hr.imp_left fun hold => hspared₁ r (.inl hold))
          simpa using Ne.symm hinit
      constructor
      case inside =>
          refine hz₁.inside.of_core hw'.steady ?_
          rw [hw'.core]
      case child => rw [hcore, hz.child]
      case sleeps =>
          rw [hw'.sleeps]
          exact hz₁.sleeps
      case woken =>
          intro ch hch q hq hme
          rw [hw'.stale] at hch
          rw [hw'.core] at hme
          obtain hold | hnew := Local.storeMon_stale (x := .parent pp).1 hch
          · by_contra hmay
            have hbefore := hz₁.woken ch hold q hq hme
            have hafter := hw'.maybe ch q (by simpa using hmay)
            simp only [Local.storeMon_maybe, hbefore] at hafter
            cases hafter
          · exact hwoken ch (by rw [hnew.1]) (by rwa [hnew.1]) q hq hme

theorem safe_reparent {Q : Unit → Local → Prop} (hz : Exiting u z) (hme : z.core.me = .proc p)
    (hinit : p ≠ initproc) (hbelow : ∀ q, z.Below (.proc q)) (hcproc : z.core.cproc = none)
    (hQ : ∀ w, Exiting u w → w.core = z.core → (∀ q < NPROC, w.mon.spared q = true) → Q () w) :
    Safe (reparent p) Q z := by
  apply Routine.wp_forM rules_monotone fun rest w => (Exiting u w ∧ w.core = z.core) ∧
    (∀ pp ∈ rest, pp < NPROC) ∧ ∀ q < NPROC, q ∉ rest → w.mon.spared q = true
  case hstart =>
      refine ⟨⟨hz, rfl⟩, fun pp hpp => List.mem_range.1 hpp, ?_⟩
      exact fun q hq hnot => absurd (List.mem_range.2 hq) hnot
  case hturn =>
      rintro pp rest w ⟨⟨hw, hcore⟩, hbound, hspared⟩
      refine safe_reparentOne hw (by rw [hcore, hme]) hinit (hbound pp (by simp)) (fun q => ?_)
        (by rw [hcore, hcproc]) ?_
      · have hb := hbelow q
        rwa [Local.Below, ← hcore] at hb
      · intro w' hw' hcore' hspared'
        refine ⟨⟨hw', hcore'.trans hcore⟩, fun r hr => hbound r (by simp [hr]), ?_⟩
        intro q hq hnot
        by_cases hqp : q = pp
        · exact hspared' q (.inr hqp)
        · exact hspared' q (.inl (hspared q hq (by simp [hqp, hnot])))
  case hend => exact fun w hw => hQ w hw.1.1 hw.1.2 fun q hq => hw.2.2 q hq (by simp)

theorem safe_die {status : Int} {parent : Option Nat} {Q : Unit → Local → Prop} (hu : u.Steady)
    (hzero : u.core.noff = 0) (hme : u.core.me = .proc p) (hz : Exiting u z)
    (hparent : z.mon.mem (.parent p) = some parent) (hinit : p ≠ initproc)
    (hspared : ∀ q < NPROC, z.mon.spared q = true)
    (hwoken : ∀ q', parent = some q' → ∀ q < NPROC, z.core.me ≠ .proc q →
      z.mon.maybe (.proc q') q = false) :
    Safe (do
      acquire (.proc p)
      store (.xstate p) status
      setState p .zombie
      release .wait
      sched
      panic .zombieExit) Q z := by
  have hfree := (hu.top hzero).1
  have hbelow : z.Below (.proc p) :=
    hz.inside.below (Local.Below.of_free hfree) (by simp [Lock.rank])
  have hne : Lock.proc p ≠ .wait := by simp
  have hz₁ := hz.inside.swap hne hbelow.free
  have hheld₁ : (z.hold (.proc p)).core.grip (.proc p) = .held := Function.update_self _ _ _
  have hown : (z.hold (.proc p)).Owns (.xstate p) := by
    change (z.hold (.proc p)).core.grip (.proc p) ≠ .free
    simp [hheld₁]
  apply safe_bind
  apply safe_hold hbelow
  apply safe_bind
  refine safe_store (x := .xstate p) hown ?_
  have hz₂ := hz₁.of_core (hz₁.steady.store (x := .xstate p) (v := status) hown) rfl
  have hwait₂ : (z.hold (.proc p)).core.grip .wait ≠ .free := by simp [hz₁.held]
  have hparent₂ : ((z.hold (.proc p)).storeMon (.xstate p) status).mem (.parent p) =
      some parent := (Local.storeMon_mem_of_ne (x := .xstate p) hown (by simp)).trans hparent
  have hme₂ : (z.hold (.proc p)).core.me = .proc p := hz₁.me.trans hme
  have hpre : Local.Pre ⟨(z.hold (.proc p)).core, (z.hold (.proc p)).storeMon (.xstate p) status⟩
      (.setState p .zombie) :=
    fun _ => ⟨by simp, fun _ => ⟨hwait₂, Option.isSome_of_eq_some hparent₂, hinit, hspared⟩⟩
  apply safe_bind
  refine safe_setState hheld₁ (Core.moves_own hme₂ (if_pos ⟨rfl, hz.inside.me.trans hme⟩)
    (.inr (.inr rfl))) hpre ?_
  -- the lock of the parent goes first
  have hsteady₃ := hz₂.steady.setState hheld₁ hpre
  generalize hw : Local.next ⟨(z.hold (.proc p)).core,
    (z.hold (.proc p)).storeMon (.xstate p) status⟩ (.setState p .zombie) () = w at hsteady₃ ⊢
  have hcore₃ : w.core = { (z.hold (.proc p)).core with
      state := w.core.state, child := w.core.child } := by
    rw [← hw]
    rfl
  have hstate₃ : w.core.state = Function.update (z.hold (.proc p)).core.state p (some .zombie) := by
    rw [← hw]
    rfl
  have hchild₃ : w.core.child = none := by
    rw [← hw]
    exact (if_pos hme₂).trans hz.child
  have hsleeps₃ : ∀ j, w.mon.sleeps j = false := by
    intro j
    rw [← hw]
    simp only [Local.next, Local.nextMon, if_pos hme₂]
    exact hz.sleeps j
  have hwoken₃ : w.Woken := by
    intro ch hch q hq hmeq
    rw [hcore₃] at hmeq
    rw [← hw] at hch ⊢
    simp only [Local.next, Local.nextMon, if_pos hme₂] at hch ⊢
    obtain hold | ⟨q', hq', rfl⟩ := Local.dieMon_stale.1 hch
    · exact hz.woken ch hold q hq hmeq
    · have heq : parent = some q' := Option.some.inj (hparent₂.symm.trans hq')
      exact hwoken q' heq q hq hmeq
  have hz₃ := hz₂.setOwn w.core.state hsteady₃ hcore₃ fun _ _ => rfl
  have hheld : (u.hold (.proc p)).core.grip (.proc p) ≠ .free := by simp [Local.hold]
  have hu₃ : Local.Steady ⟨{ (u.hold (.proc p)).core with state := w.core.state }, u.mon⟩ := by
    have hother : ∀ q, q ≠ p → w.core.state q = (u.hold (.proc p)).core.state q := by
      intro q hq
      rw [hstate₃, Function.update_of_ne hq]
      exact hz₁.state q (by simp)
    exact (hu.hold (hfree (.proc p))).setCore hheld hother fun _ _ => rfl
  have hfree₃ : (Local.mk { (u.hold (.proc p)).core with state := w.core.state }
      u.mon).core.grip .wait = .free := Local.hold_free hne.symm (hfree _)
  apply safe_bind
  refine safe_back hu₃ hz₃ hfree₃ (fun q hq => by cases hq) (fun ch _ => hwoken₃ ch) ?_
  have hsteady := hz₃.back_steady hu₃ hfree₃
  apply safe_bind
  refine safe_sched .zombie hsteady hme (by simp [Local.back, Local.hold, Local.pushed, Local.regs,
    Core.locked, hzero]) ⟨Function.update_self _ _ _, ?_⟩ ?_
    (.inr (.inr ⟨rfl, hchild₃⟩)) ?_ fun hnot => absurd rfl hnot
  · exact fun k hk => Local.hold_free hk (hfree k)
  · change w.core.state p = some .zombie
    rw [hstate₃, Function.update_self]
  · intro _ j
    simp [Local.back, Local.unlockMon, hsleeps₃ j]

theorem safe_exit {status : Int} {Q : Unit → Local → Prop} (hu : u.Steady)
    (hzero : u.core.noff = 0) (hme : u.core.me = .proc p) (hchild : u.core.child = none)
    (hsleeps : ∀ j, u.mon.sleeps j = false) : Safe (exit status) Q u := by
  obtain ⟨hfree, hcproc, -⟩ := hu.top hzero
  apply safe_bind
  apply safe_self hu hme
  apply safe_bind
  by_cases hinit : p = initproc
  · rw [panicIf, if_pos (by simp [hinit])]
    exact ⟨rfl, trivial, fun r => r.elim⟩
  apply safe_panicIf (by simp [hinit])
  have hz₀ : Exiting u (u.hold .wait) := by
    refine ⟨Inside.hold hu (hfree _), ?_, hchild, hsleeps⟩
    intro ch hch
    have hquiet : (u.hold .wait).mon.stale ch = false := (hu.quiet ch (hfree _)).1
    cases hquiet.symm.trans hch
  have hbelow : ∀ q, (u.hold .wait).Below (.proc q) := fun q =>
    hz₀.inside.below (Local.Below.of_free hfree) (by simp [Lock.rank])
  apply safe_bind
  apply safe_hold (Local.Below.of_free hfree)
  apply safe_bind
  refine safe_reparent hz₀ hme hinit hbelow hcproc ?_
  intro z₁ hz₁ hcore₁ hspared₁
  have hme₁ := hz₁.inside.me.trans hme
  have hheld₁ : z₁.core.grip .wait ≠ .free := by simp [hz₁.inside.held]
  apply safe_bind
  refine safe_load (x := .parent p) hheld₁ ?_
  intro q _
  have hz₂ := hz₁.load (x := .parent p) (a := q) hheld₁
  have hparent₂ : (Local.mk z₁.core (z₁.loadMon (.parent p) q)).mon.mem (.parent p) = some q :=
    Local.loadMon_mem_self (show z₁.Owns (.parent p) from ⟨hme₁, hheld₁⟩)
  have hspared₂ : ∀ r < NPROC,
      (Local.mk z₁.core (z₁.loadMon (.parent p) q)).mon.spared r = true := fun r hr =>
    Local.spared_loadMon hme₁ (.inl (hspared₁ r hr))
  generalize hw : Local.mk z₁.core (z₁.loadMon (.parent p) q) = z₂ at hz₂ hparent₂ hspared₂ ⊢
  have hcore₂ : z₂.core = (u.hold .wait).core := by rw [← hw, hcore₁]
  apply safe_bind
  refine safe_wakeup hz₂.inside.steady (fun q => ?_) (by rw [hcore₂]; exact hcproc) ?_
  · have hb := hbelow q
    rwa [Local.Below, ← hcore₂] at hb
  intro z₃ hz₃ hwoken
  have hheld₂ : z₂.core.grip .wait ≠ .free := by simp [hz₂.inside.held]
  refine safe_die hu hzero hme (hz₂.learned hz₃) (by rw [hz₃.mem, hparent₂]) hinit
    (by rwa [hz₃.spared]) ?_
  rintro q' rfl r hr hmer
  rw [hz₃.core] at hmer
  exact hwoken (.proc q') rfl hheld₂ r hr hmer

/-! ## `wait` -/

structure Waiting (k : Lock) (v z : Local) : Prop where
  inside : Inside k v z
  child : z.core.child = none
  mem : ∀ x, x.lock = none → z.mon.mem x = v.mon.mem x
  sleeps : z.mon.sleeps = v.mon.sleeps
  quiet : ∀ ch, z.mon.stale ch = false

theorem Waiting.hold (hv : v.Calm) (hchild : v.core.child = none) : Waiting k v (v.hold k) where
  inside := Inside.hold hv.steady (hv.free _)
  child := hchild
  mem := fun _ _ => rfl
  sleeps := rfl
  quiet := fun ch => (hv.steady.quiet ch (hv.free _)).1

theorem Waiting.learned (hz : Waiting k v z) (hw : Learned z w) : Waiting k v w where
  inside := hz.inside.of_core hw.steady (by rw [hw.core])
  child := by rw [hw.core, hz.child]
  mem := by simpa [hw.mem] using hz.mem
  sleeps := by rw [hw.sleeps, hz.sleeps]
  quiet := by simpa [hw.stale] using hz.quiet

theorem Waiting.load {x : Loc} {a : x.Val} (hz : Waiting k v z) (hx : z.Reads x)
    (hknown : x.lock = none → z.mon.mem x = some a) :
    Waiting k v ⟨z.core, z.loadMon x a⟩ where
  inside := hz.inside.of_core (hz.inside.steady.load hx) rfl
  child := hz.child
  mem := by
    intro y hy
    rw [← hz.mem y hy]
    by_cases hyx : y = x
    · subst hyx
      simp only [Local.loadMon_mem]
      split
      · rw [Function.update_self, hknown hy]
      · rfl
    · exact Local.loadMon_mem_of_ne hyx
  sleeps := Local.loadMon_sleeps.trans hz.sleeps
  quiet := by simpa [Local.loadMon_stale] using hz.quiet

theorem safe_leave {α : Type} {a : α} {Q : α → Local → Prop} (hv : v.Top p)
    (hz : Inside k v z) (hk : ∀ q, k ≠ .proc q) (hchild : z.core.child = none)
    (hsleeps : ∀ j, z.mon.sleeps j = false) (hquiet : ∀ ch, z.mon.stale ch = false)
    (hQ : ∀ w, w.Top p → Q a w) : Safe (do release k; pure a) Q z := by
  apply safe_bind
  refine safe_back hv.steady hz (hv.free _) (fun q hq => absurd hq (hk q)) ?_ ?_
  · exact fun ch _ hst => absurd ((hquiet ch).symm.trans hst) (by simp)
  · exact hQ _ (hv.back hz hchild hsleeps)

structure Corpse (pp : Nat) (u z : Local) : Prop where
  inside : Inside (.proc pp) u z
  settled : z.Settled pp
  state : z.core.state pp = some .zombie
  idle : z.core.idle pp = true
  child : z.core.child = none
  sleeps : ∀ j, z.mon.sleeps j = false
  quiet : ∀ ch, z.mon.stale ch = false

theorem Corpse.load {pp : Nat} {x : Loc} {a : x.Val} (hz : Corpse pp u z) (hx : z.Reads x) :
    Corpse pp u ⟨z.core, z.loadMon x a⟩ where
  inside := hz.inside.of_core (hz.inside.steady.load hx) rfl
  settled := hz.settled
  state := hz.state
  idle := hz.idle
  child := hz.child
  sleeps := by simpa [Local.loadMon_sleeps] using hz.sleeps
  quiet := by simpa [Local.loadMon_stale] using hz.quiet

theorem safe_bury {pp pid : Nat} {copied : Bool} {Q : Bool ⊕ Int → Local → Prop} (hv : v.Top p)
    (hu : Waiting .wait v u) (hfree : u.core.grip (.proc pp) = .free) (hme : u.core.me ≠ .proc pp)
    (hz : Corpse pp u z) (hdone : ∀ r w, w.Top p → Q (.inr r) w) :
    Safe (if copied then do
        freeproc pp
        release (.proc pp)
        release .wait
        pure (.inr pid)
      else do
        release (.proc pp)
        release .wait
        pure (.inr (-1)) : SmpM (Bool ⊕ Int)) Q z := by
  have hstays : ∀ z' (r : Int), Inside (.proc pp) u z' → z'.Settled pp → z'.core.child = none →
      (∀ j, z'.mon.sleeps j = false) → (∀ ch, z'.mon.stale ch = false) →
      Safe (do release (.proc pp); release .wait; pure (.inr r) : SmpM (Bool ⊕ Int)) Q z' := by
    intro z' r hz' hset hchild hsleeps hquiet
    apply safe_bind
    refine safe_back_proc hu.inside.steady hz' hfree hset ?_
    refine safe_leave hv
      (hu.inside.of_core (hz'.back_steady hu.inside.steady hfree) rfl) (by simp) hchild ?_ ?_
      (hdone r)
    · intro j
      simp [Local.back, Local.unlockMon, hsleeps j]
    · intro ch
      exact (if_neg (Chan.lock_ne_proc ch pp)).trans (hquiet ch)
  split
  case isFalse => exact hstays z _ hz.inside hz.settled hz.child hz.sleeps hz.quiet
  case isTrue =>
      have hmoves : z.core.Moves pp .unused := by
        rw [Core.Moves, if_neg (by rwa [hz.inside.me])]
        exact .inl ⟨hz.idle, hz.state⟩
      apply safe_bind
      refine safe_freeproc hz.inside hme ⟨.zombie, hz.state, by simp⟩ hmoves ?_
      intro z' hz' hset hchild _ hstale hsleeps
      refine hstays z' _ hz' hset ?_ (by rw [hsleeps]; exact hz.sleeps)
        (by rw [hstale]; exact hz.quiet)
      rw [hchild, Core.childAfter_of_ne (by simp), hz.child]
      simp [hz.child]

theorem safe_reap {addr havekids : Bool} {ps : List Nat} {Q : Bool ⊕ Int → Local → Prop}
    (hv : v.Top p) (hz : Waiting .wait v z) (hseen : ∀ q < NPROC, q ∉ ps → z.mon.seen q = true)
    (hleft : ∀ havekids w, Waiting .wait v w → (∀ q < NPROC, w.mon.seen q = true) →
      Q (.inl havekids) w)
    (hdone : ∀ r w, w.Top p → Q (.inr r) w) : Safe (reap p addr havekids ps) Q z := by
  induction ps generalizing z havekids with
  | nil => exact hleft havekids z hz fun q hq => hseen q hq (by simp)
  | cons pp ps ih =>
      have hmez := hz.inside.me.trans hv.me
      apply safe_bind
      have hreads : z.Reads (.parent pp) := by
        change z.core.grip .wait ≠ .free
        simp [hz.inside.held]
      refine safe_load hreads ?_
      intro q _
      have hz₁ := hz.load (a := q) hreads (by simp [Loc.lock])
      have hseen₁ : ∀ r < NPROC, r ∉ ps → (r = pp → q ≠ some p) →
          (Local.mk z.core (z.loadMon (.parent pp) q)).mon.seen r = true := by
        intro r hr hnot hne
        simp only [Local.loadMon, hmez]
        by_cases hrp : r = pp
        · rw [if_neg (hne hrp), hrp, Function.update_self]
        · have hold := hseen r hr (by simp [hrp, hnot])
          split
          · exact hold
          · rw [Function.update_of_ne hrp]
            exact hold
      split
      case isFalse hne => exact ih hz₁ fun r hr hnot => hseen₁ r hr hnot fun _ => hne
      case isTrue =>
          generalize Local.mk z.core (z.loadMon (.parent pp) q) = z₁ at hz₁ hseen₁ ⊢
          have hbelow : z₁.Below (.proc pp) := hz₁.inside.below hv.below (by simp [Lock.rank])
          have hz₂ := Section.holdProc hz₁.inside.steady hbelow
          have hset := hz₁.inside.steady.settled_hold hbelow.free
          apply safe_bind
          apply safe_hold hbelow
          apply safe_bind
          refine safe_getState hz₂.held ?_
          intro st hst _
          have hz₃ := hz₂.getState st
          have hset₃ := hset.getState hst
          split
          case isFalse hzombie =>
              -- a child that lives
              apply safe_bind
              refine safe_back_proc hz₁.inside.steady hz₃.toInside hbelow.free hset₃ ?_
              have hlearned := hz₃.learned hz₁.inside.steady hbelow.free rfl
              refine ih (hz₁.learned hlearned) ?_
              intro r hr hnot
              by_cases hrp : r = pp
              · subst hrp
                have hwait : (z₁.hold (.proc r)).core.grip .wait ≠ .free := by
                  rw [hz₂.grip_of_ne (by simp), hz₁.inside.held]
                  simp
                have hne : Lock.proc r ≠ .wait := by simp
                simp only [Local.back, Local.unlockMon, if_neg hne, Bool.or_eq_true,
                  decide_eq_true_eq]
                exact .inr ⟨trivial, hwait, st, Function.update_self _ _ _, hzombie⟩
              · exact hlearned.seen r (hseen₁ r hr hnot fun heq => absurd heq hrp)
          case isTrue hzombie =>
              subst hzombie
              have hme : z₁.core.me ≠ .proc pp := by
                intro hme
                cases hst _ (hset.1 hme)
              have hcorpse : Corpse pp z₁ ((z₁.hold (.proc pp)).next (.state pp) .zombie) := by
                constructor
                case inside => exact hz₃.toInside
                case settled => exact hset₃
                case state => exact Function.update_self _ _ _
                case idle =>
                    have hmeh : (z₁.hold (.proc pp)).core.me ≠ .proc pp := hme
                    simp [Local.next, Core.next, hmeh]
                case child => exact hz₁.child
                case sleeps =>
                    intro j
                    refine Eq.trans (b := z₁.mon.sleeps j) rfl ?_
                    rw [hz₁.sleeps, hv.sleeps]
                case quiet => exact hz₁.quiet
              have hreads : ∀ w, Corpse pp z₁ w → w.core.grip (.proc pp) ≠ .free := by
                intro w hw
                simp [hw.inside.held]
              apply safe_bind
              refine safe_load (x := .pid pp) (.inr (hreads _ hcorpse)) ?_
              intro pid _
              have hcorpse₁ := hcorpse.load (x := .pid pp) (a := pid) (.inr (hreads _ hcorpse))
              split
              case isFalse =>
                  apply safe_bind
                  apply safe_pure
                  exact safe_bury hv hz₁ hbelow.free hme hcorpse₁ hdone
              case isTrue =>
                  apply safe_bind
                  refine safe_load (x := .xstate pp) (hreads _ hcorpse₁) ?_
                  intro n _
                  have hcorpse₂ := hcorpse₁.load (x := .xstate pp) (a := n) (hreads _ hcorpse₁)
                  apply safe_bind
                  apply safe_attempt
                  intro copied
                  exact safe_bury hv hz₁ hbelow.free hme hcorpse₂ hdone

theorem safe_waitTurn {addr : Bool} {Q : Unit ⊕ Int → Local → Prop} (hv : v.Top p)
    (hagain : Q (.inl ()) (v.hold .wait)) (hdone : ∀ r w, w.Top p → Q (.inr r) w) :
    Safe (waitTurn p addr) Q (v.hold .wait) := by
  have hstop : ∀ stop z, Waiting .wait v z → (∀ q < NPROC, z.mon.seen q = true) →
      Safe (if stop = true then do
          release .wait
          pure (.inr (-1))
        else do
          sleep (.proc p) .wait
          pure (.inl ()) : SmpM (Unit ⊕ Int)) Q z := by
    intro stop z hz hseen
    split
    case isTrue =>
        refine safe_leave hv hz.inside (by simp) hz.child ?_ hz.quiet (hdone (-1))
        rw [hz.sleeps]
        exact hv.sleeps
    case isFalse =>
        apply safe_bind
        refine safe_sleep (.proc p) hv.toCalm hv.me hz.inside ?_ hz.mem hz.sleeps
          (fun ch _ => hz.quiet ch) ?_ hagain
        · rw [hz.child, hv.child]
        · simpa [Local.blocked] using hseen
  apply safe_bind
  refine safe_reap hv (Waiting.hold hv.toCalm hv.child) ?_ ?_ ?_
  · exact fun q hq hnot => absurd (List.mem_range.2 hq) hnot
  · intro havekids z hz hseen
    cases havekids with
    | true =>
        apply safe_bind
        refine safe_killed hz.inside.steady
          (hz.inside.below hv.below (by simp [Lock.rank])) fun stop w hlearned => ?_
        exact hstop stop w (hz.learned hlearned) fun q hq => hlearned.seen q (hseen q hq)
    | false => exact hstop true z hz hseen
  · exact fun r w hw => safe_pure (hdone r w hw)

theorem safe_wait {addr : Bool} {Q : Int → Local → Prop} (hv : v.Top p)
    (hQ : ∀ n w, w.Top p → Q n w) : Safe (wait addr) Q v := by
  apply safe_bind
  apply safe_self hv.steady hv.me
  apply safe_bind
  apply safe_hold hv.below
  apply Routine.wp_loop (fun _ z => z = v.hold .wait) rfl
  rintro _ _ rfl
  exact safe_waitTurn hv rfl fun n w hw => safe_pure (hQ n w hw)

end SyscallSched.Xv6.Smp
