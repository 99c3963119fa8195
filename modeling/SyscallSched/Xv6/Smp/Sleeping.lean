import SyscallSched.Xv6.Smp.Sections

/-!
# Sleep, wakeup and kill keep to the rules
-/

namespace SyscallSched.Xv6.Smp

open SyscallSched.Foundation

variable {u v w z : Local} {k : Lock} {p q : Nat} {ch : Chan}

/-! ## Under the lock of a process -/

/-- The lock of `p` may be given back. -/
def Local.Settled (z : Local) (p : Nat) : Prop :=
  (z.core.me = .proc p → z.core.state p = some .running) ∧
    (z.core.idle p = true → ∃ st, z.core.state p = some st ∧ st ≠ .running)

theorem Local.Steady.settled_hold (hu : u.Steady) (hfree : u.core.grip (.proc p) = .free) :
    (u.hold (.proc p)).Settled p := by
  refine ⟨fun hme => if_pos ⟨rfl, hme⟩, ?_⟩
  intro hidle
  have hnot : (u.hold (.proc p)).core.idle p = false := (hu.unknown p hfree).2
  rw [hnot] at hidle
  cases hidle

theorem Local.Settled.getState {st : ProcState} (hz : z.Settled p)
    (hst : ∀ st', z.core.state p = some st' → st = st') : (z.next (.state p) st).Settled p := by
  refine ⟨?_, ?_⟩
  · intro hme
    rw [hst _ (hz.1 hme)]
    exact Function.update_self _ _ _
  · intro hidle
    refine ⟨st, Function.update_self _ _ _, ?_⟩
    rintro rfl
    have hold : z.core.idle p = true := by simpa [Local.next, Core.next] using hidle
    obtain ⟨st', hst', hne⟩ := hz.2 hold
    exact hne (hst st' hst').symm

theorem Local.Settled.setState {st : ProcState} (hme : z.core.me ≠ .proc p)
    (hst : st ≠ .running) : (z.next (.setState p st) ()).Settled p :=
  ⟨fun heq => absurd heq hme, fun _ => ⟨st, Function.update_self _ _ _, hst⟩⟩

theorem safe_back_proc {Q : Unit → Local → Prop} (hu : u.Steady) (hz : Inside (.proc p) u z)
    (hfree : u.core.grip (.proc p) = .free) (hset : z.Settled p)
    (hQ : Q () (u.back z (.proc p))) : Safe (release (.proc p)) Q z := by
  refine safe_back hu hz hfree ?hstate ?hmon hQ
  case hstate =>
      rintro q ⟨⟩
      exact hset
  case hmon => exact fun ch hch => absurd hch (Chan.lock_ne_proc ch p)

theorem Section.holdProc (hu : u.Steady) (hbelow : u.Below (.proc p)) :
    Section (.proc p) u (u.hold (.proc p)) :=
  Section.hold hu hbelow.free fun ch => Chan.lock_ne_proc ch p

theorem safe_killed {Q : Bool → Local → Prop} (hu : u.Steady) (hbelow : u.Below (.proc p))
    (hQ : ∀ b w, Learned u w → Q b w) : Safe (killed p) Q u := by
  have hz := Section.holdProc hu hbelow
  apply safe_bind
  apply safe_hold hbelow
  apply safe_bind
  refine safe_load (hz.owns (x := .killed p) rfl).2 ?_
  intro b _
  have hz' := hz.load (x := .killed p) (v := b) rfl
  apply safe_bind
  apply safe_back_proc hu hz'.toInside hbelow.free (hu.settled_hold hbelow.free)
  apply safe_pure
  exact hQ b _ (hz'.learned hu hbelow.free rfl)

theorem safe_setkilled {Q : Unit → Local → Prop} (hu : u.Steady) (hbelow : u.Below (.proc p))
    (hQ : ∀ w, Learned u w → Q () w) : Safe (setkilled p) Q u := by
  have hz := Section.holdProc hu hbelow
  apply safe_bind
  apply safe_hold hbelow
  apply safe_bind
  have hown := (hz.owns (x := .killed p) rfl).1
  apply safe_store (x := .killed p) hown
  have hz' := hz.store (x := .killed p) (v := true) rfl hown
  apply safe_back_proc hu hz'.toInside hbelow.free (hu.settled_hold hbelow.free)
  exact hQ _ (hz'.learned hu hbelow.free rfl)

/-! ## `wakeup` -/

theorem Local.back_awake (hgrip : z.core.grip ch.lock ≠ .free) (hawake : z.awake q ch = true) :
    (u.back z (.proc q)).mon.maybe ch q = false := by
  refine (if_neg (Chan.lock_ne_proc ch q)).trans ?_
  simp [hgrip, hawake]

theorem Local.moves_runnable (hme : z.core.me ≠ .proc q) :
    (z.next (.state q) .sleeping).core.Moves q .runnable := by
  rw [Core.Moves, if_neg (show (z.next (.state q) .sleeping).core.me ≠ .proc q from hme)]
  refine .inl ⟨?_, Function.update_self _ _ _⟩
  simp [Local.next, Core.next, hme]

theorem Core.childAfter_of_ne {u : Core} {st : ProcState} (hst : st ≠ .used)
    (hchild : ∀ b, u.child ≠ some (q, b)) : u.childAfter q st = u.child := by
  have hnot : u.child.map (·.1) ≠ some q := by
    intro heq
    obtain ⟨⟨r, b⟩, hc, rfl⟩ := Option.map_eq_some_iff.1 heq
    exact hchild b hc
  cases st
  case used => exact absurd rfl hst
  all_goals exact if_neg hnot

theorem Local.awake_of_state {st : ProcState} (hst : z.core.state q = some st)
    (hne : st ≠ .sleeping) : z.awake q ch = true := by
  simp only [Local.awake, Bool.or_eq_true, decide_eq_true_eq]
  exact .inl ⟨st, hst, hne⟩

theorem safe_wakeOne {chan : Option Chan} {Q : Unit → Local → Prop} (hu : u.Steady)
    (hbelow : u.Below (.proc q)) (hcproc : u.core.cproc = none)
    (hQ : ∀ w, Learned u w → (∀ ch, chan = some ch → u.core.grip ch.lock ≠ .free →
      u.core.me ≠ .proc q → w.mon.maybe ch q = false) → Q () w) :
    Safe (wakeOne chan q) Q u := by
  apply safe_bind
  apply safe_myproc hu
  by_cases hself : some q = u.core.myproc
  · rw [if_neg (not_not.2 hself)]
    apply safe_pure
    refine hQ u (Learned.refl hu) ?_
    intro ch _ _ hme
    cases hthread : u.core.me with
    | cpu c =>
        rw [Core.myproc_of_cpu hthread, hcproc] at hself
        cases hself
    | proc p =>
        rw [Core.myproc_of_proc hthread] at hself
        cases hself
        exact absurd hthread hme
  rw [if_pos hself]
  have hme : u.core.me ≠ .proc q := by
    intro hme
    exact hself (Core.myproc_of_proc hme).symm
  have hz := Section.holdProc hu hbelow
  have hset := hu.settled_hold hbelow.free
  have hdone : ∀ z, Section (.proc q) u z → z.core.child = u.core.child → z.Settled q →
      (∀ ch, chan = some ch → z.awake q ch = true) → Safe (release (.proc q)) Q z := by
    intro z hz hchild hset hawake
    apply safe_back_proc hu hz.toInside hbelow.free hset
    refine hQ _ (hz.learned hu hbelow.free hchild) ?_
    intro ch hch hgrip _
    refine Local.back_awake ?_ (hawake ch hch)
    rwa [hz.grip_of_ne (Chan.lock_ne_proc ch q)]
  apply safe_bind
  apply safe_hold hbelow
  apply safe_bind
  refine safe_getState hz.held ?_
  intro st hst hused
  have hset' := hset.getState hst
  have hz' := hz.getState st
  generalize hz₁ : (u.hold (.proc q)).next (.state q) st = z₁ at hset' hz' ⊢
  have hknown : z₁.core.state q = some st := by
    rw [← hz₁]
    exact Function.update_self _ _ _
  have hchild : z₁.core.child = u.core.child := by
    rw [← hz₁]
    rfl
  by_cases hsleeping : st = .sleeping
  · rw [if_pos hsleeping]
    apply safe_bind
    refine safe_load (hz'.owns (x := .chan q) rfl).2 ?_
    intro on _
    have hz'' := hz'.load (x := .chan q) (v := on) rfl
    by_cases hchan : on = chan
    · rw [if_pos hchan]
      have hnot : ∀ b, u.core.child ≠ some (q, b) := by
        intro b hb
        rw [hused b hb] at hsleeping
        cases hsleeping
      have hmoves : z₁.core.Moves q .runnable := by
        rw [← hz₁, hsleeping]
        exact Local.moves_runnable hme
      have hpre : Local.Pre ⟨z₁.core, z₁.loadMon (.chan q) on⟩ (.setState q .runnable) :=
        fun heq => absurd heq (by rwa [hz'.me])
      apply safe_bind
      refine safe_setState hz''.held hmoves hpre ?_
      refine hdone _ (hz''.setState _ (by simp) hpre) ?_
        (Local.Settled.setState (by rwa [hz''.me]) (by simp)) ?_
      · refine Eq.trans ?_ hchild
        exact (if_neg (by rwa [hz'.me])).trans
          (Core.childAfter_of_ne (by simp) (by rwa [hchild]))
      · exact fun ch _ => Local.awake_of_state (Function.update_self _ _ _) (by simp)
    · rw [if_neg hchan]
      refine hdone _ hz'' hchild hset' ?_
      rintro ch rfl
      simp only [Local.awake, Bool.or_eq_true, decide_eq_true_eq]
      exact .inr ⟨on, Local.loadMon_mem_self (hz'.owns (x := .chan q) rfl).1, hchan⟩
  · rw [if_neg hsleeping]
    exact hdone _ hz' hchild hset' fun ch _ => Local.awake_of_state hknown hsleeping

theorem safe_wakeup {chan : Option Chan} {Q : Unit → Local → Prop} (hu : u.Steady)
    (hbelow : ∀ q, u.Below (.proc q)) (hcproc : u.core.cproc = none)
    (hQ : ∀ w, Learned u w → (∀ ch, chan = some ch → u.core.grip ch.lock ≠ .free →
      ∀ q < NPROC, u.core.me ≠ .proc q → w.mon.maybe ch q = false) → Q () w) :
    Safe (wakeup chan) Q u := by
  apply Routine.wp_forM rules_monotone fun rest w => Learned u w ∧
    ∀ ch, chan = some ch → u.core.grip ch.lock ≠ .free →
      ∀ q < NPROC, u.core.me ≠ .proc q → q ∉ rest → w.mon.maybe ch q = false
  case hstart =>
      refine ⟨Learned.refl hu, ?_⟩
      intro ch _ _ q hq _ hnot
      exact absurd (List.mem_range.2 hq) hnot
  case hturn =>
      rintro q rest w ⟨hw, hdone⟩
      refine safe_wakeOne hw.steady (hw.below (hbelow q)) (by rw [hw.core, hcproc]) ?_
      intro w' hw' hq
      refine ⟨hw.trans hw', ?_⟩
      intro ch hch hgrip r hr hme hnot
      by_cases hrq : r = q
      · subst hrq
        exact hq ch hch (by rwa [hw.core]) (by rwa [hw.core])
      · have hbefore := hdone ch hch hgrip r hr hme (by simp [hrq, hnot])
        by_contra hmay
        rw [hw'.maybe ch r (by simpa using hmay)] at hbefore
        cases hbefore
  case hend =>
      rintro w ⟨hw, hdone⟩
      exact hQ w hw fun ch hch hgrip q hq hme => hdone ch hch hgrip q hq hme (by simp)

/-! ## `kill` -/

theorem safe_killFrom {pid : Nat} {ps : List Nat} {Q : Int → Local → Prop} (hu : u.Top p)
    (hQ : ∀ n w, w.Top p → Q n w) : Safe (killFrom pid ps) Q u := by
  induction ps generalizing u with
  | nil => exact hQ _ u hu
  | cons q ps ih =>
      have hbelow : u.Below (.proc q) := hu.below
      have hz := Inside.hold hu.steady (hu.free (.proc q))
      have hset := hu.steady.settled_hold (hu.free (.proc q))
      have hheld : (u.hold (.proc q)).core.grip (.proc q) ≠ .free := by simp [hz.held]
      apply safe_bind
      apply safe_hold hbelow
      apply safe_bind
      refine safe_load (.inr hheld) ?_
      intro n _
      have hz₁ := hz.of_core (hz.steady.load (x := .pid q) (v := n) (.inr hheld)) rfl
      split
      case isFalse =>
          apply safe_bind
          apply safe_back_proc hu.steady hz₁ (hu.free _) hset
          apply ih
          apply hu.back hz₁ hu.child
          intro j
          rw [Local.loadMon_sleeps]
          exact hu.sleeps j
      case isTrue =>
          apply safe_bind
          refine safe_store (x := .killed q) hheld ?_
          have hz₂ := hz₁.of_core (hz₁.steady.store (x := .killed q) (v := true) hheld) rfl
          have hsleeps : ∀ j, (Local.storeMon ⟨(u.hold (.proc q)).core,
              (u.hold (.proc q)).loadMon (.pid q) n⟩ (.killed q) true).sleeps j = false := by
            intro j
            simp only [Local.storeMon, Local.loadMon_sleeps]
            exact hu.sleeps j
          apply safe_bind
          refine safe_getState hz₂.held ?_
          intro st hst _
          have hz₃ := hz₂.getState st
          split
          case isFalse =>
              apply safe_bind
              apply safe_back_proc hu.steady hz₃ (hu.free _) (hset.getState hst)
              exact hQ 0 _ (hu.back hz₃ hu.child hsleeps)
          case isTrue hsleeping =>
              subst hsleeping
              have hme : u.core.me ≠ .proc q := by
                intro hme
                cases hst _ (hset.1 hme)
              have hz₄ := hz₃.setState .runnable fun heq => absurd heq hme
              apply safe_bind
              refine safe_setState hz₃.held (Local.moves_runnable hme)
                (fun heq => absurd heq hme) ?_
              apply safe_bind
              refine safe_back_proc hu.steady hz₄ (hu.free _)
                (Local.Settled.setState hme (by simp)) ?_
              refine hQ 0 _ (hu.back hz₄ ?_ hsleeps)
              refine (if_neg hme).trans ((Core.childAfter_of_ne (by simp) ?_).trans hu.child)
              intro b hb
              have hnone := hb.symm.trans hu.child
              cases hnone

theorem safe_kill {pid : Nat} {Q : Int → Local → Prop} (hu : u.Top p)
    (hQ : ∀ n w, w.Top p → Q n w) : Safe (kill pid) Q u :=
  safe_killFrom hu hQ

/-! ## Giving up the CPU -/

/-- `p` after it was away. -/
def Local.switched (z : Local) (p : Nat) (intena : Bool) : Local :=
  ⟨{ z.core with
      intena := some intena
      prev := none
      state := Function.update z.core.state p (some .running) },
    { z.mon with mem := z.forget (.proc p), going := fun _ => false }⟩

/-- The bits of `sstatus` are not kept while `p` is away. -/
def Local.resumed (u : Local) : Local := ⟨{ u.core with prev := none }, u.mon⟩

theorem Local.next_state_self {st : ProcState} (hme : z.core.me = .proc p)
    (hst : z.core.state p = some st) : z.next (.state p) st = z := by
  have hstate : Function.update z.core.state p (some st) = z.core.state := by
    rw [← hst, Function.update_eq_self]
  have hidle : (if z.core.me = .proc p ∨ st = .running then z.core.idle
      else Function.update z.core.idle p true) = z.core.idle := if_pos (.inl hme)
  simp only [Local.next, Core.next, Local.nextMon, hstate, hidle]

theorem Local.not_leaves (j : Nat) : ¬ z.Leaves (.proc p) j := fun h => by cases h.1

theorem safe_sched (st : ProcState) {Q : Unit → Local → Prop} (hz : z.Steady)
    (hme : z.core.me = .proc p) (hnoff : z.core.noff = 1) (honly : z.core.Only p)
    (hst : z.core.state p = some st)
    (hmoves : st = .runnable ∨ st = .sleeping ∨ st = .zombie ∧ z.core.child = none)
    (hsleeps : st = .zombie → ∀ k, z.mon.sleeps k = false)
    (hQ : st ≠ .zombie → ∀ b, (∀ b', z.core.intena = some b' → b = b') →
      Q () (z.switched p b)) : Safe sched Q z := by
  have hsie : z.core.sie = false := hz.off (by simp [hnoff])
  apply safe_bind
  apply safe_self hz hme
  apply safe_bind
  apply safe_holding hsie
  apply safe_bind
  apply safe_panicIf (by simp [honly.1])
  apply safe_bind
  apply safe_noff hsie
  apply safe_bind
  apply safe_panicIf (by simp [hnoff])
  apply safe_bind
  refine safe_getState honly.1 ?_
  intro st' hst' _
  cases hst' st hst
  rw [Local.next_state_self hme hst]
  apply safe_bind
  apply safe_panicIf (by obtain rfl | rfl | ⟨rfl, -⟩ := hmoves <;> simp)
  apply safe_bind
  apply safe_intrGet
  apply safe_bind
  apply safe_panicIf hsie
  apply safe_bind
  apply safe_intena hsie
  intro b hb
  rw [if_neg (by simp [hnoff])]
  apply safe_bind
  refine safe_op ⟨p, hme, hnoff, hsie, honly, ?_⟩ ?_ fun _ _ _ hlive => ?_
  · obtain rfl | rfl | ⟨rfl, hchild⟩ := hmoves
    · exact .inl hst
    · exact .inr (.inl hst)
    · exact .inr (.inr ⟨hst, hchild⟩)
  · intro q hq
    have hqp : q = p := by
      by_contra hne
      have hfree := honly.2 (.proc q) (by simpa using hne)
      have hnone : z.core.state q = some .zombie := hq
      rw [(hz.unknown q hfree).1] at hnone
      cases hnone
    subst hqp
    exact hsleeps (Option.some.inj (hst.symm.trans hq))
  · have hne : st ≠ .zombie := by
      rintro rfl
      simp [Local.next, Core.next, Core.parked, Local.withIntena, hme, hst] at hlive
    have heq : (z.withIntena (some b)).next .swtchBack () =
        ⟨{ z.core with
            intena := none
            prev := none
            state := Function.update z.core.state p (some .running) },
          { z.mon with mem := z.forget (.proc p), going := fun _ => false }⟩ := by
      simp [Local.next, Core.next, Core.parked, Local.nextMon, Local.withIntena, hme, hst, hne]
      rfl
    rw [heq]
    exact safe_setIntena hsie (hQ hne b hb)

theorem Local.Steady.switched {b : Bool} (hz : z.Steady) (honly : z.core.Only p)
    (hnoff : z.core.noff = 1) : (z.switched p b).Steady := by
  have hheld : z.core.grip (.proc p) ≠ .free := by simp [honly.1]
  constructor
  case top => exact fun hzero => absurd (hnoff.symm.trans hzero) (by simp)
  case off => exact hz.off
  case prev => exact fun _ => rfl
  case unknown =>
      intro q hq
      have hne : q ≠ p := by
        rintro rfl
        exact hheld hq
      simpa [Local.switched, hne] using hz.unknown q hq
  case mem =>
      intro x k hx hk
      cases hv : (z.switched p b).mon.mem x with
      | none => rfl
      | some v =>
          have hold := (Local.forget_some hv).1
          rw [hz.mem x k hx hk] at hold
          cases hold
  case quiet => exact hz.quiet
  case unseen => exact hz.unseen
  case unspared => exact hz.unspared
  case going => exact fun _ hch => Bool.noConfusion hch

theorem Local.Steady.resumed (hu : u.Steady) : u.resumed.Steady :=
  ⟨hu.top, hu.off, fun _ => rfl, hu.unknown, hu.mem, hu.quiet, hu.unseen, hu.unspared, hu.going⟩

theorem Local.Calm.resumed (hu : u.Calm) : u.resumed = u := by
  have hprev := hu.steady.prev hu.on
  obtain ⟨⟨me, live, noff, intena, sie, prev, grip, cproc, state, idle, child⟩, mon⟩ := u
  simp only at hprev
  rw [hprev]
  rfl

theorem Inside.switched {b : Bool} (hu : u.Steady) (hz : Inside (.proc p) u z)
    (hzero : u.core.noff = 0) (hb : ∀ b', z.core.intena = some b' → b = b') :
    Inside (.proc p) u.resumed (z.switched p b) := by
  have hfree := (hu.top hzero).1
  have honly : z.core.Only p := ⟨hz.held, fun k hk => (hz.grip_of_ne hk).trans (hfree k)⟩
  have hnoff : z.core.noff = 1 := by rw [hz.noff, hzero]
  constructor
  case steady => exact hz.steady.switched honly hnoff
  case core =>
      have hsie : b = u.core.sie := by
        apply hb
        rw [hz.intena, if_pos hzero]
      simp only [Local.switched]
      rw [hz.core, hsie]
      simp [Local.hold, Local.pushed, Local.regs, Local.resumed, Core.locked, hzero]
  case state =>
      intro q hq
      exact (Function.update_of_ne (Inside.ne_of_ne hq) _ _).trans (hz.state q hq)
  case idle => exact hz.idle

theorem Core.moves_own {u : Core} {st : ProcState} (hme : u.me = .proc p)
    (hrunning : u.state p = some .running)
    (hst : st = .runnable ∨ st = .sleeping ∨ st = .zombie) : u.Moves p st := by
  unfold Core.Moves
  rw [if_pos hme]
  exact ⟨hrunning, hst⟩

theorem Local.Settled.not_idle (hz : z.Settled p) (hrunning : z.core.state p = some .running) :
    z.core.idle p = false := by
  by_contra hne
  obtain ⟨st, hst, hnot⟩ := hz.2 (by simpa using hne)
  exact hnot (Option.some.inj (hst.symm.trans hrunning))

theorem safe_yield {Q : Unit → Local → Prop} (hu : u.Steady) (hme : u.core.me = .proc p)
    (hzero : u.core.noff = 0) (hQ : Q () u.resumed) : Safe yield Q u := by
  have hfree := (hu.top hzero).1
  have hz := Inside.hold hu (hfree (.proc p))
  have hset := hu.settled_hold (hfree (.proc p))
  apply safe_bind
  apply safe_self hu hme
  apply safe_bind
  apply safe_hold (Local.Below.of_free hfree)
  apply safe_bind
  have hpre : (u.hold (.proc p)).Pre (.setState p .runnable) := fun _ => ⟨by simp, by simp⟩
  refine safe_setState hz.held (Core.moves_own hme (hset.1 hme) (.inl rfl)) hpre ?_
  have hz₁ := hz.setState _ hpre
  have hchild : ((u.hold (.proc p)).next (.setState p .runnable) ()).core.child = u.core.child :=
    if_pos hme
  apply safe_bind
  refine safe_sched .runnable hz₁.steady (hz₁.me.trans hme) (by rw [hz₁.noff, hzero]) ?_
    (Function.update_self _ _ _) (.inl rfl) (by simp) fun _ b hb => ?_
  · exact ⟨hz₁.held, fun k hk => (hz₁.grip_of_ne hk).trans (hfree k)⟩
  · have hz₂ := hz₁.switched hu hzero hb
    have hidle := hset.not_idle (hset.1 hme)
    refine safe_back_proc hu.resumed hz₂ (hfree _) ⟨fun _ => Function.update_self _ _ _, ?_⟩ ?_
    · exact fun hidle' => absurd (hidle.symm.trans hidle') (by simp)
    · rw [hz₂.back_eq hu.resumed hfree hchild]
      · exact hQ
      · intro x hx
        exact Local.forget_private hx Local.not_leaves
      · rfl
      · exact Local.not_leaves

/-- `sleep` from where it has given up the lock of its channel. -/
theorem safe_doze {Q : Unit → Local → Prop} (hv : v.Calm) (hme : v.core.me = .proc p)
    (hz : Inside (.proc p) v z) (hset : z.Settled p)
    (hchild : z.core.child = v.core.child) (hgoing : z.mon.going ch = true)
    (hmem : ∀ x, x.lock = none → z.mon.mem x = v.mon.mem x)
    (hsleeps : z.mon.sleeps = v.mon.sleeps) (hQ : Q () (v.hold ch.lock)) :
    Safe (do
      store (.chan p) (some ch)
      setState p .sleeping
      sched
      store (.chan p) none
      release (.proc p)
      acquire ch.lock) Q z := by
  have hrunning := hset.1 (hz.me.trans hme)
  have hidle := hset.not_idle hrunning
  have hheld : z.core.grip (.proc p) ≠ .free := by simp [hz.held]
  -- the channel is set
  have hw₁ : z.Writes (.chan p) (some ch) := ⟨hheld, .running, hrunning, by simp⟩
  apply safe_bind
  refine safe_store (x := .chan p) hw₁ ?_
  have hz₁ := hz.of_core (hz.steady.store hw₁) rfl
  generalize hu₁ : Local.mk z.core (z.storeMon (.chan p) (some ch)) = u₁ at hz₁ ⊢
  have hstate₁ : u₁.core.state p = some .running := by rwa [← hu₁]
  have hchan₁ : u₁.mon.mem (.chan p) = some (some ch) := by
    rw [← hu₁]
    exact Local.storeMon_mem_self hw₁ hheld
  have hgoing₁ : u₁.mon.going ch = true := by rwa [← hu₁]
  have hmem₁ : ∀ x, x.lock = none → u₁.mon.mem x = v.mon.mem x := by
    intro x hx
    have hne : x ≠ .chan p := by
      rintro rfl
      cases hx
    rw [← hmem x hx, ← hu₁]
    exact Local.storeMon_mem_of_ne hw₁ hne
  -- asleep
  have hpre : u₁.Pre (.setState p .sleeping) := fun _ => ⟨fun _ => ⟨ch, hchan₁, hgoing₁⟩, by simp⟩
  apply safe_bind
  refine safe_setState hz₁.held
    (Core.moves_own (hz₁.me.trans hme) hstate₁ (.inr (.inl rfl))) hpre ?_
  have hz₂ := hz₁.setState _ hpre
  have hchild₂ : (u₁.next (.setState p .sleeping) ()).core.child = v.core.child := by
    rw [← hchild]
    refine (if_pos (hz₁.me.trans hme)).trans ?_
    rw [← hu₁]
  apply safe_bind
  refine safe_sched .sleeping hz₂.steady (hz₂.me.trans hme) (by rw [hz₂.noff, hv.noff])
    ⟨hz₂.held, fun k hk => (hz₂.grip_of_ne hk).trans (hv.free k)⟩ (Function.update_self _ _ _)
    (.inr (.inl rfl)) (by simp) fun _ b hb => ?_
  -- awake again
  have hz₃ := hz₂.switched hv.steady hv.noff hb
  rw [hv.resumed] at hz₃
  have hstate₃ : ((u₁.next (.setState p .sleeping) ()).switched p b).core.state p =
      some .running := Function.update_self _ _ _
  have hw₃ : ((u₁.next (.setState p .sleeping) ()).switched p b).Writes (.chan p) none :=
    ⟨by simp [hz₃.held], .running, hstate₃, by simp⟩
  apply safe_bind
  refine safe_store (x := .chan p) hw₃ ?_
  have hz₄ := hz₃.of_core (hz₃.steady.store hw₃) rfl
  apply safe_bind
  refine safe_back_proc hv.steady hz₄ (hv.free _) ⟨fun _ => hstate₃, ?_⟩ ?_
  · intro hidle'
    have hidle₁ : u₁.core.idle p = true := hidle'
    rw [← hu₁] at hidle₁
    cases hidle.symm.trans hidle₁
  rw [hz₄.back_eq hv.steady hv.free hchild₂]
  · exact safe_hold hv.below hQ
  · intro x hx
    have hne : x ≠ .chan p := by
      rintro rfl
      cases hx
    rw [← hmem₁ x hx]
    exact (Local.storeMon_mem_of_ne hw₃ hne).trans
      (Local.forget_private (k := .proc p) hx Local.not_leaves)
  · rw [← hsleeps]
    refine Eq.trans (b := u₁.mon.sleeps) rfl ?_
    rw [← hu₁]
    rfl
  · exact Local.not_leaves

/-- What a process sleeps for is false, and it leaves nothing undone under the lock. -/
theorem safe_sleep (ch : Chan) {Q : Unit → Local → Prop} (hv : v.Calm) (hme : v.core.me = .proc p)
    (hu : Inside ch.lock v u) (hchild : u.core.child = v.core.child)
    (hmem : ∀ x, x.lock = none → u.mon.mem x = v.mon.mem x)
    (hsleeps : u.mon.sleeps = v.mon.sleeps)
    (hstale : ∀ ch', ch'.lock = ch.lock → u.mon.stale ch' = false)
    (hblocked : u.blocked p ch = true) (hQ : Q () (v.hold ch.lock)) :
    Safe (sleep ch ch.lock) Q u := by
  have hne : ch.lock ≠ .proc p := Chan.lock_ne_proc ch p
  have hrank : ch.lock.rank < (Lock.proc p).rank := by cases ch <;> simp [Chan.lock, Lock.rank]
  have hbelow : u.Below (.proc p) := hu.below hv.below hrank
  have hz₀ := hu.swap (Ne.symm hne) hbelow.free
  have hv₀ : (v.hold (.proc p)).Steady := hv.steady.hold (hv.free _)
  have hfree₀ : (v.hold (.proc p)).core.grip ch.lock = .free := Local.hold_free hne (hv.free _)
  have hleaves : ∀ j, ¬ (u.hold (.proc p)).Leaves ch.lock j := by
    rintro j ⟨hlock, hfalse⟩
    cases ch with
    | ticks => cases hlock
    | proc q => cases hlock
    | sleep k =>
        cases hlock
        have htrue : u.mon.mem (.sleepLocked j) = some true := by
          simpa [Local.blocked] using hblocked
        cases htrue.symm.trans hfalse
  apply safe_bind
  apply safe_self hu.steady (hu.me.trans hme)
  apply safe_bind
  apply safe_hold hbelow
  apply safe_bind
  refine safe_back hv₀ hz₀ hfree₀ ?_ ?_ ?_
  · exact fun q hq => absurd hq (Chan.lock_ne_proc ch q)
  · exact fun ch' hch' hst => absurd ((hstale ch' hch').symm.trans hst) (by simp)
  have hz₁ : Inside (.proc p) v ((v.hold (.proc p)).back (u.hold (.proc p)) ch.lock) :=
    (Inside.hold hv.steady (hv.free _)).of_core (hz₀.back_steady hv₀ hfree₀) rfl
  have hgoing : ((v.hold (.proc p)).back (u.hold (.proc p)) ch.lock).mon.going ch = true := by
    have hmez : (u.hold (.proc p)).core.me = .proc p := hu.me.trans hme
    have hstate : (u.hold (.proc p)).core.state p = some .running := if_pos ⟨rfl, hmez⟩
    have hheld : (u.hold (.proc p)).core.grip (.proc p) ≠ .free := by simp [Local.hold]
    have hblocked' : (u.hold (.proc p)).blocked p ch = true := hblocked
    simp [Local.back, Local.unlockMon, hmez, hne, hheld, hstate, hblocked']
  have hmem₁ : ∀ x, x.lock = none →
      ((v.hold (.proc p)).back (u.hold (.proc p)) ch.lock).mon.mem x = v.mon.mem x := by
    intro x hx
    exact (Local.forget_private hx hleaves).trans (hmem x hx)
  have hsleeps₁ : ((v.hold (.proc p)).back (u.hold (.proc p)) ch.lock).mon.sleeps =
      v.mon.sleeps := by
    funext j
    rw [← hsleeps]
    simp [Local.back, Local.unlockMon, hleaves j]
    rfl
  exact safe_doze hv hme hz₁ (hv.steady.settled_hold (hv.free _)) hchild hgoing hmem₁ hsleeps₁ hQ

end SyscallSched.Xv6.Smp
