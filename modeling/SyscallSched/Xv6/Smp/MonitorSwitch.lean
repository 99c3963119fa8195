import SyscallSched.Xv6.Smp.MonitorStore

/-!
# Changes of state and switches keep what is known of the sleepers
-/

namespace SyscallSched.Xv6.Smp

variable {s : State} {l l' : Thread → Local} {c : Nat}

theorem owns_iff {u w : Local} (hme : w.core.me = u.core.me)
    (hgrip : ∀ k, w.core.grip k = .free ↔ u.core.grip k = .free)
    (hsleeps : w.mon.sleeps = u.mon.sleeps) (x : Loc) : w.Owns x ↔ u.Owns x := by
  cases x <;> simp [Local.Owns, hme, hgrip, hsleeps]

/-! ## Changes of state -/

theorem MonInv.setState_other (hm : MonInv s l) (h : Inv s (cores l)) {p : Nat} {st : ProcState}
    (hnot : ¬ s.Running (.proc p)) (hsleep : st ≠ .sleeping) (hzombie : st ≠ .zombie)
    (hused : st = .used → s.state p = .unused)
    (hunused : st = .unused → s.state p = .zombie ∨ s.state p = .used)
    (hme : ∀ j, (l' j).core.me = (l j).core.me) (hgrip : ∀ j, (l' j).core.grip = (l j).core.grip)
    (hmon : ∀ j, (l' j).mon = (l j).mon)
    (hlive : ∀ j, (l' j).core.live = true → (l j).core.live = true)
    (hdies : ∀ j, (l j).core.live = true → (l' j).core.live = true ∨ j = .proc p ∧ st = .unused) :
    MonInv (s.setState p st) l' := by
  have howns : ∀ j x, (l' j).Owns x ↔ (l j).Owns x := by
    intro j x
    exact owns_iff (hme j) (by simp [hgrip]) (by rw [hmon]) x
  have hpending : ∀ q ch, Pending (s.setState p st) l' q ch → Pending s l q ch := by
    rintro q ch (⟨hst, hch⟩ | ⟨hlq, hg⟩)
    · have hq : q ≠ p := by
        rintro rfl
        rw [setState_self] at hst
        exact hsleep hst
      rw [setState_of_ne hq] at hst
      exact .inl ⟨hst, hch⟩
    · rw [hmon] at hg
      exact .inr ⟨hlive _ hlq, hg⟩
  have hzombies : ∀ q, (s.setState p st).state q = .zombie → s.state q = .zombie := by
    intro q hq
    have hqp : q ≠ p := by
      rintro rfl
      rw [setState_self] at hq
      exact hzombie hq
    rwa [setState_of_ne hqp] at hq
  have hblocked : ∀ q ch, Blocked s q ch → Blocked (s.setState p st) q ch := by
    intro q ch hb
    cases ch with
    | ticks => exact hb
    | proc p' => exact ⟨hb.1, fun pp hpp hz => hb.2 pp hpp (hzombies pp hz)⟩
    | sleep k => exact hb
  -- the thread that ends holds no sleep-lock
  have hstay : ∀ j k, (l j).core.live = true → (l j).mon.sleeps k = true →
      (l' j).core.live = true := by
    intro j k hlj hs
    obtain hlj' | ⟨rfl, hst⟩ := hdies j hlj
    · exact hlj'
    · obtain hz | hu := hunused hst
      · have hrest := h.resting p hnot
        rw [hz] at hrest
        rw [show (l (.proc p)).core.live = false from hrest] at hlj
        cases hlj
      · rw [hm.fresh p hu hlj] at hs
        cases hs
  constructor
  case know =>
      intro j x w hlj hw
      rw [hmon] at hw
      rw [howns]
      exact hm.know j x w (hlive j hlj) hw
  case normal =>
      intro j ch hlj hg
      rw [hgrip] at hg
      rw [hmon]
      exact hm.normal j ch (hlive j hlj) hg
  case unseen =>
      intro j q hlj hg
      rw [hgrip] at hg
      rw [hmon]
      exact hm.unseen j q (hlive j hlj) hg
  case going =>
      intro j ch hlj hg
      rw [hmon] at hg
      rw [hgrip]
      exact hm.going j ch (hlive j hlj) hg
  case dozing =>
      intro q hq hst
      have hqp : q ≠ p := by
        rintro rfl
        exact hnot hq
      rw [setState_of_ne hqp] at hst
      rw [hmon]
      exact hm.dozing q hq hst
  case owner =>
      intro k hk
      obtain ⟨j, hlj, hs⟩ := hm.owner k hk
      exact ⟨j, hstay j k hlj hs, by rwa [hmon]⟩
  case owned =>
      intro j k hlj hs
      rw [hmon] at hs ⊢
      rw [hgrip]
      exact hm.owned j k (hlive j hlj) hs
  case one =>
      intro j j' k hlj hlj' hs hs'
      rw [hmon] at hs hs'
      exact hm.one j j' k (hlive j hlj) (hlive j' hlj') hs hs'
  case fresh =>
      intro q hst hlq
      rw [hmon]
      by_cases hqp : q = p
      · subst hqp
        rw [setState_self] at hst
        have hrest := h.resting q hnot
        rw [hused hst] at hrest
        have hdead := hlive _ hlq
        rw [show (l (.proc q)).core.live = false from hrest] at hdead
        cases hdead
      · rw [setState_of_ne hqp] at hst
        exact hm.fresh q hst (hlive _ hlq)
  case seen =>
      intro p' q hp hs hand
      rw [hmon] at hs
      exact hm.seen p' q hp hs ⟨hand.1, hzombies q hand.2⟩
  case monitor =>
      intro q ch hp hu
      apply hblocked
      apply hm.monitor q ch (hpending q ch hp)
      intro j hj
      rw [← hgrip]
      exact hu j hj
  case watched =>
      intro q ch j hp hrj hg
      rw [hgrip] at hg
      rw [hmon]
      obtain ⟨hmay, hbl⟩ := hm.watched q ch j (hpending q ch hp) hrj hg
      exact ⟨hmay, fun hs => hblocked q ch (hbl hs)⟩

/-- The process `p`, which runs, sets its own state to `st`. -/
structure RestatesOwn (s : State) (l l' : Thread → Local) (p : Nat) (st : ProcState) : Prop where
  inv : Inv s (cores l)
  mon : MonInv s l
  running : s.Running (.proc p)
  other : ∀ j, j ≠ .proc p → l' j = l j
  me : (l' (.proc p)).core.me = (l (.proc p)).core.me
  live : (l' (.proc p)).core.live = (l (.proc p)).core.live
  grip : (l' (.proc p)).core.grip = (l (.proc p)).core.grip
  mem : (l' (.proc p)).mon.mem = (l (.proc p)).mon.mem
  maybe : (l' (.proc p)).mon.maybe = (l (.proc p)).mon.maybe
  going : (l' (.proc p)).mon.going = (l (.proc p)).mon.going
  sleeps : (l' (.proc p)).mon.sleeps = (l (.proc p)).mon.sleeps
  seen : ∀ q, (l' (.proc p)).mon.seen q = true →
    (l (.proc p)).mon.seen q = true ∧ (st = .zombie → q ≠ p)
  stale : ∀ ch, (l' (.proc p)).mon.stale ch = true ↔ (l (.proc p)).mon.stale ch = true ∨
    st = .zombie ∧ ∃ q, ch = .proc q ∧ s.mem (.parent p) = some q
  used : st ≠ .used
  dozes : st = .sleeping → ∃ ch, (l (.proc p)).mon.mem (.chan p) = some (some ch) ∧
    (l (.proc p)).mon.going ch = true
  waits : st = .zombie → (l (.proc p)).core.grip .wait ≠ .free

namespace RestatesOwn

variable {p : Nat} {st : ProcState} (hs : RestatesOwn s l l' p st)

include hs

theorem view {β : Type} (f : Local → β) (hf : f (l' (.proc p)) = f (l (.proc p))) (j : Thread) :
    f (l' j) = f (l j) := by
  by_cases hj : j = .proc p
  · rw [hj, hf]
  · rw [hs.other j hj]

theorem live_eq (j : Thread) : (l' j).core.live = (l j).core.live := hs.view (·.core.live) hs.live j

theorem grip_eq (j : Thread) : (l' j).core.grip = (l j).core.grip := hs.view (·.core.grip) hs.grip j

theorem mem_eq (j : Thread) : (l' j).mon.mem = (l j).mon.mem := hs.view (·.mon.mem) hs.mem j

theorem maybe_eq (j : Thread) : (l' j).mon.maybe = (l j).mon.maybe :=
  hs.view (·.mon.maybe) hs.maybe j

theorem going_eq (j : Thread) : (l' j).mon.going = (l j).mon.going :=
  hs.view (·.mon.going) hs.going j

theorem sleeps_eq (j : Thread) : (l' j).mon.sleeps = (l j).mon.sleeps :=
  hs.view (·.mon.sleeps) hs.sleeps j

theorem owns (j : Thread) (x : Loc) : (l' j).Owns x ↔ (l j).Owns x :=
  owns_iff (hs.view (·.core.me) hs.me j) (by simp [hs.grip_eq]) (hs.sleeps_eq j) x

theorem going_of_sleeping (hst : st = .sleeping) :
    ∃ ch, s.mem (.chan p) = some ch ∧ (l (.proc p)).mon.going ch = true := by
  obtain ⟨ch, hch, hg⟩ := hs.dozes hst
  exact ⟨ch, (hs.mon.know _ _ _ (hs.inv.live_of_running hs.running) hch).2.2, hg⟩

theorem pending {q : Nat} {ch : Chan} (hp : Pending (s.setState p st) l' q ch) :
    Pending s l q ch := by
  obtain ⟨hst, hch⟩ | ⟨hlive, hg⟩ := hp
  · by_cases hq : q = p
    · subst hq
      rw [setState_self] at hst
      obtain ⟨ch', hch', hg⟩ := hs.going_of_sleeping hst
      rw [setState_mem, hch'] at hch
      exact .inr ⟨hs.inv.live_of_running hs.running, Option.some.inj hch ▸ hg⟩
    · rw [setState_of_ne hq] at hst
      exact .inl ⟨hst, hch⟩
  · rw [hs.live_eq] at hlive
    rw [hs.going_eq] at hg
    exact .inr ⟨hlive, hg⟩

omit hs in
theorem zombie_cases {q : Nat} (hq : (s.setState p st).state q = .zombie) :
    s.state q = .zombie ∨ q = p ∧ st = .zombie := by
  by_cases hqp : q = p
  · subst hqp
    rw [setState_self] at hq
    exact .inr ⟨rfl, hq⟩
  · rw [setState_of_ne hqp] at hq
    exact .inl hq

omit hs in
theorem blocked {q : Nat} {ch : Chan} (hb : Blocked s q ch)
    (hno : ¬ (st = .zombie ∧ ∃ q, ch = .proc q ∧ s.mem (.parent p) = some q)) :
    Blocked (s.setState p st) q ch := by
  cases ch with
  | ticks => exact hb
  | proc p' =>
      refine ⟨hb.1, ?_⟩
      intro pp hpp hz
      obtain hz | ⟨rfl, hst⟩ := zombie_cases hz
      · exact hb.2 pp hpp hz
      · exact hno ⟨hst, p', rfl, hpp⟩
  | sleep k => exact hb

/-! One field of the invariant at a time. -/

theorem inv_normal (j : Thread) (ch : Chan) (hlive : (l' j).core.live = true)
    (hg : (l' j).core.grip ch.lock = .free) :
    (l' j).mon.stale ch = false ∧ ∀ q, (l' j).mon.maybe ch q = true := by
  rw [hs.live_eq] at hlive
  rw [hs.grip_eq] at hg
  rw [hs.maybe_eq]
  obtain ⟨hfresh, hmaybe⟩ := hs.mon.normal j ch hlive hg
  refine ⟨?_, hmaybe⟩
  by_cases hj : j = .proc p
  · subst hj
    rw [← Bool.not_eq_true, hs.stale]
    rintro (hstale | ⟨hst, q, rfl, -⟩)
    · rw [hfresh] at hstale
      cases hstale
    · exact hs.waits hst hg
  · rwa [hs.other j hj]

theorem inv_unseen (j : Thread) (q : Nat) (hlive : (l' j).core.live = true)
    (hg : (l' j).core.grip .wait = .free) : (l' j).mon.seen q = false := by
  rw [hs.live_eq] at hlive
  rw [hs.grip_eq] at hg
  have hold := hs.mon.unseen j q hlive hg
  by_cases hj : j = .proc p
  · subst hj
    rw [← Bool.not_eq_true]
    intro hseen
    rw [(hs.seen q hseen).1] at hold
    cases hold
  · rwa [hs.other j hj]

theorem inv_dozing (q : Nat) (hq : s.Running (.proc q))
    (hst : (s.setState p st).state q = .sleeping) :
    ∃ ch, s.mem (.chan q) = some ch ∧ (l' (.proc q)).mon.going ch = true := by
  rw [hs.going_eq]
  by_cases hqp : q = p
  · subst hqp
    rw [setState_self] at hst
    exact hs.going_of_sleeping hst
  · rw [setState_of_ne hqp] at hst
    exact hs.mon.dozing q hq hst

theorem inv_fresh (q : Nat) (hst : (s.setState p st).state q = .used)
    (hlive : (l' (.proc q)).core.live = true) : (l' (.proc q)).mon = Mon.fresh := by
  have hqp : q ≠ p := by
    rintro rfl
    rw [setState_self] at hst
    exact hs.used hst
  rw [setState_of_ne hqp] at hst
  rw [hs.other _ fun heq => hqp (Thread.proc.inj heq)] at hlive ⊢
  exact hs.mon.fresh q hst hlive

theorem inv_seen (p' q : Nat) (hp : s.Running (.proc p'))
    (hseen : (l' (.proc p')).mon.seen q = true) :
    ¬ (s.mem (.parent q) = some p' ∧ (s.setState p st).state q = .zombie) := by
  rintro ⟨hparent, hzombie⟩
  have hold : (l (.proc p')).mon.seen q = true ∧ (p' = p → st = .zombie → q ≠ p) := by
    by_cases hpp : p' = p
    · subst hpp
      exact ⟨(hs.seen q hseen).1, fun _ => (hs.seen q hseen).2⟩
    · rw [hs.other _ fun heq => hpp (Thread.proc.inj heq)] at hseen
      exact ⟨hseen, fun heq => absurd heq hpp⟩
  obtain hz | ⟨rfl, hst⟩ := zombie_cases hzombie
  · exact hs.mon.seen p' q hp hold.1 ⟨hparent, hz⟩
  · -- the one that has seen `q` holds `wait_lock`, as does `q` itself
    have hne : (l (.proc p')).core.grip .wait ≠ .free := by
      intro hfree
      rw [hs.mon.unseen _ _ (hs.inv.live_of_running hp) hfree] at hold
      cases hold.1
    have heq := hs.inv.same hp hs.running hne (hs.waits hst)
    exact hold.2 (Thread.proc.inj heq) hst rfl

theorem inv_monitor (q : Nat) (ch : Chan) (hp : Pending (s.setState p st) l' q ch)
    (hu : Unheld (s.setState p st) l' ch.lock) : Blocked (s.setState p st) q ch := by
  have hu' : Unheld s l ch.lock := by
    intro j hj
    rw [← hs.grip_eq]
    exact hu j hj
  apply blocked (hs.mon.monitor q ch (hs.pending hp) hu')
  rintro ⟨hst, q', rfl, -⟩
  exact hs.waits hst (hu' _ hs.running)

theorem inv_watched (q : Nat) (ch : Chan) (j : Thread)
    (hp : Pending (s.setState p st) l' q ch) (hrun : s.Running j)
    (hg : (l' j).core.grip ch.lock ≠ .free) : (l' j).mon.maybe ch q = true ∧
      ((l' j).mon.stale ch = false → Blocked (s.setState p st) q ch) := by
  rw [hs.grip_eq] at hg
  rw [hs.maybe_eq]
  obtain ⟨hmaybe, hbl⟩ := hs.mon.watched q ch j (hs.pending hp) hrun hg
  refine ⟨hmaybe, ?_⟩
  intro hfresh
  by_cases hj : j = .proc p
  · subst hj
    have hno := mt (hs.stale ch).2 (by rw [hfresh]; simp)
    rw [not_or, Bool.not_eq_true] at hno
    exact blocked (hbl hno.1) hno.2
  · rw [hs.other j hj] at hfresh
    apply blocked (hbl hfresh)
    rintro ⟨hst, q', rfl, -⟩
    exact hj (hs.inv.same hrun hs.running hg (hs.waits hst))

end RestatesOwn

theorem MonInv.setState_own {p : Nat} {st : ProcState} (hs : RestatesOwn s l l' p st) :
    MonInv (s.setState p st) l' := by
  have hm := hs.mon
  constructor
  case know =>
      simpa only [hs.live_eq, hs.mem_eq, hs.owns, setState_running, setState_mem] using hm.know
  case normal => exact hs.inv_normal
  case unseen => exact hs.inv_unseen
  case going => simpa only [hs.live_eq, hs.going_eq, hs.grip_eq, setState_running] using hm.going
  case dozing => exact hs.inv_dozing
  case owner => simpa only [hs.live_eq, hs.sleeps_eq, setState_mem] using hm.owner
  case owned =>
      simpa only [hs.live_eq, hs.sleeps_eq, hs.grip_eq, hs.mem_eq, setState_mem, setState_running]
        using hm.owned
  case one => simpa only [hs.live_eq, hs.sleeps_eq] using hm.one
  case fresh => exact hs.inv_fresh
  case seen => exact hs.inv_seen
  case monitor => exact hs.inv_monitor
  case watched => exact hs.inv_watched

theorem MonInv.setContext (hm : MonInv s l) (h : Inv s (cores l)) {p : Nat}
    (hchild : (l (s.cur c)).core.child = some (p, false))
    (hfresh : l' (.proc p) = ⟨Core.fresh p, Mon.fresh⟩)
    (hmon : ∀ j, j ≠ .proc p → (l' j).mon = (l j).mon)
    (hme : ∀ j, j ≠ .proc p → (l' j).core.me = (l j).core.me)
    (hlive : ∀ j, j ≠ .proc p → (l' j).core.live = (l j).core.live)
    (hgrip : ∀ j, j ≠ .proc p → (l' j).core.grip = (l j).core.grip) : MonInv s l' := by
  have hnot := h.not_running_of_child (h.live c) hchild
  have hdead := (h.child _ _ _ (h.live c) hchild).2
  have hrun : ∀ j, s.Running j → j ≠ .proc p := by
    rintro j hj rfl
    exact hnot hj
  have hpending : ∀ q ch, Pending s l' q ch → Pending s l q ch := by
    rintro q ch (hasleep | ⟨hlq, hg⟩)
    · exact .inl hasleep
    · by_cases hqp : q = p
      · subst hqp
        rw [hfresh] at hg
        cases hg
      · have hne : Thread.proc q ≠ .proc p := fun heq => hqp (Thread.proc.inj heq)
        rw [hlive _ hne] at hlq
        rw [hmon _ hne] at hg
        exact .inr ⟨hlq, hg⟩
  have howns : ∀ j, j ≠ .proc p → ∀ x, (l' j).Owns x ↔ (l j).Owns x := by
    intro j hj x
    exact owns_iff (hme j hj) (by simp [hgrip j hj]) (by rw [hmon j hj]) x
  -- a live thread of the old kind
  have hold : ∀ j k, (l j).core.live = true → (l j).mon.sleeps k = true → j ≠ .proc p := by
    rintro j k hlj - rfl
    rw [show (l (.proc p)).core.live = false from hdead] at hlj
    cases hlj
  have hnew : ∀ j k, (l' j).mon.sleeps k = true → j ≠ .proc p := by
    rintro j k hs rfl
    rw [hfresh] at hs
    cases hs
  constructor
  case know =>
      intro j x w hlj hw
      by_cases hj : j = .proc p
      · rw [hj, hfresh] at hw
        cases hw
      · rw [hlive j hj] at hlj
        rw [hmon j hj] at hw
        rw [howns j hj]
        exact hm.know j x w hlj hw
  case normal =>
      intro j ch hlj hg
      by_cases hj : j = .proc p
      · rw [hj, hfresh]
        simp [Mon.fresh]
      · rw [hlive j hj] at hlj
        rw [hgrip j hj] at hg
        rw [hmon j hj]
        exact hm.normal j ch hlj hg
  case unseen =>
      intro j q hlj hg
      by_cases hj : j = .proc p
      · rw [hj, hfresh]
        rfl
      · rw [hlive j hj] at hlj
        rw [hgrip j hj] at hg
        rw [hmon j hj]
        exact hm.unseen j q hlj hg
  case going =>
      intro j ch hlj hg
      by_cases hj : j = .proc p
      · rw [hj, hfresh] at hg
        cases hg
      · rw [hlive j hj] at hlj
        rw [hmon j hj] at hg
        rw [hgrip j hj]
        exact hm.going j ch hlj hg
  case dozing =>
      intro q hq hst
      rw [hmon _ (hrun _ hq)]
      exact hm.dozing q hq hst
  case owner =>
      intro k hk
      obtain ⟨j, hlj, hs⟩ := hm.owner k hk
      have hj := hold j k hlj hs
      exact ⟨j, by rwa [hlive j hj], by rwa [hmon j hj]⟩
  case owned =>
      intro j k hlj hs
      have hj := hnew j k hs
      rw [hlive j hj] at hlj
      rw [hmon j hj] at hs ⊢
      rw [hgrip j hj]
      exact hm.owned j k hlj hs
  case one =>
      intro j j' k hlj hlj' hs hs'
      have hj := hnew j k hs
      have hj' := hnew j' k hs'
      rw [hlive j hj] at hlj
      rw [hlive j' hj'] at hlj'
      rw [hmon j hj] at hs
      rw [hmon j' hj'] at hs'
      exact hm.one j j' k hlj hlj' hs hs'
  case fresh =>
      intro q hst hlq
      by_cases hj : Thread.proc q = .proc p
      · rw [hj, hfresh]
      · rw [hlive _ hj] at hlq
        rw [hmon _ hj]
        exact hm.fresh q hst hlq
  case seen =>
      intro p' q hp hs hand
      rw [hmon _ (hrun _ hp)] at hs
      exact hm.seen p' q hp hs hand
  case monitor =>
      intro q ch hp hu
      apply hm.monitor q ch (hpending q ch hp)
      intro j hj
      rw [← hgrip j (hrun j hj)]
      exact hu j hj
  case watched =>
      intro q ch j hp hrj hg
      rw [hgrip j (hrun j hrj)] at hg
      rw [hmon j (hrun j hrj)]
      exact hm.watched q ch j (hpending q ch hp) hrj hg

/-! ## Switches -/

/-- What is known of memory under the lock of `p` alone outlasts a switch. -/
theorem MonInv.know_forget (hm : MonInv s l) {t : Thread} {p : Nat} {x : Loc} {w : x.Val}
    (hlive : (l t).core.live = true) (honly : (l t).core.Only p)
    (hw : (l t).forget (.proc p) x = some w) :
    (l t).Owns x ∧ x.lock = none ∧ s.mem x = w := by
  obtain ⟨hw, hlock, -⟩ := Local.forget_some hw
  obtain ⟨hown, -, hval⟩ := hm.know t x w hlive hw
  refine ⟨hown, ?_, hval⟩
  have hfree := honly.2
  cases x with
  | pid q => rfl
  | sleepPid k => rfl
  | data k => rfl
  | ticks0 q => rfl
  | tickN q => rfl
  | parent q => exact absurd (hfree .wait (by simp)) hown.2
  | sleepLocked k => exact absurd (hfree (.sleep k) (by simp)) hown
  | ticks => exact absurd (hfree .tick (by simp)) hown
  | nextpid => exact absurd (hfree .pid (by simp)) hown
  | chan q => exact absurd (hfree _ fun heq => hlock (congrArg some heq)) hown
  | killed q => exact absurd (hfree _ fun heq => hlock (congrArg some heq)) hown
  | xstate q => exact absurd (hfree _ fun heq => hlock (congrArg some heq)) hown

theorem Chan.lock_ne_proc (ch : Chan) (p : Nat) : ch.lock ≠ .proc p := by
  cases ch <;> simp [Chan.lock]

/-- The thread `t` leaves its CPU to `r`, each with the lock of `p` alone. -/
structure HandsOver (s s' : State) (l l' : Thread → Local) (t r : Thread) (p : Nat) : Prop where
  inv : Inv s (cores l)
  mon : MonInv s l
  mem : s'.mem = s.mem
  state : s'.state = s.state
  running : s.Running t
  runs : ∀ j, s'.Running j ↔ j = r ∨ j ≠ t ∧ s.Running j
  only : (l t).core.Only p
  only' : (l r).core.Only p
  live' : (l r).core.live = true
  other : ∀ j, j ≠ t → l' j = l j
  me : (l' t).core.me = (l t).core.me
  grip : (l' t).core.grip = (l t).core.grip
  forget : (l' t).mon.mem = (l t).forget (.proc p)
  seen : (l' t).mon.seen = (l t).mon.seen
  maybe : (l' t).mon.maybe = (l t).mon.maybe
  stale : (l' t).mon.stale = (l t).mon.stale
  sleeps : (l' t).mon.sleeps = (l t).mon.sleeps
  going : ∀ ch, (l' t).mon.going ch = false
  ends : (l' t).core.live = true ∨ ∀ k, (l t).mon.sleeps k = false
  used : ∀ q, t = .proc q → s.state q ≠ .used
  awake : ∀ q, r = .proc q → s.state q ≠ .sleeping

namespace HandsOver

variable {s' : State} {t r : Thread} {p : Nat} (hs : HandsOver s s' l l' t r p)

include hs

theorem view {β : Type} (f : Local → β) (hf : f (l' t) = f (l t)) (j : Thread) :
    f (l' j) = f (l j) := by
  by_cases hj : j = t
  · rw [hj, hf]
  · rw [hs.other j hj]

theorem grip_eq (j : Thread) : (l' j).core.grip = (l j).core.grip := hs.view (·.core.grip) hs.grip j

theorem seen_eq (j : Thread) : (l' j).mon.seen = (l j).mon.seen := hs.view (·.mon.seen) hs.seen j

theorem maybe_eq (j : Thread) : (l' j).mon.maybe = (l j).mon.maybe :=
  hs.view (·.mon.maybe) hs.maybe j

theorem stale_eq (j : Thread) : (l' j).mon.stale = (l j).mon.stale :=
  hs.view (·.mon.stale) hs.stale j

theorem sleeps_eq (j : Thread) : (l' j).mon.sleeps = (l j).mon.sleeps :=
  hs.view (·.mon.sleeps) hs.sleeps j

theorem live {j : Thread} (hlive : (l' j).core.live = true) : (l j).core.live = true := by
  by_cases hj : j = t
  · rw [hj]
    exact hs.inv.live_of_running hs.running
  · rwa [hs.other j hj] at hlive

theorem owns (j : Thread) (x : Loc) : (l' j).Owns x ↔ (l j).Owns x :=
  owns_iff (hs.view (·.core.me) hs.me j) (by simp [hs.grip_eq]) (hs.sleeps_eq j) x

theorem going_of {j : Thread} {ch : Chan} (hg : (l' j).mon.going ch = true) :
    j ≠ t ∧ (l j).mon.going ch = true := by
  by_cases hj : j = t
  · rw [hj, hs.going] at hg
    cases hg
  · rw [hs.other j hj] at hg
    exact ⟨hj, hg⟩

theorem pending {q : Nat} {ch : Chan} (hp : Pending s' l' q ch) : Pending s l q ch := by
  obtain ⟨hst, hch⟩ | ⟨hlive, hg⟩ := hp
  · rw [hs.state] at hst
    rw [hs.mem] at hch
    exact .inl ⟨hst, hch⟩
  · exact .inr ⟨hs.live hlive, (hs.going_of hg).2⟩

theorem blocked_iff {q : Nat} {ch : Chan} : Blocked s' q ch ↔ Blocked s q ch := by
  cases ch <;> simp [Blocked, hs.mem, hs.state]

/-- Neither of the two is about the lock of a channel. -/
theorem chan_free (ch : Chan) :
    (l t).core.grip ch.lock = .free ∧ (l r).core.grip ch.lock = .free :=
  ⟨hs.only.2 _ (ch.lock_ne_proc p), hs.only'.2 _ (ch.lock_ne_proc p)⟩

/-! One field of the invariant at a time. -/

theorem inv_know (j : Thread) (x : Loc) (w : x.Val) (hlive : (l' j).core.live = true)
    (hw : (l' j).mon.mem x = some w) :
    (l' j).Owns x ∧ (x.lock = none ∨ s'.Running j) ∧ s'.mem x = w := by
  rw [hs.owns, hs.mem]
  by_cases hj : j = t
  · subst hj
    rw [hs.forget] at hw
    obtain ⟨hown, hnone, hval⟩ :=
      hs.mon.know_forget (hs.inv.live_of_running hs.running) hs.only hw
    exact ⟨hown, .inl hnone, hval⟩
  · rw [hs.other j hj] at hlive hw
    obtain ⟨hown, hlock, hval⟩ := hs.mon.know j x w hlive hw
    exact ⟨hown, hlock.imp_right fun hr => (hs.runs j).2 (.inr ⟨hj, hr⟩), hval⟩

theorem inv_going (j : Thread) (ch : Chan) (hlive : (l' j).core.live = true)
    (hg : (l' j).mon.going ch = true) : s'.Running j ∧ (l' j).core.grip ch.lock = .free ∧
      ∃ p, j = .proc p ∧ (l' j).core.grip (.proc p) ≠ .free := by
  obtain ⟨hj, hg⟩ := hs.going_of hg
  obtain ⟨hrun, hrest⟩ := hs.mon.going j ch (hs.live hlive) hg
  rw [hs.grip_eq]
  exact ⟨(hs.runs j).2 (.inr ⟨hj, hrun⟩), hrest⟩

theorem inv_dozing (q : Nat) (hq : s'.Running (.proc q)) (hst : s'.state q = .sleeping) :
    ∃ ch, s'.mem (.chan q) = some ch ∧ (l' (.proc q)).mon.going ch = true := by
  rw [hs.state] at hst
  rw [hs.mem]
  obtain heq | ⟨hj, hrun⟩ := (hs.runs _).1 hq
  · exact absurd hst (hs.awake q heq.symm)
  · rw [hs.other _ hj]
    exact hs.mon.dozing q hrun hst

theorem inv_owner (k : Nat) (hk : s'.mem (.sleepLocked k) = true) :
    ∃ j, (l' j).core.live = true ∧ (l' j).mon.sleeps k = true := by
  rw [hs.mem] at hk
  obtain ⟨j, hlive, hsl⟩ := hs.mon.owner k hk
  refine ⟨j, ?_, by rwa [hs.sleeps_eq]⟩
  by_cases hj : j = t
  · subst hj
    obtain hl | hno := hs.ends
    · exact hl
    · rw [hno] at hsl
      cases hsl
  · rwa [hs.other j hj]

theorem inv_owned (j : Thread) (k : Nat) (hlive : (l' j).core.live = true)
    (hsl : (l' j).mon.sleeps k = true) : s'.mem (.sleepLocked k) = true ∨
      s'.Running j ∧ (l' j).core.grip (.sleep k) ≠ .free ∧
        (l' j).mon.mem (.sleepLocked k) = some false := by
  rw [hs.sleeps_eq] at hsl
  rw [hs.mem, hs.grip_eq]
  obtain hon | ⟨hrun, hg, hv⟩ := hs.mon.owned j k (hs.live hlive) hsl
  · exact .inl hon
  · have hj : j ≠ t := by
      rintro rfl
      exact hg (hs.chan_free (.sleep k)).1
    rw [hs.other j hj]
    exact .inr ⟨(hs.runs j).2 (.inr ⟨hj, hrun⟩), hg, hv⟩

theorem inv_fresh (q : Nat) (hst : s'.state q = .used)
    (hlive : (l' (.proc q)).core.live = true) : (l' (.proc q)).mon = Mon.fresh := by
  rw [hs.state] at hst
  have hj : Thread.proc q ≠ t := fun heq => hs.used q heq.symm hst
  rw [hs.other _ hj] at hlive ⊢
  exact hs.mon.fresh q hst hlive

theorem inv_seen (q q' : Nat) (hq : s'.Running (.proc q))
    (hseen : (l' (.proc q)).mon.seen q' = true) :
    ¬ (s'.mem (.parent q') = some q ∧ s'.state q' = .zombie) := by
  rw [hs.seen_eq] at hseen
  rw [hs.mem, hs.state]
  obtain heq | ⟨-, hrun⟩ := (hs.runs _).1 hq
  · rw [heq, hs.mon.unseen _ q' hs.live' (hs.only'.2 _ (by simp))] at hseen
    cases hseen
  · exact hs.mon.seen q q' hrun hseen

theorem inv_monitor (q : Nat) (ch : Chan) (hp : Pending s' l' q ch)
    (hu : Unheld s' l' ch.lock) : Blocked s' q ch := by
  rw [hs.blocked_iff]
  apply hs.mon.monitor q ch (hs.pending hp)
  intro j hj
  by_cases hjt : j = t
  · rw [hjt]
    exact (hs.chan_free ch).1
  · rw [← hs.grip_eq]
    exact hu j ((hs.runs j).2 (.inr ⟨hjt, hj⟩))

theorem inv_watched (q : Nat) (ch : Chan) (j : Thread) (hp : Pending s' l' q ch)
    (hrun : s'.Running j) (hg : (l' j).core.grip ch.lock ≠ .free) :
    (l' j).mon.maybe ch q = true ∧ ((l' j).mon.stale ch = false → Blocked s' q ch) := by
  rw [hs.grip_eq] at hg
  rw [hs.maybe_eq, hs.stale_eq, hs.blocked_iff]
  obtain rfl | ⟨-, hr⟩ := (hs.runs j).1 hrun
  · exact absurd (hs.chan_free ch).2 hg
  · exact hs.mon.watched q ch j (hs.pending hp) hr hg

end HandsOver

theorem MonInv.switch {s' : State} {t r : Thread} {p : Nat} (hs : HandsOver s s' l l' t r p) :
    MonInv s' l' := by
  have hm := hs.mon
  constructor
  case know => exact hs.inv_know
  case normal =>
      intro j ch hlive
      simpa only [hs.grip_eq, hs.stale_eq, hs.maybe_eq] using hm.normal j ch (hs.live hlive)
  case unseen =>
      intro j q hlive
      simpa only [hs.grip_eq, hs.seen_eq] using hm.unseen j q (hs.live hlive)
  case going => exact hs.inv_going
  case dozing => exact hs.inv_dozing
  case owner => exact hs.inv_owner
  case owned => exact hs.inv_owned
  case one =>
      intro j j' k hlive hlive'
      simpa only [hs.sleeps_eq] using hm.one j j' k (hs.live hlive) (hs.live hlive')
  case fresh => exact hs.inv_fresh
  case seen => exact hs.inv_seen
  case monitor => exact hs.inv_monitor
  case watched => exact hs.inv_watched

end SyscallSched.Xv6.Smp
