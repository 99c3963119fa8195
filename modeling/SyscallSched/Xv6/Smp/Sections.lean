import SyscallSched.Xv6.Smp.Rules

/-!
# What stays when a lock is given back

A thread between two operations on locks is `Steady`: it knows nothing of what a lock
guards that it does not hold.  It is `Inside` the lock `k` that it took at `u` as long as
it has changed only what `k` guards, and when it gives the lock back it is at `u` again.
-/

namespace SyscallSched.Xv6.Smp

open SyscallSched.Foundation

variable {u v w z : Local} {k : Lock} {p : Nat}

structure Local.Steady (u : Local) : Prop where
  top : u.core.noff = 0 →
    (∀ k, u.core.grip k = .free) ∧ u.core.cproc = none ∧ u.core.intena = none
  off : u.core.noff ≠ 0 → u.core.sie = false
  prev : u.core.sie = true → u.core.prev = none
  unknown : ∀ p, u.core.grip (.proc p) = .free → u.core.state p = none ∧ u.core.idle p = false
  mem : ∀ x k, x.lock = some k → u.core.grip k = .free → u.mon.mem x = none
  quiet : ∀ ch, u.core.grip ch.lock = .free →
    u.mon.stale ch = false ∧ ∀ q, u.mon.maybe ch q = true
  unseen : u.core.grip .wait = .free → ∀ q, u.mon.seen q = false
  unspared : u.core.grip .wait = .free → ∀ q, u.mon.spared q = false
  going : ∀ ch, u.mon.going ch = true → ∃ p, u.core.me = .proc p ∧ u.core.grip (.proc p) ≠ .free

theorem Local.Steady.setSstatus {intena : Option Bool} {sie : Bool} {prev : Option (Bool × Bool)}
    (hu : u.Steady) (hzero : u.core.noff = 0) (hintena : intena = none)
    (hprev : sie = true → prev = none) :
    Local.Steady ⟨{ u.core with intena := intena, sie := sie, prev := prev }, u.mon⟩ where
  top := fun hz => ⟨(hu.top hz).1, (hu.top hz).2.1, hintena⟩
  off := fun hne => absurd hzero hne
  prev := hprev
  unknown := hu.unknown
  mem := hu.mem
  quiet := hu.quiet
  unseen := hu.unseen
  unspared := hu.unspared
  going := hu.going

theorem Local.Steady.not_going (hu : u.Steady) (hfree : ∀ k, u.core.grip k = .free) (ch : Chan) :
    u.mon.going ch = false := by
  by_contra hne
  obtain ⟨p, -, hp⟩ := hu.going ch (by simpa using hne)
  exact hp (hfree _)

/-! ## Without locks -/

theorem Local.Steady.eq_of_free (hu : u.Steady) (hfree : ∀ k, u.core.grip k = .free)
    (hw : w.Steady) (hcore : w.core = u.core)
    (hmem : ∀ x, x.lock = none → w.mon.mem x = u.mon.mem x)
    (hsleeps : w.mon.sleeps = u.mon.sleeps) : w = u := by
  have hfree' : ∀ k, w.core.grip k = .free := by simpa [hcore] using hfree
  have hmem' : w.mon.mem = u.mon.mem := by
    funext x
    cases hx : x.lock with
    | none => exact hmem x hx
    | some k => rw [hu.mem x k hx (hfree k), hw.mem x k hx (hfree' k)]
  have hseen : w.mon.seen = u.mon.seen := by
    funext q
    rw [hu.unseen (hfree _), hw.unseen (hfree' _)]
  have hspared : w.mon.spared = u.mon.spared := by
    funext q
    rw [hu.unspared (hfree _), hw.unspared (hfree' _)]
  have hmaybe : w.mon.maybe = u.mon.maybe := by
    funext ch q
    rw [(hu.quiet ch (hfree _)).2, (hw.quiet ch (hfree' _)).2]
  have hstale : w.mon.stale = u.mon.stale := by
    funext ch
    rw [(hu.quiet ch (hfree _)).1, (hw.quiet ch (hfree' _)).1]
  have hgoing : w.mon.going = u.mon.going := by
    funext ch
    rw [hu.not_going hfree, hw.not_going hfree']
  obtain ⟨core, mem, seen, spared, maybe, stale, going, sleeps⟩ := u
  obtain ⟨core', mem', seen', spared', maybe', stale', going', sleeps'⟩ := w
  simp only at hcore hmem' hstale hgoing hsleeps hseen hspared hmaybe
  rw [hcore, hmem', hstale, hgoing, hsleeps, hseen, hspared, hmaybe]

theorem Local.Steady.pushed_popped (hu : u.Steady) {b : Bool}
    (hb : u.core.noff = 0 → b = u.core.sie) : u.pushed.popped b = u := by
  obtain ⟨⟨me, live, noff, intena, sie, prev, grip, cproc, state, idle, child⟩, mon⟩ := u
  by_cases hzero : noff = 0
  · subst hzero
    obtain ⟨-, -, hintena⟩ := hu.top rfl
    have hprev := hu.prev
    simp only at hb hintena hprev
    cases sie with
    | true => simp [Local.pushed, Local.popped, Local.regs, hb, hintena, hprev]
    | false => simp [Local.pushed, Local.popped, Local.regs, hb, hintena]
  · have hsie := hu.off hzero
    simp only at hsie
    simp [Local.pushed, Local.popped, Local.regs, Local.withNoff, hzero, hsie]

theorem safe_myproc {Q : Option Nat → Local → Prop} (hu : u.Steady) (hQ : Q u.core.myproc u) :
    Safe myproc Q u := by
  apply safe_bind
  apply safe_pushOff
  apply safe_bind
  refine safe_cproc (u := u.pushed) rfl ?_
  apply safe_bind
  refine safe_popOff rfl (Nat.succ_ne_zero _) ?hfree ?hQ
  case hfree =>
      intro hone
      have hzero : u.core.noff = 0 := by
        replace hone : u.core.noff + 1 = 1 := hone
        omega
      exact ⟨(hu.top hzero).1, (hu.top hzero).2.1⟩
  case hQ =>
      intro b hb
      rw [hu.pushed_popped]
      · exact safe_pure hQ
      · intro hzero
        exact hb u.core.sie (if_pos hzero)

theorem safe_self {Q : Nat → Local → Prop} (hu : u.Steady) (hme : u.core.me = .proc p)
    (hQ : Q p u) : Safe self Q u := by
  apply safe_bind
  apply safe_myproc hu
  rw [Core.myproc_of_proc hme]
  exact safe_pure hQ

/-! ## Single steps -/

theorem Local.Owns.held {x : Loc} (hx : u.Owns x) (hk : x.lock = some k) :
    u.core.grip k ≠ .free := by
  cases x <;> cases hk
  case parent p => exact hx.2
  all_goals exact hx

theorem Local.hold_free {k' : Lock} (hk : k' ≠ k) (hfree : u.core.grip k' = .free) :
    (u.hold k).core.grip k' = .free :=
  (Function.update_of_ne hk _ _).trans hfree

theorem Local.Steady.hold (hu : u.Steady) (hfree : u.core.grip k = .free) : (u.hold k).Steady := by
  have hgrip : ∀ k', (u.hold k).core.grip k' = .free → k' ≠ k ∧ u.core.grip k' = .free := by
    intro k' hk'
    by_cases hk : k' = k
    · subst hk
      simp [Local.hold] at hk'
    · simp only [Local.hold, Function.update_of_ne hk] at hk'
      exact ⟨hk, hk'⟩
  constructor
  case top => exact fun hzero => absurd hzero (Nat.succ_ne_zero _)
  case off => exact fun _ => rfl
  case prev => exact fun hsie => Bool.noConfusion hsie
  case unknown =>
      intro p hp
      obtain ⟨hne, hp⟩ := hgrip _ hp
      have hstate : (u.hold k).core.state p = u.core.state p := if_neg fun hand => hne hand.1.symm
      rw [hstate]
      exact hu.unknown p hp
  case mem => exact fun x k' hx hk' => hu.mem x k' hx (hgrip _ hk').2
  case quiet => exact fun ch hch => hu.quiet ch (hgrip _ hch).2
  case unseen => exact fun hwait => hu.unseen (hgrip _ hwait).2
  case unspared => exact fun hwait => hu.unspared (hgrip _ hwait).2
  case going =>
      intro ch hch
      obtain ⟨p, hme, hp⟩ := hu.going ch hch
      refine ⟨p, hme, ?_⟩
      intro hp'
      exact hp (hgrip _ hp').2

theorem Local.Steady.setMon (hu : u.Steady) {m : Mon}
    (hmem : ∀ x v, m.mem x = some v → u.mon.mem x = some v ∨ u.Owns x)
    (hseen : ∀ q, m.seen q = true → u.mon.seen q = true ∨ u.core.grip .wait ≠ .free)
    (hspared : ∀ q, m.spared q = true → u.mon.spared q = true ∨ u.core.grip .wait ≠ .free)
    (hstale : ∀ ch, m.stale ch = true → u.mon.stale ch = true ∨ u.core.grip ch.lock ≠ .free)
    (hmaybe : m.maybe = u.mon.maybe) (hgoing : m.going = u.mon.going) :
    Local.Steady ⟨u.core, m⟩ := by
  constructor
  case top => exact hu.top
  case off => exact hu.off
  case prev => exact hu.prev
  case unknown => exact hu.unknown
  case mem =>
      intro x k hx hfree
      cases hv : m.mem x with
      | none => rfl
      | some v =>
          obtain hold | hown := hmem x v hv
          · rw [hu.mem x k hx hfree] at hold
            cases hold
          · exact absurd hfree (hown.held hx)
  case quiet =>
      intro ch hfree
      obtain ⟨hst, hmay⟩ := hu.quiet ch hfree
      refine ⟨?_, ?_⟩
      · by_contra hne
        obtain hold | hheld := hstale ch (by simpa using hne)
        · rw [hst] at hold
          cases hold
        · exact hheld hfree
      · simpa [hmaybe] using hmay
  case unseen =>
      intro hfree q
      by_contra hne
      obtain hold | hheld := hseen q (by simpa using hne)
      · rw [hu.unseen hfree q] at hold
        cases hold
      · exact hheld hfree
  case unspared =>
      intro hfree q
      by_contra hne
      obtain hold | hheld := hspared q (by simpa using hne)
      · rw [hu.unspared hfree q] at hold
        cases hold
      · exact hheld hfree
  case going => simpa [hgoing] using hu.going

theorem Local.loadMon_mem_of_ne {x y : Loc} {v : x.Val} (hy : y ≠ x) :
    (u.loadMon x v).mem y = u.mon.mem y := by
  rw [Local.loadMon_mem]
  split
  · exact Function.update_of_ne hy _ _
  · rfl

theorem Local.loadMon_mem_self {x : Loc} {v : x.Val} (hx : u.Owns x) :
    (u.loadMon x v).mem x = some v := by
  rw [Local.loadMon_mem, if_pos hx, Function.update_self]

theorem Local.storeMon_mem_of_ne {x y : Loc} {v : x.Val} (hw : u.Writes x v) (hy : y ≠ x) :
    (u.storeMon x v).mem y = u.mon.mem y := by
  rw [Local.storeMon_mem hw]
  split
  · exact Function.update_of_ne hy _ _
  · rfl

theorem Local.storeMon_mem_self {x : Loc} {v : x.Val} (hw : u.Writes x v) (hx : u.Owns x) :
    (u.storeMon x v).mem x = some v := by
  rw [Local.storeMon_mem hw, if_pos hx, Function.update_self]

theorem Local.Steady.load {x : Loc} {v : x.Val} (hu : u.Steady) (hx : u.Reads x) :
    Local.Steady ⟨u.core, u.loadMon x v⟩ := by
  refine hu.setMon ?hmem ?hseen ?hspared ?hstale Local.loadMon_maybe Local.loadMon_going
  case hmem =>
      intro y w hy
      rw [Local.loadMon_mem] at hy
      by_cases hown : u.Owns x
      · rw [if_pos hown] at hy
        by_cases hyx : y = x
        · subst hyx
          exact .inr hown
        · rw [Function.update_of_ne hyx] at hy
          exact .inl hy
      · rw [if_neg hown] at hy
        exact .inl hy
  case hseen =>
      intro q hq
      obtain hold | ⟨-, -, hxq, -⟩ := Local.loadMon_seen hq
      · exact .inl hold
      · subst hxq
        exact .inr hx
  case hspared =>
      intro q hq
      cases x
      case parent p => exact .inr hx
      all_goals exact .inl hq
  case hstale =>
      intro ch hch
      rw [Local.loadMon_stale] at hch
      exact .inl hch

theorem Local.Steady.store {x : Loc} {v : x.Val} (hu : u.Steady) (hx : u.Writes x v) :
    Local.Steady ⟨u.core, u.storeMon x v⟩ := by
  refine hu.setMon ?hmem ?hseen ?hspared ?hstale Local.storeMon_maybe Local.storeMon_going
  case hmem =>
      intro y w hy
      rw [Local.storeMon_mem hx] at hy
      by_cases hown : u.Owns x
      · rw [if_pos hown] at hy
        by_cases hyx : y = x
        · subst hyx
          exact .inr hown
        · rw [Function.update_of_ne hyx] at hy
          exact .inl hy
      · rw [if_neg hown] at hy
        exact .inl hy
  case hseen => exact fun q hq => .inl (Local.storeMon_seen hq).1
  case hspared =>
      intro q hq
      cases x
      case parent p =>
          by_cases hwait : u.core.grip .wait = .free
          · simp only [Local.storeMon, if_pos hwait] at hq
            cases hme : u.core.me <;> exact .inl (by simpa only [hme] using hq)
          · exact .inr hwait
      all_goals exact .inl hq
  case hstale =>
      intro ch hch
      obtain hold | htouch := Local.storeMon_stale.1 hch
      · exact .inl hold
      · exact .inr (hx.touches htouch.1)

theorem Local.Steady.setCore (hu : u.Steady) {state : Nat → Option ProcState} {idle : Nat → Bool}
    {child : Option (Nat × Bool)} (hheld : u.core.grip (.proc p) ≠ .free)
    (hstate : ∀ q, q ≠ p → state q = u.core.state q) (hidle : ∀ q, q ≠ p → idle q = u.core.idle q) :
    Local.Steady ⟨{ u.core with state := state, idle := idle, child := child }, u.mon⟩ := by
  constructor
  case top => exact hu.top
  case off => exact hu.off
  case prev => exact hu.prev
  case unknown =>
      intro q hq
      have hne : q ≠ p := by
        rintro rfl
        exact hheld hq
      simpa [hstate q hne, hidle q hne] using hu.unknown q hq
  case mem => exact hu.mem
  case quiet => exact hu.quiet
  case unseen => exact hu.unseen
  case unspared => exact hu.unspared
  case going => exact hu.going

theorem Local.Steady.state {st : ProcState} (hu : u.Steady)
    (hheld : u.core.grip (.proc p) = .held) : (u.next (.state p) st).Steady := by
  refine hu.setCore (p := p) (by simp [hheld]) ?_ ?_
  · intro q hq
    exact Function.update_of_ne hq _ _
  · intro q hq
    split
    · rfl
    · exact Function.update_of_ne hq _ _

theorem Local.dieMon_stale {ch : Chan} : (u.dieMon p).stale ch = true ↔
    u.mon.stale ch = true ∨ ∃ q, u.mon.mem (.parent p) = some (some q) ∧ ch = .proc q := by
  unfold Local.dieMon
  cases hv : u.mon.mem (.parent p) with
  | none => simp
  | some v =>
      cases v with
      | none => simp
      | some q =>
          by_cases hq : ch = .proc q
          · simp [hq]
          · simp [hq]

theorem Local.Steady.setState {st : ProcState} (hu : u.Steady)
    (hheld : u.core.grip (.proc p) = .held) (hpre : u.Pre (.setState p st)) :
    (u.next (.setState p st) ()).Steady := by
  have hcore : Local.Steady ⟨(u.next (.setState p st) ()).core, u.mon⟩ := by
    refine hu.setCore (p := p) (by simp [hheld]) ?_ fun _ _ => rfl
    intro q hq
    exact Function.update_of_ne hq _ _
  cases st
  case zombie =>
      by_cases hme : u.core.me = .proc p
      · have hmon : (u.next (.setState p .zombie) ()).mon = u.dieMon p := if_pos hme
        obtain ⟨hwait, -⟩ := (hpre hme).2 rfl
        refine hcore.setMon (m := (u.next (.setState p .zombie) ()).mon) ?hmem ?hseen ?hspared
          ?hstale ?_ ?_
        case hmem =>
            rw [hmon]
            exact fun x v hx => .inl hx
        case hseen => exact fun q _ => .inr hwait
        case hspared => exact fun q _ => .inr hwait
        case hstale =>
            rw [hmon]
            intro ch hch
            obtain hold | ⟨q, -, rfl⟩ := Local.dieMon_stale.1 hch
            · exact .inl hold
            · exact .inr hwait
        · rw [hmon]
          rfl
        · rw [hmon]
          rfl
      · have hmon : (u.next (.setState p .zombie) ()).mon = u.mon := if_neg hme
        rw [← hmon] at hcore
        exact hcore
  all_goals exact hcore

/-! ## Inside a lock -/

def Local.Below (u : Local) (k : Lock) : Prop :=
  ∀ k', u.core.grip k' ≠ .free → k'.rank < k.rank

theorem Local.Below.free (hu : u.Below k) : u.core.grip k = .free := by
  by_contra hne
  exact Nat.lt_irrefl _ (hu k hne)

theorem Local.Below.of_free (hfree : ∀ k, u.core.grip k = .free) : u.Below k :=
  fun k' hk' => absurd (hfree k') hk'

structure Inside (k : Lock) (u z : Local) : Prop where
  steady : z.Steady
  core : z.core = { (u.hold k).core with
    state := z.core.state, idle := z.core.idle, child := z.core.child }
  state : ∀ q, k ≠ .proc q → z.core.state q = u.core.state q
  idle : ∀ q, k ≠ .proc q → z.core.idle q = u.core.idle q

/-- `u` again, after `k` was given back at `z`. -/
def Local.back (u z : Local) (k : Lock) : Local :=
  ⟨{ u.core with child := z.core.child }, z.unlockMon k⟩

theorem Local.forget_private {x : Loc} (hx : x.lock = none) (hleaves : ∀ j, ¬ z.Leaves k j) :
    z.forget k x = z.mon.mem x := by
  have hne : x.lock ≠ some k := by simp [hx]
  cases x
  case sleepPid j => exact if_neg (hleaves j)
  case data j => exact if_neg (hleaves j)
  all_goals exact if_neg (t := none) hne

namespace Inside

theorem hold (hu : u.Steady) (hfree : u.core.grip k = .free) : Inside k u (u.hold k) := by
  constructor
  case steady => exact hu.hold hfree
  case core => rfl
  case state => exact fun q hq => if_neg fun hand => hq hand.1
  case idle => exact fun _ _ => rfl

theorem me (hz : Inside k u z) : z.core.me = u.core.me := by
  rw [hz.core]
  rfl

theorem noff (hz : Inside k u z) : z.core.noff = u.core.noff + 1 := by
  rw [hz.core]
  rfl

theorem sie (hz : Inside k u z) : z.core.sie = false := by
  rw [hz.core]
  rfl

theorem cproc (hz : Inside k u z) : z.core.cproc = u.core.cproc := by
  rw [hz.core]
  rfl

theorem intena (hz : Inside k u z) :
    z.core.intena = if u.core.noff = 0 then some u.core.sie else u.core.intena := by
  rw [hz.core]
  rfl

theorem grip (hz : Inside k u z) : z.core.grip = Function.update u.core.grip k .held := by
  rw [hz.core]
  rfl

theorem held (hz : Inside k u z) : z.core.grip k = .held := by
  rw [hz.grip, Function.update_self]

theorem grip_of_ne {k' : Lock} (hz : Inside k u z) (hk : k' ≠ k) :
    z.core.grip k' = u.core.grip k' := by
  rw [hz.grip, Function.update_of_ne hk]

theorem below {k' : Lock} (hz : Inside k u z) (hu : u.Below k') (hk : k.rank < k'.rank) :
    z.Below k' := by
  intro k'' hk''
  by_cases hne : k'' = k
  · rwa [hne]
  · rw [hz.grip_of_ne hne] at hk''
    exact hu k'' hk''

theorem of_core (hz : Inside k u z) (hw : w.Steady)
    (hcore : w.core = { z.core with child := w.core.child }) : Inside k u w := by
  have hstate : w.core.state = z.core.state := by rw [hcore]
  have hidle : w.core.idle = z.core.idle := by rw [hcore]
  constructor
  case steady => exact hw
  case core =>
      rw [hstate, hidle, hcore, hz.core]
  case state => simpa [hstate] using hz.state
  case idle => simpa [hidle] using hz.idle

theorem swap {k' : Lock} (hz : Inside k u z) (hk : k' ≠ k) (hfree : z.core.grip k' = .free) :
    Inside k (u.hold k') (z.hold k') := by
  constructor
  case steady => exact hz.steady.hold hfree
  case core =>
      simp only [Local.hold, Local.pushed, Local.regs, Core.locked, hz.me, hz.noff, hz.grip,
        hz.intena]
      rw [hz.core, Function.update_comm hk]
      simp [Local.hold, Local.pushed, Local.regs, Core.locked]
  case state =>
      intro q hq
      by_cases hown : k' = .proc q ∧ u.core.me = .proc q
      · exact (if_pos ⟨hown.1, hz.me.trans hown.2⟩).trans (if_pos hown).symm
      · refine (if_neg ?_).trans ((hz.state q hq).trans (if_neg hown).symm)
        exact fun hand => hown ⟨hand.1, hz.me.symm.trans hand.2⟩
  case idle => exact hz.idle

theorem setOwn (state : Nat → Option ProcState) (hz : Inside k u z) (hw : w.Steady)
    (hcore : w.core = { z.core with state := w.core.state, child := w.core.child })
    (hstate : ∀ q, k ≠ .proc q → w.core.state q = state q) :
    Inside k ⟨{ u.core with state := state }, u.mon⟩ w := by
  have hidle : w.core.idle = z.core.idle := by rw [hcore]
  constructor
  case steady => exact hw
  case core =>
      rw [hidle, hcore, hz.core]
      rfl
  case state => exact hstate
  case idle => simpa [hidle] using hz.idle

theorem ne_of_ne {q : Nat} (hq : Lock.proc p ≠ .proc q) : q ≠ p := by
  rintro rfl
  exact hq rfl

theorem getState (st : ProcState) (hz : Inside (.proc p) u z) :
    Inside (.proc p) u (z.next (.state p) st) := by
  refine ⟨hz.steady.state hz.held, ?core, ?state, ?idle⟩
  case core =>
      simp only [Local.next, Core.next]
      rw [hz.core]
  case state =>
      intro q hq
      exact (Function.update_of_ne (ne_of_ne hq) _ _).trans (hz.state q hq)
  case idle =>
      intro q hq
      refine Eq.trans ?_ (hz.idle q hq)
      simp only [Local.next, Core.next]
      split
      · rfl
      · exact Function.update_of_ne (ne_of_ne hq) _ _

theorem setState (st : ProcState) (hz : Inside (.proc p) u z) (hpre : z.Pre (.setState p st)) :
    Inside (.proc p) u (z.next (.setState p st) ()) := by
  refine ⟨hz.steady.setState hz.held hpre, ?core, ?state, hz.idle⟩
  case core =>
      simp only [Local.next, Core.next]
      rw [hz.core]
  case state =>
      intro q hq
      exact (Function.update_of_ne (ne_of_ne hq) _ _).trans (hz.state q hq)

theorem back_core (hu : u.Steady) (hz : Inside k u z) (hfree : u.core.grip k = .free) {b : Bool}
    (hb : ∀ b', z.core.intena = some b' → b = b') :
    (z.unlocked k).popped b = u.back z k := by
  have hgrip : Function.update z.core.grip k .free = u.core.grip := by
    rw [hz.grip, Function.update_idem, ← hfree, Function.update_eq_self]
  have hstate : (fun q => if k = .proc q then none else z.core.state q) = u.core.state := by
    funext q
    by_cases hq : k = .proc q
    · subst hq
      rw [if_pos rfl, (hu.unknown q hfree).1]
    · rw [if_neg hq, hz.state q hq]
  have hidle : (fun q => if k = .proc q then false else z.core.idle q) = u.core.idle := by
    funext q
    by_cases hq : k = .proc q
    · subst hq
      rw [if_pos rfl, (hu.unknown q hfree).2]
    · rw [if_neg hq, hz.idle q hq]
  have hcore : z.core.unlocked k = { u.pushed.core with child := z.core.child } := by
    rw [Core.unlocked, hgrip, hstate, hidle, hz.core]
    rfl
  have hback : u.pushed.popped b = u := by
    apply hu.pushed_popped
    intro hzero
    apply hb
    rw [hz.intena, if_pos hzero]
  have hparts : (z.unlocked k).popped b =
      ⟨{ (u.pushed.popped b).core with child := z.core.child }, z.unlockMon k⟩ := by
    rw [Local.unlocked, hcore]
    by_cases hone : u.pushed.core.noff = 1
    · simp [Local.popped, Local.regs, hone]
    · simp [Local.popped, Local.withNoff, hone]
  rw [hparts, hback, Local.back]

theorem back_steady (hu : u.Steady) (hz : Inside k u z) (hfree : u.core.grip k = .free) :
    (u.back z k).Steady := by
  have hgrip : ∀ k', k' ≠ k → u.core.grip k' = .free → z.core.grip k' = .free := by
    intro k' hk hfree'
    rwa [hz.grip_of_ne hk]
  constructor
  case top => exact hu.top
  case off => exact hu.off
  case prev => exact hu.prev
  case unknown => exact hu.unknown
  case mem =>
      intro x k' hx hk'
      cases hv : (u.back z k).mon.mem x with
      | none => rfl
      | some v =>
          obtain ⟨hold, hne, -⟩ := Local.forget_some hv
          have hkne : k' ≠ k := by
            rintro rfl
            exact hne hx
          rw [hz.steady.mem x k' hx (hgrip k' hkne hk')] at hold
          cases hold
  case quiet =>
      intro ch hch
      by_cases hk : ch.lock = k
      · exact ⟨if_pos hk, fun q => if_pos hk⟩
      · obtain ⟨hst, hmay⟩ := hz.steady.quiet ch (hgrip _ hk hch)
        refine ⟨(if_neg hk).trans hst, fun q => (if_neg hk).trans ?_⟩
        simp [hmay, hgrip _ hk hch]
  case unseen =>
      intro hwait q
      by_cases hk : k = .wait
      · exact if_pos hk
      · have hfree' := hgrip .wait (Ne.symm hk) hwait
        refine (if_neg hk).trans ?_
        simp [hz.steady.unseen hfree', hfree']
  case unspared =>
      intro hwait q
      by_cases hk : k = .wait
      · exact if_pos hk
      · exact (if_neg hk).trans (hz.steady.unspared (hgrip .wait (Ne.symm hk) hwait) q)
  case going =>
      intro ch hch
      have hme : z.core.me = u.core.me := hz.me
      simp only [Local.back, Local.unlockMon] at hch ⊢
      cases hmez : z.core.me with
      | cpu c =>
          rw [hmez] at hch
          cases hch
      | proc p =>
          rw [hmez] at hch
          refine ⟨p, hme.symm.trans hmez, ?_⟩
          by_cases hk : k = .proc p
          · simp [hk] at hch
          · rw [← hz.grip_of_ne (Ne.symm hk)]
            simp only [if_neg hk, Bool.or_eq_true, Bool.and_eq_true, decide_eq_true_eq] at hch
            obtain hold | hnew := hch
            · obtain ⟨q, hq, hheld⟩ := hz.steady.going ch hold
              rw [hmez] at hq
              cases hq
              exact hheld
            · exact hnew.1.2.1

theorem back_eq (hu : u.Steady) (hz : Inside k u z) (hfree : ∀ k, u.core.grip k = .free)
    (hchild : z.core.child = u.core.child)
    (hmem : ∀ x, x.lock = none → z.mon.mem x = u.mon.mem x)
    (hsleeps : z.mon.sleeps = u.mon.sleeps) (hleaves : ∀ j, ¬ z.Leaves k j) : u.back z k = u := by
  refine hu.eq_of_free hfree (hz.back_steady hu (hfree k)) ?hcore ?hmem ?hsleeps
  case hcore => rw [Local.back, hchild]
  case hmem =>
      intro x hx
      rw [← hmem x hx]
      exact Local.forget_private hx hleaves
  case hsleeps =>
      funext j
      simp [Local.back, Local.unlockMon, hleaves j, hsleeps]

end Inside

theorem safe_hold {Q : Unit → Local → Prop} (hbelow : u.Below k) (hQ : Q () (u.hold k)) :
    Safe (acquire k) Q u :=
  safe_acquire hbelow.free hbelow hQ

theorem safe_back {Q : Unit → Local → Prop} (hu : u.Steady) (hz : Inside k u z)
    (hfree : u.core.grip k = .free)
    (hstate : ∀ p, k = .proc p → (z.core.me = .proc p → z.core.state p = some .running) ∧
      (z.core.idle p = true → ∃ st, z.core.state p = some st ∧ st ≠ .running))
    (hmon : ∀ ch, ch.lock = k → z.mon.stale ch = true →
      ∀ q < NPROC, z.core.me ≠ .proc q → z.mon.maybe ch q = false)
    (hQ : Q () (u.back z k)) : Safe (release k) Q z := by
  refine safe_release hz.held hz.sie ?hnoff hstate hmon ?hfree ?hQ
  case hnoff => simp [hz.noff]
  case hfree =>
      intro hone
      have hzero : u.core.noff = 0 := by
        rw [hz.noff] at hone
        omega
      obtain ⟨hgrip, hcproc, -⟩ := hu.top hzero
      refine ⟨?_, by rw [hz.cproc, hcproc]⟩
      intro k' hk'
      rw [hz.grip_of_ne hk', hgrip]
  case hQ =>
      intro b hb
      rwa [hz.back_core hu hfree hb]

/-! ## A process in a system call -/

structure Local.Calm (u : Local) : Prop where
  steady : u.Steady
  on : u.core.sie = true

theorem Local.Calm.noff (hu : u.Calm) : u.core.noff = 0 := by
  by_contra hne
  have hsie := hu.steady.off hne
  rw [hu.on] at hsie
  cases hsie

theorem Local.Calm.free (hu : u.Calm) (k : Lock) : u.core.grip k = .free :=
  (hu.steady.top hu.noff).1 k

theorem Local.Calm.below (hu : u.Calm) : u.Below k := Local.Below.of_free hu.free

theorem Local.Calm.back (hu : u.Calm) (hz : Inside k u z) : (u.back z k).Calm :=
  ⟨hz.back_steady hu.steady (hu.free k), hu.on⟩

/-- The process `p` between two steps of a system call, with the slot `c` to fill. -/
structure Local.Serving (p : Nat) (c : Option (Nat × Bool)) (u : Local) : Prop
    extends Local.Calm u where
  me : u.core.me = .proc p
  child : u.core.child = c
  sleeps : ∀ j, u.mon.sleeps j = false

abbrev Local.Top (p : Nat) (u : Local) : Prop := u.Serving p none

theorem Local.Serving.back {c c' : Option (Nat × Bool)} (hu : u.Serving p c) (hz : Inside k u z)
    (hchild : z.core.child = c') (hsleeps : ∀ j, z.mon.sleeps j = false) :
    (u.back z k).Serving p c' where
  toCalm := hu.toCalm.back hz
  me := hu.me
  child := hchild
  sleeps j := by simp [Local.back, Local.unlockMon, hsleeps j]

/-! ## What a thread has learned -/

/-- `w` is `u` with more known of the processes that share a channel with it. -/
structure Learned (u w : Local) : Prop where
  steady : w.Steady
  core : w.core = u.core
  mem : w.mon.mem = u.mon.mem
  stale : w.mon.stale = u.mon.stale
  going : w.mon.going = u.mon.going
  sleeps : w.mon.sleeps = u.mon.sleeps
  spared : w.mon.spared = u.mon.spared
  seen : ∀ q, u.mon.seen q = true → w.mon.seen q = true
  maybe : ∀ ch q, w.mon.maybe ch q = true → u.mon.maybe ch q = true

namespace Learned

theorem refl (hu : u.Steady) : Learned u u :=
  ⟨hu, rfl, rfl, rfl, rfl, rfl, rfl, fun _ h => h, fun _ _ h => h⟩

theorem trans (huv : Learned u v) (hvw : Learned v w) : Learned u w where
  steady := hvw.steady
  core := hvw.core.trans huv.core
  mem := hvw.mem.trans huv.mem
  stale := hvw.stale.trans huv.stale
  going := hvw.going.trans huv.going
  sleeps := hvw.sleeps.trans huv.sleeps
  spared := hvw.spared.trans huv.spared
  seen := fun q hq => hvw.seen q (huv.seen q hq)
  maybe := fun ch q hq => huv.maybe ch q (hvw.maybe ch q hq)

theorem below (h : Learned u w) (hu : u.Below k) : w.Below k := by
  rwa [Local.Below, h.core]

theorem eq_of_free (h : Learned u w) (hu : u.Steady) (hfree : ∀ k, u.core.grip k = .free) :
    w = u :=
  hu.eq_of_free hfree h.steady h.core (fun x _ => congrFun h.mem x) h.sleeps

end Learned

/-- Inside a lock that no one sleeps under, with nothing changed but what it guards. -/
structure Section (k : Lock) (u z : Local) : Prop extends Inside k u z where
  quiet : ∀ ch : Chan, ch.lock ≠ k
  mem : ∀ x, x.lock ≠ some k → z.mon.mem x = u.mon.mem x
  seen : z.mon.seen = u.mon.seen
  spared : z.mon.spared = u.mon.spared
  maybe : z.mon.maybe = u.mon.maybe
  stale : z.mon.stale = u.mon.stale
  going : z.mon.going = u.mon.going
  sleeps : z.mon.sleeps = u.mon.sleeps

namespace Section

theorem hold (hu : u.Steady) (hfree : u.core.grip k = .free) (hquiet : ∀ ch : Chan, ch.lock ≠ k) :
    Section k u (u.hold k) :=
  ⟨Inside.hold hu hfree, hquiet, fun _ _ => rfl, rfl, rfl, rfl, rfl, rfl, rfl⟩

theorem owns {x : Loc} (hz : Section k u z) (hx : x.lock = some k) : z.Owns x ∧ z.Reads x := by
  have hheld : z.core.grip k ≠ .free := by simp [hz.held]
  cases x <;> cases hx
  case parent.refl => exact absurd rfl (hz.quiet (.proc 0))
  all_goals exact ⟨hheld, hheld⟩

theorem load {x : Loc} {v : x.Val} (hz : Section k u z) (hx : x.lock = some k) :
    Section k u ⟨z.core, z.loadMon x v⟩ := by
  constructor
  case toInside => exact hz.of_core (hz.steady.load (hz.owns hx).2) rfl
  case quiet => exact hz.quiet
  case mem =>
      intro y hy
      have hne : y ≠ x := by
        rintro rfl
        exact hy hx
      rw [← hz.mem y hy]
      exact Local.loadMon_mem_of_ne hne
  case seen =>
      rw [← hz.seen]
      cases x <;> cases hx
      case parent.refl => exact absurd rfl (hz.quiet (.proc 0))
      all_goals rfl
  case spared =>
      rw [← hz.spared]
      cases x <;> cases hx
      case parent.refl => exact absurd rfl (hz.quiet (.proc 0))
      all_goals rfl
  case maybe => exact Local.loadMon_maybe.trans hz.maybe
  case stale => exact Local.loadMon_stale.trans hz.stale
  case going => exact Local.loadMon_going.trans hz.going
  case sleeps => exact Local.loadMon_sleeps.trans hz.sleeps

theorem store {x : Loc} {v : x.Val} (hz : Section k u z) (hx : x.lock = some k)
    (hw : z.Writes x v) : Section k u ⟨z.core, z.storeMon x v⟩ := by
  have hsame : (z.storeMon x v).seen = z.mon.seen ∧ (z.storeMon x v).stale = z.mon.stale ∧
      (z.storeMon x v).sleeps = z.mon.sleeps ∧ (z.storeMon x v).spared = z.mon.spared := by
    cases x <;> cases hx
    case parent.refl => exact absurd rfl (hz.quiet (.proc 0))
    case sleepLocked.refl j => exact absurd rfl (hz.quiet (.sleep j))
    case ticks.refl => exact absurd rfl (hz.quiet .ticks)
    all_goals exact ⟨rfl, rfl, rfl, rfl⟩
  constructor
  case toInside => exact hz.of_core (hz.steady.store hw) rfl
  case quiet => exact hz.quiet
  case mem =>
      intro y hy
      have hne : y ≠ x := by
        rintro rfl
        exact hy hx
      rw [← hz.mem y hy]
      exact Local.storeMon_mem_of_ne hw hne
  case seen => exact hsame.1.trans hz.seen
  case spared => exact hsame.2.2.2.trans hz.spared
  case maybe => exact Local.storeMon_maybe.trans hz.maybe
  case stale => exact hsame.2.1.trans hz.stale
  case going => exact Local.storeMon_going.trans hz.going
  case sleeps => exact hsame.2.2.1.trans hz.sleeps

theorem getState (st : ProcState) (hz : Section (.proc p) u z) :
    Section (.proc p) u (z.next (.state p) st) :=
  ⟨hz.toInside.getState st, hz.quiet, hz.mem, hz.seen, hz.spared, hz.maybe, hz.stale, hz.going,
    hz.sleeps⟩

theorem setState (st : ProcState) (hz : Section (.proc p) u z) (hst : st ≠ .zombie)
    (hpre : z.Pre (.setState p st)) : Section (.proc p) u (z.next (.setState p st) ()) := by
  have hmon : (z.next (.setState p st) ()).mon = z.mon := by
    cases st
    case zombie => exact absurd rfl hst
    all_goals rfl
  constructor
  case toInside => exact hz.toInside.setState st hpre
  case quiet => exact hz.quiet
  all_goals rw [hmon]
  case mem => exact hz.mem
  case seen => exact hz.seen
  case spared => exact hz.spared
  case maybe => exact hz.maybe
  case stale => exact hz.stale
  case going => exact hz.going
  case sleeps => exact hz.sleeps

theorem learned (hu : u.Steady) (hz : Section k u z) (hfree : u.core.grip k = .free)
    (hchild : z.core.child = u.core.child) : Learned u (u.back z k) := by
  have hleaves : ∀ j, ¬ z.Leaves k j := fun j h => hz.quiet (.sleep j) h.1.symm
  constructor
  case steady => exact hz.back_steady hu hfree
  case core => rw [Local.back, hchild]
  case mem =>
      have hforget : ∀ x : Loc, (if x.lock = some k then none else z.mon.mem x) = u.mon.mem x := by
        intro x
        split
        case isTrue hx => exact (hu.mem x k hx hfree).symm
        case isFalse hx => exact hz.mem x hx
      funext x
      refine Eq.trans ?_ (hforget x)
      cases x
      case sleepPid j => exact if_neg (hleaves j)
      case data j => exact if_neg (hleaves j)
      all_goals rfl
  case stale =>
      funext ch
      exact (if_neg (hz.quiet ch)).trans (congrFun hz.stale ch)
  case going =>
      funext ch
      rw [← hz.going]
      simp only [Local.back, Local.unlockMon, hz.quiet ch, false_and, decide_false,
        Bool.false_and, Bool.or_false]
      have hgoing : ∀ q, z.mon.going ch = true → z.core.me = .proc q → k ≠ .proc q := by
        rintro q hch hme rfl
        rw [hz.going] at hch
        obtain ⟨q', hq', hheld⟩ := hu.going ch hch
        rw [← hz.me, hme] at hq'
        cases hq'
        exact hheld hfree
      cases hch : z.mon.going ch with
      | false => cases z.core.me <;> simp
      | true =>
          obtain ⟨q, hq, -⟩ := hz.steady.going ch hch
          rw [hq]
          exact if_neg (hgoing q hch hq)
  case sleeps =>
      funext j
      simp [Local.back, Local.unlockMon, hleaves j, hz.sleeps]
  case spared =>
      funext q
      have hk : k ≠ .wait := fun h => hz.quiet (.proc 0) h.symm
      exact (if_neg hk).trans (congrFun hz.spared q)
  case seen =>
      intro q hq
      have hk : k ≠ .wait := fun h => hz.quiet (.proc 0) h.symm
      refine (if_neg hk).trans ?_
      simp [hz.seen, hq]
  case maybe =>
      intro ch q hq
      simp only [Local.back, Local.unlockMon, if_neg (hz.quiet ch), hz.maybe,
        Bool.and_eq_true] at hq
      exact hq.1

end Section

end SyscallSched.Xv6.Smp
