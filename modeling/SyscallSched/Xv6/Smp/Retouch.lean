import SyscallSched.Xv6.Smp.Views

/-!
# The running thread changes what it has

A register, `c->proc`, its grip on a lock or what it knows of a process: nothing changes
for the other threads, and no process changes its state.
-/

namespace SyscallSched.Xv6.Smp

variable {s s' : State} {l : Thread → Core} {c c' : Nat} {t : Thread} {u : Core}

structure Regrips (s s' : State) (l : Thread → Core) (c : Nat) (u : Core) (k : Lock) : Prop where
  others : ∀ c', (l (s.cur c')).grip k ≠ .free → c' = c
  cpu : ∀ c', (s'.lock k).cpu = some c' ↔ c' = c ∧ u.grip k = .held
  locked : (s'.lock k).locked = true ↔ u.grip k ≠ .free

structure Relearns (s : State) (l : Thread → Core) (c : Nat) (u : Core) (p : Nat) : Prop where
  unknown : u.grip (.proc p) = .free → u.state p = none ∧ u.idle p = false
  state : ∀ st, u.state p = some st → s.state p = st
  idle : u.idle p = true → ¬ s.Running (.proc p)
  own : s.cur c = .proc p →
    if u.grip (.proc p) = .free then s.state p = .running else u.state p = some (s.state p)
  picked : s.state p = .running → ¬ s.Running (.proc p) →
    (l (s.cur c)).grip (.proc p) ≠ .free → (l (s.cur c)).idle p = true →
    u.grip (.proc p) ≠ .free ∧ u.idle p = true

structure Retouches (s s' : State) (l : Thread → Core) (c : Nat) (u : Core) : Prop where
  cpu : ∀ c', c' ≠ c → s'.cpu c' = s.cpu c'
  cur : s'.cur c = s.cur c
  state : s'.state = s.state
  me : u.me = (l (s.cur c)).me
  live : u.live = (l (s.cur c)).live
  child : u.child = (l (s.cur c)).child
  proc : (s'.cpu c).proc = if s.cur c = .cpu c then u.cproc else (s.cpu c).proc
  cproc : ∀ p, s.cur c = .proc p → u.cproc = none
  tied : Tied (s'.cpu c) u
  lock : ∀ k, u.grip k = (l (s.cur c)).grip k ∧ s'.lock k = s.lock k ∨ Regrips s s' l c u k
  knows : ∀ p, u.grip (.proc p) = (l (s.cur c)).grip (.proc p) ∧
    u.state p = (l (s.cur c)).state p ∧ u.idle p = (l (s.cur c)).idle p ∨ Relearns s l c u p

namespace Retouches

variable (h : Inv s l) (hr : Retouches s s' l c u)

include hr

theorem cur_eq (c' : Nat) : s'.cur c' = s.cur c' := by
  by_cases hc : c' = c
  · rw [hc, hr.cur]
  · rw [State.cur, hr.cpu c' hc]

theorem running : s'.Running t ↔ s.Running t := by
  simp only [State.Running, hr.cur_eq]

theorem update_me (j : Thread) : (Function.update l (s.cur c) u j).me = (l j).me :=
  view_update (·.me) hr.me j

theorem update_live (j : Thread) : (Function.update l (s.cur c) u j).live = (l j).live :=
  view_update (·.live) hr.live j

theorem update_child (j : Thread) : (Function.update l (s.cur c) u j).child = (l j).child :=
  view_update (·.child) hr.child j

include h

theorem inv_cproc (p : Nat) : (Function.update l (s.cur c) u (.proc p)).cproc = none := by
  by_cases hp : Thread.proc p = s.cur c
  · rw [hp, Function.update_self, hr.cproc p hp.symm]
  · rw [Function.update_of_ne hp, h.cproc p]

theorem inv_sched (c' : Nat) : (Function.update l (s.cur c) u (.cpu c')).live = true ∧
    (s'.cpu c').proc = (Function.update l (s.cur c) u (.cpu c')).cproc := by
  refine ⟨(hr.update_live _).trans (h.sched c').1, ?_⟩
  have hproc := hr.proc
  by_cases hself : Thread.cpu c' = s.cur c
  · have hc : c = c' := h.cur_cpu hself.symm
    subst hc
    rw [hself, Function.update_self]
    rwa [if_pos hself.symm] at hproc
  · rw [Function.update_of_ne hself, ← (h.sched c').2]
    by_cases hc : c' = c
    · subst hc
      rwa [if_neg fun heq => hself heq.symm] at hproc
    · rw [hr.cpu c' hc]

theorem inv_cur (c' : Nat) : s'.cur c' = .cpu c' ∨
    ∃ p, s'.cur c' = .proc p ∧ Core.Away p (Function.update l (s.cur c) u (.cpu c')) := by
  rw [hr.cur_eq]
  obtain hcpu | ⟨p, hp, haway⟩ := h.cur c'
  · exact .inl hcpu
  · refine .inr ⟨p, hp, ?_⟩
    have hne : Thread.cpu c' ≠ s.cur c := by
      intro heq
      rw [h.cur_cpu heq.symm, hp] at heq
      cases heq
    rwa [Function.update_of_ne hne]

theorem inv_live (c' : Nat) : (Function.update l (s.cur c) u (s'.cur c')).live = true := by
  rw [hr.cur_eq, hr.update_live]
  exact h.live c'

theorem inv_tied (c' : Nat) :
    Tied (s'.cpu c') (Function.update l (s.cur c) u (s'.cur c')) := by
  rw [hr.cur_eq]
  by_cases hc : c' = c
  · rw [hc, Function.update_self]
    exact hr.tied
  · rw [h.update_cur hc, hr.cpu c' hc]
    exact h.tied c'

theorem update_grip (c' : Nat) (k : Lock) : (Function.update l (s.cur c) u (s'.cur c')).grip k =
    if c' = c then u.grip k else (l (s.cur c')).grip k := by
  rw [hr.cur_eq]
  by_cases hc : c' = c
  · rw [hc, if_pos rfl, Function.update_self]
  · rw [if_neg hc, h.update_cur hc]

theorem update_grip_of_eq {k : Lock} (hk : u.grip k = (l (s.cur c)).grip k) (c' : Nat) :
    (Function.update l (s.cur c) u (s'.cur c')).grip k = (l (s.cur c')).grip k := by
  rw [hr.update_grip h]
  split
  case isTrue hc => rw [hc, hk]
  case isFalse => rfl

theorem eq_of_regrips {k : Lock} (hk : Regrips s s' l c u k)
    (hgrip : (Function.update l (s.cur c) u (s'.cur c')).grip k ≠ .free) : c' = c := by
  rw [hr.update_grip h] at hgrip
  by_contra hc
  rw [if_neg hc] at hgrip
  exact hc (hk.others c' hgrip)

theorem inv_lockCpu (k : Lock) (c' : Nat) : (s'.lock k).cpu = some c' ↔
    (Function.update l (s.cur c) u (s'.cur c')).grip k = .held := by
  obtain ⟨hgrip, hlock⟩ | hk := hr.lock k
  · rw [hr.update_grip_of_eq h hgrip, hlock]
    exact h.lockCpu k c'
  · rw [hk.cpu]
    constructor
    · rintro ⟨rfl, hheld⟩
      rwa [hr.update_grip h, if_pos rfl]
    · intro hheld
      have hc : c' = c := hr.eq_of_regrips h hk (by simp [hheld])
      rw [hr.update_grip h, if_pos hc] at hheld
      exact ⟨hc, hheld⟩

theorem inv_locked (k : Lock) : (s'.lock k).locked = true ↔
    ∃ c', (Function.update l (s.cur c) u (s'.cur c')).grip k ≠ .free := by
  obtain ⟨hgrip, hlock⟩ | hk := hr.lock k
  · simp only [hr.update_grip_of_eq h hgrip, hlock]
    exact h.locked k
  · rw [hk.locked]
    constructor
    · intro hgrip
      exact ⟨c, by rwa [hr.update_grip h, if_pos rfl]⟩
    · rintro ⟨c', hgrip⟩
      have hc : c' = c := hr.eq_of_regrips h hk hgrip
      rwa [hr.update_grip h, if_pos hc] at hgrip

theorem inv_holder (k : Lock) (c₁ c₂ : Nat)
    (h₁ : (Function.update l (s.cur c) u (s'.cur c₁)).grip k ≠ .free)
    (h₂ : (Function.update l (s.cur c) u (s'.cur c₂)).grip k ≠ .free) : c₁ = c₂ := by
  obtain ⟨hgrip, -⟩ | hk := hr.lock k
  · rw [hr.update_grip_of_eq h hgrip] at h₁ h₂
    exact h.holder k c₁ c₂ h₁ h₂
  · rw [hr.eq_of_regrips h hk h₁, hr.eq_of_regrips h hk h₂]

theorem inv_unknown (t : Thread) (p : Nat)
    (hlive : (Function.update l (s.cur c) u t).live = true)
    (hgrip : (Function.update l (s.cur c) u t).grip (.proc p) = .free) :
    (Function.update l (s.cur c) u t).state p = none ∧
      (Function.update l (s.cur c) u t).idle p = false := by
  by_cases ht : t = s.cur c
  · subst ht
    rw [Function.update_self] at hgrip ⊢
    obtain ⟨hsame, hstate, hidle⟩ | hp := hr.knows p
    · rw [hstate, hidle]
      exact h.unknown _ p (h.live c) (hsame ▸ hgrip)
    · exact hp.unknown hgrip
  · rw [Function.update_of_ne ht] at hlive hgrip ⊢
    exact h.unknown t p hlive hgrip

theorem inv_state (c' p : Nat) (st : ProcState)
    (hst : (Function.update l (s.cur c) u (s'.cur c')).state p = some st) : s'.state p = st := by
  rw [hr.cur_eq] at hst
  rw [hr.state]
  by_cases hc : c' = c
  · rw [hc, Function.update_self] at hst
    obtain ⟨-, hstate, -⟩ | hp := hr.knows p
    · exact h.state c p st (hstate ▸ hst)
    · exact hp.state st hst
  · rw [h.update_cur hc] at hst
    exact h.state c' p st hst

theorem inv_idle (c' p : Nat)
    (hidle : (Function.update l (s.cur c) u (s'.cur c')).idle p = true) :
    ¬ s'.Running (.proc p) := by
  rw [hr.cur_eq] at hidle
  rw [hr.running]
  by_cases hc : c' = c
  · rw [hc, Function.update_self] at hidle
    obtain ⟨-, -, hsame⟩ | hp := hr.knows p
    · exact h.idle c p (hsame ▸ hidle)
    · exact hp.idle hidle
  · rw [h.update_cur hc] at hidle
    exact h.idle c' p hidle

theorem inv_own (p : Nat) (hp : s'.Running (.proc p)) :
    if (Function.update l (s.cur c) u (.proc p)).grip (.proc p) = .free then s'.state p = .running
    else (Function.update l (s.cur c) u (.proc p)).state p = some (s'.state p) ∧
      s'.state p ≠ .unused ∧ s'.state p ≠ .used := by
  rw [hr.running] at hp
  rw [hr.state]
  have hold := h.own p hp
  by_cases hself : Thread.proc p = s.cur c
  · rw [hself] at hold ⊢
    rw [Function.update_self]
    obtain ⟨hgrip, hstate, -⟩ | hnew := hr.knows p
    · rwa [hgrip, hstate]
    · have hown := hnew.own hself.symm
      split
      case isTrue hfree => rwa [if_pos hfree] at hown
      case isFalse hheld =>
          rw [if_neg hheld] at hown
          exact ⟨hown, h.state_of_running hp⟩
  · rwa [Function.update_of_ne hself]

theorem inv_resting (p : Nat) (hp : ¬ s'.Running (.proc p)) :
    Resting p (Function.update l (s.cur c) u (.proc p)) (s'.state p) := by
  rw [hr.running] at hp
  rw [hr.state, Function.update_of_ne fun heq => hp ⟨c, heq.symm⟩]
  exact h.resting p hp

theorem inv_picked (p : Nat) (hp : s'.state p = .running) (hnot : ¬ s'.Running (.proc p)) :
    ∃ c', (Function.update l (s.cur c) u (s'.cur c')).grip (.proc p) ≠ .free ∧
      (Function.update l (s.cur c) u (s'.cur c')).idle p = true := by
  rw [hr.running] at hnot
  rw [hr.state] at hp
  obtain ⟨c', hgrip, hidle⟩ := h.picked p hp hnot
  refine ⟨c', ?_⟩
  rw [hr.cur_eq]
  by_cases hc : c' = c
  · subst hc
    rw [Function.update_self]
    obtain ⟨hgrip', -, hidle'⟩ | hnew := hr.knows p
    · rw [hgrip', hidle']
      exact ⟨hgrip, hidle⟩
    · exact hnew.picked hp hnot hgrip hidle
  · rw [h.update_cur hc]
    exact ⟨hgrip, hidle⟩

end Retouches

theorem Inv.retouch (h : Inv s l) (hr : Retouches s s' l c u) :
    Inv s' (Function.update l (s.cur c) u) where
  me t := (hr.update_me t).trans (h.me t)
  cproc := hr.inv_cproc h
  sched := hr.inv_sched h
  cur := hr.inv_cur h
  once := by simpa only [hr.cur_eq] using h.once
  live := hr.inv_live h
  tied := hr.inv_tied h
  lockCpu := hr.inv_lockCpu h
  locked := hr.inv_locked h
  holder := hr.inv_holder h
  unknown := hr.inv_unknown h
  state := hr.inv_state h
  idle := hr.inv_idle h
  own := hr.inv_own h
  resting := hr.inv_resting h
  picked := hr.inv_picked h
  child := by simpa only [hr.update_live, hr.update_child, hr.state] using h.child
  parent := by simpa only [hr.update_live, hr.update_child] using h.parent
  bound := by simpa only [hr.state] using h.bound

/-! ## Registers -/

theorem Inv.registers (h : Inv s l) {v : Cpu} (hcur : v.cur = s.cur c)
    (hproc : v.proc = (s.cpu c).proc)
    (hu : u = { l (s.cur c) with
      noff := u.noff
      intena := u.intena
      sie := u.sie
      prev := u.prev })
    (htied : Tied v u) : Inv (s.setCpu c v) (Function.update l (s.cur c) u) := by
  have hcproc : u.cproc = (l (s.cur c)).cproc := by rw [hu]
  apply h.retouch
  constructor
  case cpu => exact fun c' hc => setCpu_cpu_of_ne hc
  case cur => exact setCpu_cur hcur c
  case state => rfl
  case me => rw [hu]
  case live => rw [hu]
  case child => rw [hu]
  case proc =>
      rw [setCpu_cpu_self, hproc, hcproc]
      split
      case isTrue hself => rw [(h.sched c).2, hself]
      case isFalse => rfl
  case cproc =>
      intro p hp
      rw [hcproc, hp, h.cproc]
  case tied => rwa [setCpu_cpu_self]
  case lock => exact fun k => .inl ⟨by rw [hu], rfl⟩
  case knows => exact fun p => .inl ⟨by rw [hu], by rw [hu], by rw [hu]⟩

theorem Inv.setCproc (h : Inv s l) {p : Option Nat} (hsie : (l (s.cur c)).sie = false)
    (hcpu : ∃ c', s.cur c = .cpu c') :
    Inv (s.setCpu c { s.cpu c with proc := p })
      (Function.update l (s.cur c) { l (s.cur c) with cproc := p }) := by
  have hself : s.cur c = .cpu c := by
    obtain ⟨c', hc'⟩ := hcpu
    rw [hc', h.cur_cpu hc']
  have htied := h.tied c
  apply h.retouch
  constructor
  case cpu => exact fun c' hc => setCpu_cpu_of_ne hc
  case cur => exact setCpu_cur_self
  case proc => rw [setCpu_cpu_self, if_pos hself]
  case cproc =>
      intro q hq
      rw [hself] at hq
      cases hq
  case tied =>
      rw [setCpu_cpu_self]
      exact ⟨htied.noff, htied.sie, htied.intena, htied.prev, by simp [hsie]⟩
  case lock => exact fun k => .inl ⟨rfl, rfl⟩
  case knows => exact fun q => .inl ⟨rfl, rfl, rfl⟩
  all_goals rfl

/-! ## Spinlocks -/

/-- The running thread changes its grip `g` on the lock `k`, and with it what it knows of
the process that `k` guards. -/
theorem Inv.relock (h : Inv s l) {k : Lock} {v : Spinlock} {g : Grip}
    {st : Nat → Option ProcState} {id : Nat → Bool} (hsie : (l (s.cur c)).sie = false)
    (hothers : ∀ c', (l (s.cur c')).grip k ≠ .free → c' = c)
    (hcpu : ∀ c', v.cpu = some c' ↔ c' = c ∧ g = .held)
    (hlocked : v.locked = true ↔ g ≠ .free)
    (hsame : ∀ q, k ≠ .proc q → st q = (l (s.cur c)).state q ∧ id q = (l (s.cur c)).idle q)
    (hfree : ∀ q, k = .proc q → g = .free → st q = none ∧ id q = false)
    (hst : ∀ q x, k = .proc q → st q = some x → s.state q = x)
    (hid : ∀ q, k = .proc q → id q = true → ¬ s.Running (.proc q))
    (hown : ∀ q, k = .proc q → s.cur c = .proc q →
      if g = .free then s.state q = .running else st q = some (s.state q))
    (hpicked : ∀ q, k = .proc q → s.state q = .running → ¬ s.Running (.proc q) →
      g ≠ .free ∧ id q = true) :
    Inv (s.setLock k v) (Function.update l (s.cur c)
      { l (s.cur c) with
        grip := Function.update (l (s.cur c)).grip k g
        state := st
        idle := id }) := by
  have htied := h.tied c
  apply h.retouch
  constructor
  case proc =>
      split
      case isTrue hself => rw [setLock_cpu, (h.sched c).2, hself]
      case isFalse => rfl
  case cproc =>
      intro p hp
      rw [hp, h.cproc]
  case tied => exact ⟨htied.noff, htied.sie, htied.intena, htied.prev, by simp [hsie]⟩
  case lock =>
      intro k'
      by_cases hk : k' = k
      · subst hk
        exact .inr ⟨hothers, by simpa [State.setLock] using hcpu,
          by simpa [State.setLock] using hlocked⟩
      · exact .inl ⟨by simp [hk], by simp [State.setLock, hk]⟩
  case knows =>
      intro p
      by_cases hk : k = .proc p
      · subst hk
        right
        constructor
        case unknown => simpa using hfree p rfl
        case state => exact fun x => hst p x rfl
        case idle => exact hid p rfl
        case own => simpa using hown p rfl
        case picked => simpa using fun hp hnot _ _ => hpicked p rfl hp hnot
      · exact .inl ⟨by simp [Ne.symm hk], hsame p hk⟩
  all_goals intros; rfl

theorem Inv.learn (h : Inv s l) {p : Nat} (hgrip : (l (s.cur c)).grip (.proc p) ≠ .free)
    {id : Nat → Bool}
    (hid : ∀ q, id q = (l (s.cur c)).idle q ∨
      q = p ∧ s.cur c ≠ .proc p ∧ s.state p ≠ .running ∧ id q = true) :
    Inv s (Function.update l (s.cur c)
      { l (s.cur c) with
        state := Function.update (l (s.cur c)).state p (some (s.state p))
        idle := id }) := by
  have htied := h.tied c
  apply h.retouch
  constructor
  case proc =>
      split
      case isTrue hself => rw [(h.sched c).2, hself]
      case isFalse => rfl
  case cproc =>
      intro q hq
      rw [hq, h.cproc]
  case tied =>
      refine ⟨htied.noff, htied.sie, htied.intena, htied.prev, ?_⟩
      simp [h.sie_of_grip hgrip]
  case lock => exact fun k => .inl ⟨rfl, rfl⟩
  case knows =>
      intro q
      by_cases hq : q = p
      · subst hq
        right
        constructor
        case unknown => exact fun hfree => absurd hfree hgrip
        case state => simp
        case idle =>
            intro hnew
            obtain hold | ⟨-, hother, hst, -⟩ := hid q
            · exact h.idle c q (hold ▸ hnew)
            · exact h.not_running_of_state hgrip hother hst
        case own => simp [hgrip]
        case picked =>
            intro _ _ _ hidle
            refine ⟨hgrip, ?_⟩
            obtain hold | ⟨-, -, -, hnew⟩ := hid q
            · exact hold.trans hidle
            · exact hnew
      · refine .inl ⟨rfl, by simp [hq], ?_⟩
        obtain hold | ⟨rfl, -⟩ := hid q
        · exact hold
        · exact absurd rfl hq
  all_goals intros; rfl

end SyscallSched.Xv6.Smp
