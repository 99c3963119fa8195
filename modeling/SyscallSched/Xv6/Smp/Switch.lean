import SyscallSched.Xv6.Smp.States

/-!
# Switches between the scheduler and the processes

Both ways a CPU goes from one thread to another with the lock of one process, which both
threads hold.
-/

namespace SyscallSched.Xv6.Smp

variable {s : State} {l : Thread → Core} {c c' p : Nat} {r : Thread} {u w : Core} {v : Cpu}

theorem Inv.only_unknown (h : Inv s l) {p q : Nat} (honly : (l (s.cur c)).Only p) (hq : q ≠ p) :
    (l (s.cur c)).state q = none ∧ (l (s.cur c)).idle q = false :=
  h.unknown _ q (h.live c) (honly.2 _ fun heq => hq (Lock.proc.inj heq))

theorem only_grip {u w : Core} {p : Nat} (hu : u.Only p) (hw : w.Only p) (k : Lock) :
    u.grip k = w.grip k := by
  by_cases hk : k = .proc p
  · rw [hk, hu.1, hw.1]
  · rw [hu.2 k hk, hw.2 k hk]

structure Core.AtSwitch (p : Nat) (u : Core) : Prop where
  noff : u.noff = 1
  sie : u.sie = false
  only : u.Only p

/-- The CPU `c` leaves the thread that it runs, which has `u` afterwards, and goes on with
the thread `r`. -/
structure Switches (s : State) (l : Thread → Core) (c p : Nat) (r : Thread) (u : Core)
    (v : Cpu) : Prop where
  cpu : v = { s.cpu c with cur := r }
  old : (l (s.cur c)).AtSwitch p
  new : (l r).AtSwitch p
  live : (l r).live = true
  intena : (l r).intena = none
  prev : (l r).prev = none
  idle : ∀ q, (l r).idle q = false
  state : ∀ q st, (l r).state q = some st → s.state q = st
  ne : r ≠ s.cur c
  me : u.me = (l (s.cur c)).me
  cproc : u.cproc = (l (s.cur c)).cproc
  child : u.child = (l (s.cur c)).child
  grip : u.grip = (l (s.cur c)).grip
  unknown : ∀ q, q ≠ p → u.state q = none ∧ u.idle q = false

namespace Switches

variable (h : Inv s l) (hs : Switches s l c p r u v)

include hs

theorem cur_self : (s.setCpu c v).cur c = r := by
  rw [setCpu_cur_self, hs.cpu]

theorem update_new : Function.update l (s.cur c) u r = l r := Function.update_of_ne hs.ne _ _

theorem update_me (j : Thread) : (Function.update l (s.cur c) u j).me = (l j).me :=
  view_update (·.me) hs.me j

theorem update_cproc (j : Thread) : (Function.update l (s.cur c) u j).cproc = (l j).cproc :=
  view_update (·.cproc) hs.cproc j

theorem update_child (j : Thread) : (Function.update l (s.cur c) u j).child = (l j).child :=
  view_update (·.child) hs.child j

theorem update_grip (j : Thread) : (Function.update l (s.cur c) u j).grip = (l j).grip :=
  view_update (·.grip) hs.grip j

theorem proc_eq (c' : Nat) : ((s.setCpu c v).cpu c').proc = (s.cpu c').proc := by
  by_cases hc : c' = c
  · rw [hc, setCpu_cpu_self, hs.cpu]
  · rw [setCpu_cpu_of_ne hc]

theorem grips (c' : Nat) (k : Lock) :
    (Function.update l (s.cur c) u ((s.setCpu c v).cur c')).grip k = (l (s.cur c')).grip k := by
  by_cases hc : c' = c
  · rw [hc, hs.cur_self, hs.update_new]
    exact only_grip hs.new.only hs.old.only k
  · rw [setCpu_cur_of_ne hc, hs.update_grip]

theorem ne_of_idle {q : Nat}
    (hidle : (Function.update l (s.cur c) u ((s.setCpu c v).cur c')).idle q = true) : c' ≠ c := by
  rintro rfl
  rw [hs.cur_self, hs.update_new, hs.idle] at hidle
  cases hidle

include h

theorem inv_live (c' : Nat) :
    (Function.update l (s.cur c) u ((s.setCpu c v).cur c')).live = true := by
  by_cases hc : c' = c
  · rw [hc, hs.cur_self, hs.update_new]
    exact hs.live
  · rw [setCpu_cur_of_ne hc, h.update_cur hc]
    exact h.live c'

theorem inv_tied (c' : Nat) : Tied ((s.setCpu c v).cpu c')
    (Function.update l (s.cur c) u ((s.setCpu c v).cur c')) := by
  by_cases hc : c' = c
  · subst hc
    have htied := h.tied c'
    rw [hs.cur_self, hs.update_new, setCpu_cpu_self, hs.cpu]
    constructor
    case noff => rw [hs.new.noff, ← hs.old.noff, htied.noff]
    case sie => rw [hs.new.sie, ← hs.old.sie, htied.sie]
    case intena => simp [hs.intena]
    case prev => simp [hs.prev]
    case on => simp [hs.new.sie]
  · rw [setCpu_cur_of_ne hc, h.update_cur hc, setCpu_cpu_of_ne hc]
    exact h.tied c'

theorem inv_state (c' q : Nat) (st : ProcState)
    (hst : (Function.update l (s.cur c) u ((s.setCpu c v).cur c')).state q = some st) :
    s.state q = st := by
  by_cases hc : c' = c
  · rw [hc, hs.cur_self, hs.update_new] at hst
    exact hs.state q st hst
  · rw [setCpu_cur_of_ne hc, h.update_cur hc] at hst
    exact h.state c' q st hst

theorem inv_unknown (t : Thread) (q : Nat) (hlive : (Function.update l (s.cur c) u t).live = true)
    (hgrip : (Function.update l (s.cur c) u t).grip (.proc q) = .free) :
    (Function.update l (s.cur c) u t).state q = none ∧
      (Function.update l (s.cur c) u t).idle q = false := by
  rw [hs.update_grip] at hgrip
  by_cases ht : t = s.cur c
  · subst ht
    rw [Function.update_self]
    apply hs.unknown
    rintro rfl
    rw [hs.old.only.1] at hgrip
    cases hgrip
  · rw [Function.update_of_ne ht] at hlive ⊢
    exact h.unknown t q hlive hgrip

theorem idle_of_idle {q : Nat}
    (hidle : (Function.update l (s.cur c) u ((s.setCpu c v).cur c')).idle q = true) :
    c' ≠ c ∧ (l (s.cur c')).idle q = true := by
  have hc := hs.ne_of_idle hidle
  rw [setCpu_cur_of_ne hc, h.update_cur hc] at hidle
  exact ⟨hc, hidle⟩

theorem picked_of_ne {q : Nat} (hq : q ≠ p) (hgrip : (l (s.cur c')).grip (.proc q) ≠ .free)
    (hidle : (l (s.cur c')).idle q = true) :
    (Function.update l (s.cur c) u ((s.setCpu c v).cur c')).grip (.proc q) ≠ .free ∧
      (Function.update l (s.cur c) u ((s.setCpu c v).cur c')).idle q = true := by
  have hc : c' ≠ c := by
    rintro rfl
    rw [(h.only_unknown hs.old.only hq).2] at hidle
    cases hidle
  refine ⟨by rwa [hs.grips], ?_⟩
  rwa [setCpu_cur_of_ne hc, h.update_cur hc]

end Switches

/-! ## From the scheduler to a process -/

section

variable (h : Inv s l) (hcpu : s.cur c = .cpu c) (hs : Switches s l c p (.proc p) u v)

include hcpu in
theorem swtchTo_proc (q : Nat) : Function.update l (s.cur c) u (.proc q) = l (.proc q) :=
  Function.update_of_ne (by simp [hcpu]) _ _

include hcpu hs in
theorem Switches.running_proc (q : Nat) :
    (s.setCpu c v).Running (.proc q) ↔ q = p ∨ s.Running (.proc q) := by
  constructor
  · rintro ⟨c', hc'⟩
    by_cases hc : c' = c
    · rw [hc, hs.cur_self] at hc'
      exact .inl (Thread.proc.inj hc'.symm)
    · rw [setCpu_cur_of_ne hc] at hc'
      exact .inr ⟨c', hc'⟩
  · rintro (rfl | ⟨c', hc'⟩)
    · exact ⟨c, hs.cur_self⟩
    · refine ⟨c', ?_⟩
      rw [setCpu_cur_of_ne, hc']
      rintro rfl
      rw [hcpu] at hc'
      cases hc'

include h hcpu hs in
theorem Inv.swtchTo_cur (haway : Core.Away p u) (c' : Nat) : (s.setCpu c v).cur c' = .cpu c' ∨
    ∃ q, (s.setCpu c v).cur c' = .proc q ∧
      Core.Away q (Function.update l (s.cur c) u (.cpu c')) := by
  by_cases hc : c' = c
  · subst hc
    refine .inr ⟨p, hs.cur_self, ?_⟩
    rwa [hcpu, Function.update_self]
  · rw [setCpu_cur_of_ne hc]
    obtain hcpu' | ⟨q, hq, haway'⟩ := h.cur c'
    · exact .inl hcpu'
    · refine .inr ⟨q, hq, ?_⟩
      rwa [Function.update_of_ne]
      rw [hcpu]
      exact fun heq => hc (Thread.cpu.inj heq)

include h hs in
theorem Inv.swtchTo_once (hnot : ¬ s.Running (.proc p)) (c₁ c₂ q : Nat)
    (h₁ : (s.setCpu c v).cur c₁ = .proc q) (h₂ : (s.setCpu c v).cur c₂ = .proc q) : c₁ = c₂ := by
  have hother : ∀ c', c' ≠ c → (s.setCpu c v).cur c' ≠ .proc p := by
    intro c' hc hp
    rw [setCpu_cur_of_ne hc] at hp
    exact hnot ⟨c', hp⟩
  by_cases hq : q = p
  · subst hq
    have hself : ∀ c', (s.setCpu c v).cur c' = .proc q → c' = c := by
      intro c' hc'
      by_contra hc
      exact hother c' hc hc'
    rw [hself c₁ h₁, hself c₂ h₂]
  · have hne : ∀ c', (s.setCpu c v).cur c' = .proc q → c' ≠ c := by
      rintro c' hc' rfl
      rw [hs.cur_self] at hc'
      exact hq (Thread.proc.inj hc').symm
    rw [setCpu_cur_of_ne (hne c₁ h₁)] at h₁
    rw [setCpu_cur_of_ne (hne c₂ h₂)] at h₂
    exact h.once c₁ c₂ q h₁ h₂

end

theorem Inv.swtchTo (h : Inv s l) {p : Nat} (hcpu : ∃ c', s.cur c = .cpu c')
    (hnoff : (l (s.cur c)).noff = 1) (hsie : (l (s.cur c)).sie = false)
    (honly : (l (s.cur c)).Only p) (hcproc : (l (s.cur c)).cproc = some p)
    (hidle : (l (s.cur c)).idle p = true) (hst : (l (s.cur c)).state p = some .running) :
    Inv (s.setCpu c { s.cpu c with cur := .proc p })
      (Function.update l (s.cur c) ((l (s.cur c)).away p)) := by
  have hself : s.cur c = .cpu c := by
    obtain ⟨c', hc'⟩ := hcpu
    rw [hc', h.cur_cpu hc']
  have hnot := h.idle c p hidle
  have hrunning := h.state c p _ hst
  have hparked : Core.Parked p (l (.proc p)) := by
    have hrest := h.resting p hnot
    rwa [hrunning] at hrest
  have hunknown : ∀ q, ((l (s.cur c)).away p).state q = none ∧
      ((l (s.cur c)).away p).idle q = false := by
    intro q
    by_cases hq : q = p
    · simp [Core.away, hq]
    · simpa [Core.away, hq] using h.only_unknown honly hq
  have haway : Core.Away p ((l (s.cur c)).away p) :=
    ⟨h.live c, hnoff, rfl, hsie, rfl, honly, hcproc, fun q => (hunknown q).1,
      fun q => (hunknown q).2⟩
  have hnew : ∀ q st, (l (.proc p)).state q = some st → s.state q = st := by
    intro q st hq
    by_cases hqp : q = p
    · rw [hqp, hparked.state] at hq
      rw [hqp, hrunning]
      exact Option.some.inj hq
    · rw [(h.unknown _ q hparked.live (hparked.only.2 _ fun heq => hqp (Lock.proc.inj heq))).1]
        at hq
      cases hq
  have hs : Switches s l c p (.proc p) ((l (s.cur c)).away p) { s.cpu c with cur := .proc p } :=
    { cpu := rfl, old := ⟨hnoff, hsie, honly⟩, new := ⟨hparked.noff, hparked.sie, hparked.only⟩
      live := hparked.live, intena := hparked.intena, prev := hparked.prev, idle := hparked.idle
      state := hnew, ne := by simp [hself], me := rfl, cproc := rfl, child := rfl, grip := rfl
      unknown := fun q _ => hunknown q }
  have hrun := hs.running_proc hself
  have hproc := swtchTo_proc (l := l) (u := (l (s.cur c)).away p) hself
  have hlive := view_update (l := l) (t := s.cur c) (u := (l (s.cur c)).away p) (·.live) rfl
  constructor
  case me => simpa only [hs.update_me] using h.me
  case cproc => simpa only [hs.update_cproc] using h.cproc
  case sched => simpa only [hlive, hs.update_cproc, hs.proc_eq] using h.sched
  case cur => exact h.swtchTo_cur hself hs haway
  case once => exact h.swtchTo_once hs hnot
  case live => exact hs.inv_live h
  case tied => exact hs.inv_tied h
  case lockCpu => simpa only [hs.grips, setCpu_lock] using h.lockCpu
  case locked => simpa only [hs.grips, setCpu_lock] using h.locked
  case holder => simpa only [hs.grips] using h.holder
  case unknown => exact hs.inv_unknown h
  case state => exact hs.inv_state h
  case idle =>
      intro c' q hx
      obtain ⟨hc, hx'⟩ := hs.idle_of_idle h hx
      rw [hrun]
      rintro (rfl | hq)
      · exact hc (h.holder _ _ _ (h.grip_of_idle hx') (h.grip_of_idle hidle))
      · exact h.idle c' q hx' hq
  case own =>
      intro q hq
      rw [hproc]
      by_cases hqp : q = p
      · subst hqp
        rw [hparked.only.1, if_neg (by simp), setCpu_state, hrunning, hparked.state]
        simp
      · rw [hrun] at hq
        exact h.own q (hq.resolve_left hqp)
  case resting =>
      intro q hq
      rw [hproc]
      rw [hrun] at hq
      exact h.resting q fun hq' => hq (.inr hq')
  case picked =>
      intro q hq hrest
      rw [hrun] at hrest
      obtain ⟨c', hg, hi⟩ := h.picked q hq fun hq' => hrest (.inr hq')
      exact ⟨c', hs.picked_of_ne h (fun heq => hrest (.inl heq)) hg hi⟩
  case child => simpa only [hlive, hs.update_child, setCpu_state] using h.child
  case parent => simpa only [hlive, hs.update_child] using h.parent
  case bound => exact h.bound

/-! ## From a process to the scheduler -/

section

variable (h : Inv s l) (hme : s.cur c = .proc p) (hs : Switches s l c p (.cpu c) u v)

include hme in
theorem swtchBack_cpu (c' : Nat) : Function.update l (s.cur c) u (.cpu c') = l (.cpu c') :=
  Function.update_of_ne (by simp [hme]) _ _

include hme in
theorem swtchBack_proc {q : Nat} (hq : q ≠ p) :
    Function.update l (s.cur c) u (.proc q) = l (.proc q) :=
  Function.update_of_ne (by simpa [hme] using hq) _ _

include h hme hs in
theorem Inv.swtchBack_running (q : Nat) :
    (s.setCpu c v).Running (.proc q) ↔ q ≠ p ∧ s.Running (.proc q) := by
  constructor
  · rintro ⟨c', hc'⟩
    have hc : c' ≠ c := by
      rintro rfl
      rw [hs.cur_self] at hc'
      cases hc'
    rw [setCpu_cur_of_ne hc] at hc'
    refine ⟨?_, c', hc'⟩
    rintro rfl
    exact hc (h.cur_inj (hc'.trans hme.symm))
  · rintro ⟨hq, c', hc'⟩
    refine ⟨c', ?_⟩
    rw [setCpu_cur_of_ne, hc']
    rintro rfl
    rw [hme] at hc'
    exact hq (Thread.proc.inj hc'.symm)

include h hme hs in
theorem Inv.swtchBack_cur (c' : Nat) : (s.setCpu c v).cur c' = .cpu c' ∨
    ∃ q, (s.setCpu c v).cur c' = .proc q ∧
      Core.Away q (Function.update l (s.cur c) u (.cpu c')) := by
  rw [swtchBack_cpu hme]
  by_cases hc : c' = c
  · subst hc
    exact .inl hs.cur_self
  · rw [setCpu_cur_of_ne hc]
    exact h.cur c'

include h hs in
theorem Inv.swtchBack_once (c₁ c₂ q : Nat) (h₁ : (s.setCpu c v).cur c₁ = .proc q)
    (h₂ : (s.setCpu c v).cur c₂ = .proc q) : c₁ = c₂ := by
  have hc : ∀ c', (s.setCpu c v).cur c' = .proc q → c' ≠ c := by
    rintro c' hq rfl
    rw [hs.cur_self] at hq
    cases hq
  rw [setCpu_cur_of_ne (hc c₁ h₁)] at h₁
  rw [setCpu_cur_of_ne (hc c₂ h₂)] at h₂
  exact h.once c₁ c₂ q h₁ h₂

end

theorem Core.parked_view {β : Type} (f : Core → β)
    (hf : ∀ w live intena prev state, f { w with
      live := live
      intena := intena
      prev := prev
      state := state } = f w) : f (u.parked p) = f u := by
  unfold Core.parked
  split
  · exact hf u false u.intena u.prev u.state
  · exact hf u u.live none none (Function.update u.state p (some .running))

theorem Core.parked_state_of_ne {q : Nat} (hq : q ≠ p) : (u.parked p).state q = u.state q := by
  unfold Core.parked
  split
  · rfl
  · simp [hq]

/-- A process that has left its CPU rests as its state says. -/
theorem Inv.resting_parked (h : Inv s l) (hrun : s.Running (.proc p))
    (hold : (l (s.cur c)).AtSwitch p)
    (hst : (l (s.cur c)).state p = some .runnable ∨ (l (s.cur c)).state p = some .sleeping ∨
      (l (s.cur c)).state p = some .zombie ∧ (l (s.cur c)).child = none) :
    Resting p ((l (s.cur c)).parked p) (s.state p) := by
  have hidle : ∀ q, (l (s.cur c)).idle q = false := by
    intro q
    by_cases hq : q = p
    · subst hq
      cases hi : (l (s.cur c)).idle q with
      | false => rfl
      | true => exact absurd hrun (h.idle c q hi)
    · exact (h.only_unknown hold.only hq).2
  rw [Core.parked]
  obtain hx | hx | ⟨hx, -⟩ := hst
  case inr.inr =>
      rw [h.state c p _ hx, hx]
      simp [Resting]
  all_goals
    rw [h.state c p _ hx, hx]
    simp only [reduceCtorEq, Option.some.injEq, if_false]
    exact ⟨h.live c, hold.noff, rfl, hold.sie, rfl, hold.only, by simp, hidle⟩

theorem Inv.swtchBack (h : Inv s l) {p : Nat} (hme : s.cur c = .proc p)
    (hnoff : (l (s.cur c)).noff = 1) (hsie : (l (s.cur c)).sie = false)
    (honly : (l (s.cur c)).Only p)
    (hst : (l (s.cur c)).state p = some .runnable ∨ (l (s.cur c)).state p = some .sleeping ∨
      (l (s.cur c)).state p = some .zombie ∧ (l (s.cur c)).child = none) :
    Inv (s.setCpu c { s.cpu c with cur := .cpu c })
      (Function.update l (s.cur c) ((l (s.cur c)).parked p)) := by
  have hrunp : s.Running (.proc p) := ⟨c, hme⟩
  have hold : (l (s.cur c)).AtSwitch p := ⟨hnoff, hsie, honly⟩
  have haway : Core.Away p (l (.cpu c)) := by
    obtain hcpu | ⟨q, hq, haway⟩ := h.cur c
    · rw [hme] at hcpu
      cases hcpu
    · rw [hme] at hq
      rwa [Thread.proc.inj hq]
  have hstate : s.state p ≠ .running ∧ s.state p ≠ .used := by
    obtain hx | hx | ⟨hx, -⟩ := hst
    all_goals
      rw [h.state c p _ hx]
      simp
  have hidleu : ((l (s.cur c)).parked p).idle = (l (s.cur c)).idle :=
    Core.parked_view (·.idle) fun _ _ _ _ _ => rfl
  have hs : Switches s l c p (.cpu c) ((l (s.cur c)).parked p) { s.cpu c with cur := .cpu c } :=
    { cpu := rfl, old := hold, new := ⟨haway.noff, haway.sie, haway.only⟩, live := haway.live
      intena := haway.intena, prev := haway.prev, idle := haway.idle
      state := by simp [haway.state], ne := by simp [hme]
      me := Core.parked_view (·.me) fun _ _ _ _ _ => rfl
      cproc := Core.parked_view (·.cproc) fun _ _ _ _ _ => rfl
      child := Core.parked_view (·.child) fun _ _ _ _ _ => rfl
      grip := Core.parked_view (·.grip) fun _ _ _ _ _ => rfl
      unknown := by
        intro q hq
        rw [hidleu, Core.parked_state_of_ne hq]
        exact h.only_unknown honly hq }
  have hrun := h.swtchBack_running hme hs
  have hlive : ∀ t, (Function.update l (s.cur c) ((l (s.cur c)).parked p) t).live = true →
      (l t).live = true := by
    intro t ht
    by_cases htc : t = s.cur c
    · rw [htc]
      exact h.live c
    · rwa [Function.update_of_ne htc] at ht
  constructor
  case me => simpa only [hs.update_me] using h.me
  case cproc => simpa only [hs.update_cproc] using h.cproc
  case sched => simpa only [swtchBack_cpu hme, hs.proc_eq] using h.sched
  case cur => exact h.swtchBack_cur hme hs
  case once => exact h.swtchBack_once hs
  case live => exact hs.inv_live h
  case tied => exact hs.inv_tied h
  case lockCpu => simpa only [hs.grips, setCpu_lock] using h.lockCpu
  case locked => simpa only [hs.grips, setCpu_lock] using h.locked
  case holder => simpa only [hs.grips] using h.holder
  case unknown => exact hs.inv_unknown h
  case state => exact hs.inv_state h
  case idle =>
      intro c' q hx
      rw [hrun]
      exact fun hq => h.idle c' q (hs.idle_of_idle h hx).2 hq.2
  case own =>
      intro q hq
      rw [hrun] at hq
      rw [swtchBack_proc hme hq.1]
      exact h.own q hq.2
  case resting =>
      intro q hq
      rw [hrun] at hq
      by_cases hqp : q = p
      · subst hqp
        rw [← hme, Function.update_self]
        exact h.resting_parked hrunp hold hst
      · rw [swtchBack_proc hme hqp]
        exact h.resting q fun hq' => hq ⟨hqp, hq'⟩
  case picked =>
      intro q hq hrest
      rw [hrun] at hrest
      have hqp : q ≠ p := by
        rintro rfl
        exact hstate.1 hq
      obtain ⟨c', hg, hi⟩ := h.picked q hq fun hq' => hrest ⟨hqp, hq'⟩
      exact ⟨c', hs.picked_of_ne h hqp hg hi⟩
  case child =>
      intro t q b hlt hq
      rw [hs.update_child] at hq
      have hchild := h.child t q b (hlive t hlt) hq
      refine ⟨hchild.1, ?_⟩
      rw [swtchBack_proc hme]
      · exact hchild.2
      · rintro rfl
        exact hstate.2 hchild.1
  case parent =>
      intro t t' q b b' hlt hlt' hq hq'
      rw [hs.update_child] at hq hq'
      exact h.parent t t' q b b' (hlive t hlt) (hlive t' hlt') hq hq'
  case bound => exact h.bound

end SyscallSched.Xv6.Smp
