import SyscallSched.Xv6.Smp.Retouch

/-!
# The states of the processes

A thread changes the state of its own process, or of one that no CPU runs, under the lock
of the process.
-/

namespace SyscallSched.Xv6.Smp

variable {s : State} {l l' : Thread → Core} {c p : Nat} {st : ProcState} {t : Thread} {u : Core}

structure Restates (s : State) (l l' : Thread → Core) (c p : Nat) (st : ProcState) : Prop where
  grip : (l (s.cur c)).grip (.proc p) ≠ .free
  bound : p < NPROC
  others : ∀ j, j ≠ s.cur c → l' j = { l j with live := (l' j).live }
  self : l' (s.cur c) = { l (s.cur c) with
    state := Function.update (l (s.cur c)).state p (some st)
    child := (l' (s.cur c)).child }
  ends : ∀ j, (l' j).live = (l j).live ∨ j = .proc p ∧ ¬ s.Running j ∧ (l' j).live = false
  own : s.Running (.proc p) →
    s.cur c = .proc p ∧ (st = .runnable ∨ st = .sleeping ∨ st = .zombie)
  resting : ¬ s.Running (.proc p) → Resting p (l' (.proc p)) st
  picked : st = .running → ¬ s.Running (.proc p) → (l (s.cur c)).idle p = true
  child : ∀ t q b, (l' t).live = true → (l' t).child = some (q, b) →
    q ≠ p ∧ (l t).child = some (q, b) ∨
      q = p ∧ t = s.cur c ∧ st = .used ∧ (l' (.proc p)).live = b

namespace Restates

variable (h : Inv s l) (hr : Restates s l l' c p st)

include hr

theorem view {β : Type} (f : Core → β)
    (hf : ∀ w live state child, f { w with live := live, state := state, child := child } = f w)
    (j : Thread) : f (l' j) = f (l j) := by
  by_cases hj : j = s.cur c
  · rw [hj, hr.self]
    exact hf _ (l (s.cur c)).live _ _
  · rw [hr.others j hj]
    exact hf _ _ (l j).state (l j).child

theorem grip_eq (j : Thread) : (l' j).grip = (l j).grip := hr.view (·.grip) (fun _ _ _ _ => rfl) j

theorem idle_eq (j : Thread) : (l' j).idle = (l j).idle := hr.view (·.idle) (fun _ _ _ _ => rfl) j

theorem live_eq {j : Thread} (hj : j ≠ .proc p) : (l' j).live = (l j).live :=
  (hr.ends j).resolve_right fun hand => hj hand.1

theorem live_of_running {j : Thread} (hj : s.Running j) : (l' j).live = (l j).live :=
  (hr.ends j).resolve_right fun hand => hand.2.1 hj

theorem live_le {j : Thread} (hj : (l' j).live = true) : (l j).live = true := by
  obtain heq | ⟨-, -, hdead⟩ := hr.ends j
  · exact heq.symm.trans hj
  · rw [hdead] at hj
    cases hj

theorem state_self : (l' (s.cur c)).state = Function.update (l (s.cur c)).state p (some st) := by
  rw [hr.self]

theorem state_of_ne {j : Thread} (hj : j ≠ s.cur c) : (l' j).state = (l j).state := by
  rw [hr.others j hj]

include h

theorem inv_sched (c' : Nat) :
    (l' (.cpu c')).live = true ∧ ((s.setState p st).cpu c').proc = (l' (.cpu c')).cproc := by
  rw [hr.live_eq (by simp), hr.view (·.cproc) (fun _ _ _ _ => rfl)]
  exact h.sched c'

theorem inv_cur (c' : Nat) : s.cur c' = .cpu c' ∨
    ∃ q, s.cur c' = .proc q ∧ Core.Away q (l' (.cpu c')) := by
  obtain hcpu | ⟨q, hq, haway⟩ := h.cur c'
  · exact .inl hcpu
  · refine .inr ⟨q, hq, ?_⟩
    have hne : Thread.cpu c' ≠ s.cur c := by
      intro heq
      rw [h.cur_cpu heq.symm, hq] at heq
      cases heq
    rw [hr.others _ hne, hr.live_eq (by simp)]
    exact haway

theorem inv_tied (c' : Nat) : Tied ((s.setState p st).cpu c') (l' (s.cur c')) := by
  have htied := h.tied c'
  by_cases hc : c' = c
  · subst hc
    rw [hr.self]
    refine ⟨htied.noff, htied.sie, htied.intena, htied.prev, ?_⟩
    simp [h.sie_of_grip hr.grip]
  · have hne : s.cur c' ≠ s.cur c := fun heq => hc (h.cur_inj heq)
    rw [hr.others _ hne, hr.live_of_running ⟨c', rfl⟩]
    exact htied

theorem inv_unknown (t : Thread) (q : Nat) (hlive : (l' t).live = true)
    (hgrip : (l' t).grip (.proc q) = .free) :
    (l' t).state q = none ∧ (l' t).idle q = false := by
  rw [hr.grip_eq] at hgrip
  rw [hr.idle_eq]
  have hold := h.unknown t q (hr.live_le hlive) hgrip
  refine ⟨?_, hold.2⟩
  by_cases ht : t = s.cur c
  · subst ht
    have hq : q ≠ p := by
      rintro rfl
      exact hr.grip hgrip
    rw [hr.state_self, Function.update_of_ne hq]
    exact hold.1
  · rw [hr.state_of_ne ht]
    exact hold.1

theorem inv_state (c' q : Nat) (x : ProcState) (hx : (l' (s.cur c')).state q = some x) :
    (s.setState p st).state q = x := by
  by_cases hc : c' = c
  · subst hc
    rw [hr.state_self] at hx
    by_cases hq : q = p
    · subst hq
      simpa using hx
    · rw [Function.update_of_ne hq] at hx
      rw [setState_of_ne hq]
      exact h.state _ q x hx
  · rw [hr.state_of_ne fun heq => hc (h.cur_inj heq)] at hx
    have hq : q ≠ p := by
      rintro rfl
      exact hc (h.holder _ _ _ (h.grip_of_state hx) hr.grip)
    rw [setState_of_ne hq]
    exact h.state c' q x hx

theorem inv_own (q : Nat) (hq : s.Running (.proc q)) :
    if (l' (.proc q)).grip (.proc q) = .free then (s.setState p st).state q = .running
    else (l' (.proc q)).state q = some ((s.setState p st).state q) ∧
      (s.setState p st).state q ≠ .unused ∧ (s.setState p st).state q ≠ .used := by
  rw [hr.grip_eq]
  by_cases hqp : q = p
  · subst hqp
    obtain ⟨hself, hst⟩ := hr.own hq
    rw [← hself, if_neg hr.grip, hr.state_self, setState_self]
    simp only [Function.update_self, true_and]
    obtain rfl | rfl | rfl := hst <;> simp
  · have hstate : (l' (.proc q)).state q = (l (.proc q)).state q := by
      by_cases hself : Thread.proc q = s.cur c
      · rw [hself, hr.state_self, Function.update_of_ne hqp]
      · rw [hr.state_of_ne hself]
    rw [hstate, setState_of_ne hqp]
    exact h.own q hq

theorem inv_resting (q : Nat) (hq : ¬ s.Running (.proc q)) :
    Resting q (l' (.proc q)) ((s.setState p st).state q) := by
  by_cases hqp : q = p
  · subst hqp
    rw [setState_self]
    exact hr.resting hq
  · have hne : Thread.proc q ≠ s.cur c := fun heq => hq ⟨c, heq.symm⟩
    rw [setState_of_ne hqp, hr.others _ hne,
      hr.live_eq fun heq => hqp (Thread.proc.inj heq)]
    exact h.resting q hq

theorem inv_picked (q : Nat) (hq : (s.setState p st).state q = .running)
    (hnot : ¬ s.Running (.proc q)) :
    ∃ c', (l' (s.cur c')).grip (.proc q) ≠ .free ∧ (l' (s.cur c')).idle q = true := by
  simp only [hr.grip_eq, hr.idle_eq]
  by_cases hqp : q = p
  · subst hqp
    rw [setState_self] at hq
    exact ⟨c, hr.grip, hr.picked hq hnot⟩
  · rw [setState_of_ne hqp] at hq
    exact h.picked q hq hnot

theorem inv_child (t : Thread) (q : Nat) (b : Bool) (hlive : (l' t).live = true)
    (hchild : (l' t).child = some (q, b)) :
    (s.setState p st).state q = .used ∧ (l' (.proc q)).live = b := by
  obtain ⟨hqp, hold⟩ | ⟨rfl, -, hused, hb⟩ := hr.child t q b hlive hchild
  · rw [setState_of_ne hqp, hr.live_eq fun heq => hqp (Thread.proc.inj heq)]
    exact h.child t q b (hr.live_le hlive) hold
  · rw [setState_self]
    exact ⟨hused, hb⟩

theorem inv_parent (t t' : Thread) (q : Nat) (b b' : Bool) (hlive : (l' t).live = true)
    (hlive' : (l' t').live = true) (hchild : (l' t).child = some (q, b))
    (hchild' : (l' t').child = some (q, b')) : t = t' := by
  obtain ⟨hqp, hold⟩ | ⟨hqp, ht, -⟩ := hr.child t q b hlive hchild
  · obtain ⟨-, hold'⟩ | ⟨hqp', -⟩ := hr.child t' q b' hlive' hchild'
    · exact h.parent t t' q b b' (hr.live_le hlive) (hr.live_le hlive') hold hold'
    · exact absurd hqp' hqp
  · obtain ⟨hqp', -⟩ | ⟨-, ht', -⟩ := hr.child t' q b' hlive' hchild'
    · exact absurd hqp hqp'
    · rw [ht, ht']

omit h in
theorem inv_bound (h : Inv s l) (q : Nat) (hq : (s.setState p st).state q ≠ .unused) :
    q < NPROC := by
  by_cases hqp : q = p
  · rw [hqp]
    exact hr.bound
  · rw [setState_of_ne hqp] at hq
    exact h.bound q hq

end Restates

theorem Inv.restate (h : Inv s l) (hr : Restates s l l' c p st) : Inv (s.setState p st) l' where
  me t := (hr.view (·.me) (fun _ _ _ _ => rfl) t).trans (h.me t)
  cproc q := (hr.view (·.cproc) (fun _ _ _ _ => rfl) _).trans (h.cproc q)
  sched := (hr.inv_sched h :)
  cur := (hr.inv_cur h :)
  once := h.once
  live c' := (hr.live_of_running ⟨c', rfl⟩).trans (h.live c')
  tied := (hr.inv_tied h :)
  lockCpu := by simpa only [hr.grip_eq, setState_cur, setState_lock] using h.lockCpu
  locked := by simpa only [hr.grip_eq, setState_cur, setState_lock] using h.locked
  holder := by simpa only [hr.grip_eq, setState_cur] using h.holder
  unknown := (hr.inv_unknown h :)
  state := (hr.inv_state h :)
  idle := by simpa only [hr.idle_eq, setState_cur, setState_running] using h.idle
  own := (hr.inv_own h :)
  resting := (hr.inv_resting h :)
  picked := (hr.inv_picked h :)
  child := (hr.inv_child h :)
  parent := (hr.inv_parent h :)
  bound := (hr.inv_bound h :)

theorem Inv.setOwn (h : Inv s l) (hcur : s.cur c = .proc p)
    (hgrip : (l (s.cur c)).grip (.proc p) ≠ .free)
    (hst : st = .runnable ∨ st = .sleeping ∨ st = .zombie) :
    Inv (s.setState p st) (Function.update l (s.cur c)
      { l (s.cur c) with state := Function.update (l (s.cur c)).state p (some st) }) := by
  have hrun : s.Running (.proc p) := ⟨c, hcur⟩
  have hlive := view_update (l := l) (t := s.cur c)
    (u := { l (s.cur c) with state := Function.update (l (s.cur c)).state p (some st) })
    (·.live) rfl
  have hchild := view_update (l := l) (t := s.cur c)
    (u := { l (s.cur c) with state := Function.update (l (s.cur c)).state p (some st) })
    (·.child) rfl
  apply h.restate (c := c)
  constructor
  case grip => exact hgrip
  case bound => exact h.bound p (h.state_of_running hrun).1
  case others =>
      intro j hj
      rw [Function.update_of_ne hj]
  case self => rw [Function.update_self]
  case ends => exact fun j => .inl (hlive j)
  case own => exact fun _ => ⟨hcur, hst⟩
  case resting => exact fun hnot => absurd hrun hnot
  case picked => exact fun _ hnot => absurd hrun hnot
  case child =>
      intro t q b hl hq
      rw [hlive] at hl
      rw [hchild] at hq
      refine .inl ⟨?_, hq⟩
      rintro rfl
      exact h.not_running_of_child hl hq hrun

/-- A thread changes the state of a process that runs nowhere, under its lock; the thread
of the process may end by it. -/
theorem Inv.setOther (h : Inv s l) {ch : Option (Nat × Bool)} {dies : Bool} {l₀ : Thread → Core}
    (hl₀ : ∀ j, l₀ j = if j = .proc p ∧ dies then { l j with live := false } else l j)
    (hgrip : (l (s.cur c)).grip (.proc p) ≠ .free) (hnot : ¬ s.Running (.proc p))
    (hrest : Resting p (l₀ (.proc p)) st)
    (hpick : st = .running → (l (s.cur c)).idle p = true)
    (hsame : ∀ q b, ch = some (q, b) → q ≠ p → (l (s.cur c)).child = some (q, b))
    (hfill : ∀ b, ch = some (p, b) → st = .used ∧ (l₀ (.proc p)).live = b)
    (hothers : ∀ t b, t ≠ s.cur c → (l t).live = true → (l t).child ≠ some (p, b))
    (hbound : p < NPROC) :
    Inv (s.setState p st) (Function.update l₀ (s.cur c)
      { l (s.cur c) with
        state := Function.update (l (s.cur c)).state p (some st)
        child := ch }) := by
  have hself : Thread.proc p ≠ s.cur c := fun heq => hnot ⟨c, heq.symm⟩
  have hkept : ∀ j, l₀ j = { l j with live := (l₀ j).live } := by
    intro j
    rw [hl₀]
    split <;> rfl
  have hends : ∀ j, (l₀ j).live = (l j).live ∨ j = .proc p ∧ (l₀ j).live = false := by
    intro j
    rw [hl₀]
    split
    case isTrue hand => exact .inr ⟨hand.1, rfl⟩
    case isFalse => exact .inl rfl
  apply h.restate (c := c)
  constructor
  case grip => exact hgrip
  case bound => exact hbound
  case others =>
      intro j hj
      rw [Function.update_of_ne hj]
      exact hkept j
  case self => rw [Function.update_self]
  case ends =>
      intro j
      by_cases hj : j = s.cur c
      · rw [hj, Function.update_self]
        exact .inl rfl
      · rw [Function.update_of_ne hj]
        obtain heq | ⟨rfl, hdead⟩ := hends j
        · exact .inl heq
        · exact .inr ⟨rfl, hnot, hdead⟩
  case own => exact fun hrun => absurd hrun hnot
  case resting =>
      intro _
      rwa [Function.update_of_ne hself]
  case picked => exact fun hst _ => hpick hst
  case child =>
      intro t q b hlive hq
      rw [Function.update_of_ne hself]
      by_cases ht : t = s.cur c
      · rw [ht, Function.update_self] at hq
        by_cases hqp : q = p
        · subst hqp
          exact .inr ⟨rfl, ht, hfill b hq⟩
        · rw [ht]
          exact .inl ⟨hqp, hsame q b hq hqp⟩
      · rw [Function.update_of_ne ht] at hlive hq
        rw [hkept] at hq
        have hold : (l t).live = true := by
          obtain heq | ⟨-, hdead⟩ := hends t
          · exact heq.symm.trans hlive
          · rw [hdead] at hlive
            cases hlive
        refine .inl ⟨?_, hq⟩
        rintro rfl
        exact hothers t b ht hold hq

/-! ## A new process -/

def contexted (s : State) (l : Thread → Core) (c p : Nat) : Thread → Core :=
  Function.update (Function.update l (.proc p) (Core.fresh p)) (s.cur c)
    { l (s.cur c) with child := some (p, true) }

section

variable (h : Inv s l) (hchild : (l (s.cur c)).child = some (p, false))

include h hchild

theorem Inv.cur_ne_of_child (c' : Nat) : s.cur c' ≠ .proc p := fun heq =>
  h.not_running_of_child (h.live c) hchild ⟨c', heq⟩

theorem Inv.contexted_proc : contexted s l c p (.proc p) = Core.fresh p := by
  rw [contexted, Function.update_of_ne (h.cur_ne_of_child hchild c).symm, Function.update_self]

omit h hchild in
theorem contexted_view {β : Type} (f : Core → β)
    (hf : ∀ w child, f { w with child := child } = f w) {j : Thread} (hj : j ≠ .proc p) :
    f (contexted s l c p j) = f (l j) := by
  rw [contexted]
  by_cases hjc : j = s.cur c
  · rw [hjc, Function.update_self]
    exact hf _ _
  · rw [Function.update_of_ne hjc, Function.update_of_ne hj]

omit h hchild in
theorem contexted_live {j : Thread} (hj : j ≠ .proc p) :
    (contexted s l c p j).live = (l j).live := contexted_view (·.live) (fun _ _ => rfl) hj

omit h hchild in
theorem contexted_state {j : Thread} (hj : j ≠ .proc p) :
    (contexted s l c p j).state = (l j).state := contexted_view (·.state) (fun _ _ => rfl) hj

omit h hchild in
theorem contexted_idle {j : Thread} (hj : j ≠ .proc p) :
    (contexted s l c p j).idle = (l j).idle := contexted_view (·.idle) (fun _ _ => rfl) hj

omit h hchild in
theorem contexted_grip {j : Thread} (hj : j ≠ .proc p) :
    (contexted s l c p j).grip = (l j).grip := contexted_view (·.grip) (fun _ _ => rfl) hj

/-- The running thread alone fills the slot. -/
theorem Inv.contexted_child {t : Thread} {q : Nat} {b : Bool}
    (hlive : (contexted s l c p t).live = true)
    (hq : (contexted s l c p t).child = some (q, b)) :
    q ≠ p ∧ (l t).live = true ∧ (l t).child = some (q, b) ∨ q = p ∧ b = true ∧ t = s.cur c := by
  by_cases htp : t = .proc p
  · rw [htp, h.contexted_proc hchild] at hq
    cases hq
  · rw [contexted_live htp] at hlive
    by_cases htc : t = s.cur c
    · rw [htc, contexted, Function.update_self] at hq
      cases hq
      exact .inr ⟨rfl, rfl, htc⟩
    · rw [contexted, Function.update_of_ne htc, Function.update_of_ne htp] at hq
      refine .inl ⟨?_, hlive, hq⟩
      rintro rfl
      exact htc (h.parent _ _ q b false hlive (h.live c) hq hchild)

theorem Inv.contexted_me (t : Thread) : (contexted s l c p t).me = t := by
  by_cases ht : t = .proc p
  · rw [ht, h.contexted_proc hchild]
    rfl
  · rw [contexted_view (·.me) (fun _ _ => rfl) ht]
    exact h.me t

theorem Inv.contexted_cproc (q : Nat) : (contexted s l c p (.proc q)).cproc = none := by
  by_cases hq : q = p
  · rw [hq, h.contexted_proc hchild]
    rfl
  · rw [contexted_view (·.cproc) (fun _ _ => rfl) fun heq => hq (Thread.proc.inj heq)]
    exact h.cproc q

omit hchild in
theorem Inv.contexted_cur (c' : Nat) : s.cur c' = .cpu c' ∨
    ∃ q, s.cur c' = .proc q ∧ Core.Away q (contexted s l c p (.cpu c')) := by
  obtain hcpu | ⟨q, hq, haway⟩ := h.cur c'
  · exact .inl hcpu
  · refine .inr ⟨q, hq, ?_⟩
    rw [contexted, Function.update_of_ne, Function.update_of_ne (by simp)]
    · exact haway
    · intro heq
      rw [h.cur_cpu heq.symm, hq] at heq
      cases heq

theorem Inv.contexted_tied (c' : Nat) : Tied (s.cpu c') (contexted s l c p (s.cur c')) := by
  have htied := h.tied c'
  by_cases hc : c' = c
  · subst hc
    rw [contexted, Function.update_self]
    refine ⟨htied.noff, htied.sie, htied.intena, htied.prev, ?_⟩
    intro hsie
    have hopen := htied.on hsie
    exact ⟨hopen.free, hopen.cproc, hopen.intena, hopen.prev⟩
  · rw [contexted, Function.update_of_ne fun heq => hc (h.cur_inj heq),
      Function.update_of_ne (h.cur_ne_of_child hchild c')]
    exact htied

theorem Inv.contexted_unknown (t : Thread) (q : Nat) (hlive : (contexted s l c p t).live = true)
    (hgrip : (contexted s l c p t).grip (.proc q) = .free) :
    (contexted s l c p t).state q = none ∧ (contexted s l c p t).idle q = false := by
  by_cases ht : t = .proc p
  · rw [ht, h.contexted_proc hchild] at hgrip ⊢
    have hq : q ≠ p := by
      rintro rfl
      simp [Core.fresh] at hgrip
    simp [Core.fresh, hq]
  · rw [contexted_live ht] at hlive
    rw [contexted_grip ht] at hgrip
    rw [contexted_state ht, contexted_idle ht]
    exact h.unknown t q hlive hgrip

theorem Inv.contexted_resting (q : Nat) (hq : ¬ s.Running (.proc q)) :
    Resting q (contexted s l c p (.proc q)) (s.state q) := by
  by_cases hqp : q = p
  · subst hqp
    rw [h.contexted_proc hchild, (h.child _ _ _ (h.live c) hchild).1]
    intro _
    constructor <;> simp [Core.fresh, Core.Only]
    intro k hk
    simp [hk]
  · rw [contexted, Function.update_of_ne fun heq => hq ⟨c, heq.symm⟩,
      Function.update_of_ne fun heq => hqp (Thread.proc.inj heq)]
    exact h.resting q hq

theorem Inv.contexted_used (t : Thread) (q : Nat) (b : Bool)
    (hlive : (contexted s l c p t).live = true)
    (hq : (contexted s l c p t).child = some (q, b)) :
    s.state q = .used ∧ (contexted s l c p (.proc q)).live = b := by
  obtain ⟨hqp, hlive', hold⟩ | ⟨rfl, rfl, -⟩ := h.contexted_child hchild hlive hq
  · rw [contexted_live fun heq => hqp (Thread.proc.inj heq)]
    exact h.child t q b hlive' hold
  · rw [h.contexted_proc hchild]
    exact ⟨(h.child _ _ _ (h.live c) hchild).1, rfl⟩

theorem Inv.contexted_parent (t t' : Thread) (q : Nat) (b b' : Bool)
    (hlive : (contexted s l c p t).live = true) (hlive' : (contexted s l c p t').live = true)
    (hq : (contexted s l c p t).child = some (q, b))
    (hq' : (contexted s l c p t').child = some (q, b')) : t = t' := by
  obtain ⟨hqp, hold, hold'⟩ | ⟨hqp, -, ht⟩ := h.contexted_child hchild hlive hq
  · obtain ⟨-, hnew, hnew'⟩ | ⟨hqp', -⟩ := h.contexted_child hchild hlive' hq'
    · exact h.parent t t' q b b' hold hnew hold' hnew'
    · exact absurd hqp' hqp
  · obtain ⟨hqp', -⟩ | ⟨-, -, ht'⟩ := h.contexted_child hchild hlive' hq'
    · exact absurd hqp hqp'
    · rw [ht, ht']

theorem Inv.setContext : Inv s (contexted s l c p) := by
  have hrun := h.cur_ne_of_child hchild
  have hlive : ∀ c', (contexted s l c p (s.cur c')).live = (l (s.cur c')).live :=
    fun c' => contexted_live (hrun c')
  have hgrip : ∀ c', (contexted s l c p (s.cur c')).grip = (l (s.cur c')).grip :=
    fun c' => contexted_grip (hrun c')
  have hstate : ∀ c', (contexted s l c p (s.cur c')).state = (l (s.cur c')).state :=
    fun c' => contexted_state (hrun c')
  have hidle : ∀ c', (contexted s l c p (s.cur c')).idle = (l (s.cur c')).idle :=
    fun c' => contexted_idle (hrun c')
  constructor
  case me => exact h.contexted_me hchild
  case cproc => exact h.contexted_cproc hchild
  case sched =>
      intro c'
      rw [contexted_live (by simp), contexted_view (·.cproc) (fun _ _ => rfl) (by simp)]
      exact h.sched c'
  case cur => exact h.contexted_cur
  case once => exact h.once
  case live => simpa only [hlive] using h.live
  case tied => exact h.contexted_tied hchild
  case lockCpu => simpa only [hgrip] using h.lockCpu
  case locked => simpa only [hgrip] using h.locked
  case holder => simpa only [hgrip] using h.holder
  case unknown => exact h.contexted_unknown hchild
  case state => simpa only [hstate] using h.state
  case idle => simpa only [hidle] using h.idle
  case own =>
      intro q hq
      have hqp : Thread.proc q ≠ .proc p := by
        intro heq
        exact h.not_running_of_child (h.live c) hchild (heq ▸ hq)
      rw [contexted_grip hqp, contexted_state hqp]
      exact h.own q hq
  case resting => exact h.contexted_resting hchild
  case picked => simpa only [hgrip, hidle] using h.picked
  case child => exact h.contexted_used hchild
  case parent => exact h.contexted_parent hchild
  case bound => exact h.bound

end

end SyscallSched.Xv6.Smp
