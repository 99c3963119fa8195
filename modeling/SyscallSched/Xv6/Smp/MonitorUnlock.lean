import SyscallSched.Xv6.Smp.Monitor

/-!
# Giving up a spinlock

The thread forgets what the lock guarded, and a process on its way to sleep passes the
point of no return.
-/

namespace SyscallSched.Xv6.Smp

variable {s : State} {l : Thread → Local} {c : Nat} {k : Lock} {v : Spinlock}

def unlockedBy (s : State) (l : Thread → Local) (c : Nat) (k : Lock) : Thread → Local :=
  Function.update l (s.cur c) ⟨(l (s.cur c)).core.unlocked k, (l (s.cur c)).unlockMon k⟩

structure Unlocks (s : State) (l : Thread → Local) (c : Nat) (k : Lock) : Prop where
  inv : Inv s (cores l)
  mon : MonInv s l
  core : (l (s.cur c)).core.Pre (.unlock k)
  pre : (l (s.cur c)).Pre (.unlock k)

namespace Unlocks

theorem self : unlockedBy s l c k (s.cur c) =
    ⟨(l (s.cur c)).core.unlocked k, (l (s.cur c)).unlockMon k⟩ := Function.update_self _ _ _

theorem other {j : Thread} (hj : j ≠ s.cur c) : unlockedBy s l c k j = l j :=
  Function.update_of_ne hj _ _

theorem live_eq (j : Thread) : (unlockedBy s l c k j).core.live = (l j).core.live := by
  by_cases hj : j = s.cur c
  · rw [hj, self]
    rfl
  · rw [other hj]

theorem grip_eq (j : Thread) (k' : Lock) : (unlockedBy s l c k j).core.grip k' =
    if j = s.cur c ∧ k' = k then .free else (l j).core.grip k' := by
  by_cases hj : j = s.cur c
  · rw [hj, self]
    by_cases hk : k' = k
    · simp [Core.unlocked, hk]
    · simp [Core.unlocked, hk]
  · simp [other hj, hj]

theorem grip_of_ne {k' : Lock} (hk : k' ≠ k) (j : Thread) :
    (unlockedBy s l c k j).core.grip k' = (l j).core.grip k' := by
  rw [grip_eq, if_neg fun hand => hk hand.2]

theorem grip_down {j : Thread} {k' : Lock} (hg : (unlockedBy s l c k j).core.grip k' ≠ .free) :
    (l j).core.grip k' ≠ .free := by
  rw [grip_eq] at hg
  split at hg
  · exact absurd rfl hg
  · exact hg

theorem sleeps_down {j : Thread} {m : Nat} (hs : (unlockedBy s l c k j).mon.sleeps m = true) :
    (l j).mon.sleeps m = true ∧ (j = s.cur c → ¬ (l (s.cur c)).Leaves k m) := by
  by_cases hj : j = s.cur c
  · subst hj
    rw [self] at hs
    simp only [Local.unlockMon, Bool.and_eq_true, Bool.not_eq_true', decide_eq_false_iff_not]
      at hs
    exact ⟨hs.1, fun _ => hs.2⟩
  · rw [other hj] at hs
    exact ⟨hs, fun heq => absurd heq hj⟩

theorem sleeps_up {j : Thread} {m : Nat} (hs : (l j).mon.sleeps m = true)
    (hstay : j = s.cur c → ¬ (l (s.cur c)).Leaves k m) :
    (unlockedBy s l c k j).mon.sleeps m = true := by
  by_cases hj : j = s.cur c
  · subst hj
    rw [self]
    simp [Local.unlockMon, hs, hstay rfl]
  · rwa [other hj]

theorem owns_of_forget {x : Loc} {w : x.Val} (hw : (l (s.cur c)).forget k x = some w)
    (howns : (l (s.cur c)).Owns x) : (unlockedBy s l c k (s.cur c)).Owns x := by
  obtain ⟨-, hlock, hstay⟩ := Local.forget_some hw
  have hstill : ∀ k', k' ≠ k → (l (s.cur c)).core.grip k' ≠ .free →
      (unlockedBy s l c k (s.cur c)).core.grip k' ≠ .free := by
    intro k' hk hg
    rwa [grip_of_ne hk]
  have hme : (unlockedBy s l c k (s.cur c)).core.me = (l (s.cur c)).core.me := by
    rw [self]
    rfl
  cases x
  case parent p =>
      refine ⟨hme.trans howns.1, hstill _ ?_ howns.2⟩
      intro heq
      exact hlock (congrArg some heq)
  case pid p => exact hme.trans howns
  case ticks0 p => exact hme.trans howns
  case tickN p => exact hme.trans howns
  case sleepPid m => exact sleeps_up howns fun _ => hstay m (.inl rfl)
  case data m => exact sleeps_up howns fun _ => hstay m (.inr rfl)
  all_goals
    refine hstill _ ?_ howns
    intro heq
    exact hlock (congrArg some heq)

variable (hu : Unlocks s l c k)

include hu

theorem live : (l (s.cur c)).core.live = true := hu.inv.live c

theorem me : (l (s.cur c)).core.me = s.cur c := hu.inv.me _

theorem marked : (l (s.cur c)).core.grip k ≠ .free := by simp [hu.core.1]

theorem only {j : Thread} (hj : s.Running j) (hg : (l j).core.grip k ≠ .free) : j = s.cur c :=
  hu.inv.same hj ⟨c, rfl⟩ hg hu.marked

theorem left {m : Nat} (hm : (l (s.cur c)).Leaves k m) : s.mem (.sleepLocked m) = false :=
  (hu.mon.know _ _ _ hu.live hm.2).2.2

/-- A process goes to sleep where it did before, or passes the point of no return now. -/
theorem going_down {j : Thread} {ch : Chan} (hg : (unlockedBy s l c k j).mon.going ch = true) :
    (l j).mon.going ch = true ∨ ∃ p, j = s.cur c ∧ s.cur c = .proc p ∧ k ≠ .proc p ∧
      ch.lock = k ∧ (l (s.cur c)).core.grip (.proc p) ≠ .free ∧
        (l (s.cur c)).blocked p ch = true := by
  by_cases hj : j = s.cur c
  · subst hj
    rw [self] at hg
    simp only [Local.unlockMon] at hg
    split at hg
    · cases hg
    · rename_i p hp
      split at hg
      · cases hg
      · rename_i hne
        simp only [Bool.or_eq_true, Bool.and_eq_true, decide_eq_true_eq] at hg
        obtain hg | ⟨⟨hl, hg, -⟩, hb⟩ := hg
        · exact .inl hg
        · exact .inr ⟨p, rfl, hu.me.symm.trans hp, hne, hl, hg, hb⟩
  · rw [other hj] at hg
    exact .inl hg

theorem going_up {q : Nat} {ch : Chan} (hg : (l (.proc q)).mon.going ch = true)
    (hne : s.cur c = .proc q → k ≠ .proc q) :
    (unlockedBy s l c k (.proc q)).mon.going ch = true := by
  by_cases hj : Thread.proc q = s.cur c
  · have hme : (l (s.cur c)).core.me = .proc q := hu.me.trans hj.symm
    rw [hj, self]
    simp only [Local.unlockMon, hme, if_neg (hne hj.symm)]
    rw [← hj, hg]
    rfl
  · rwa [other hj]

theorem pending {q : Nat} {ch : Chan} (hp : Pending (s.setLock k v) (unlockedBy s l c k) q ch) :
    Pending s l q ch ∨
      (s.cur c = .proc q ∧ ch.lock = k ∧ (l (.proc q)).blocked q ch = true) := by
  obtain hasleep | ⟨hlive, hg⟩ := hp
  · exact .inl (.inl hasleep)
  · rw [live_eq] at hlive
    obtain hg | ⟨p, hj, hp, -, hl, -, hb⟩ := hu.going_down hg
    · exact .inl (.inr ⟨hlive, hg⟩)
    · rw [hp] at hj
      rw [Thread.proc.inj hj]
      exact .inr ⟨hp, hl, hp ▸ hb⟩

/-! One field of the invariant at a time. -/

theorem inv_know (j : Thread) (x : Loc) (w : x.Val)
    (hlive : (unlockedBy s l c k j).core.live = true)
    (hw : (unlockedBy s l c k j).mon.mem x = some w) :
    (unlockedBy s l c k j).Owns x ∧ (x.lock = none ∨ s.Running j) ∧ s.mem x = w := by
  rw [live_eq] at hlive
  by_cases hj : j = s.cur c
  · subst hj
    rw [self] at hw
    have hold := hu.mon.know _ x w hlive (Local.forget_some hw).1
    exact ⟨owns_of_forget hw hold.1, hold.2⟩
  · rw [other hj] at hw ⊢
    exact hu.mon.know j x w hlive hw

theorem inv_normal (j : Thread) (ch : Chan) (hlive : (unlockedBy s l c k j).core.live = true)
    (hg : (unlockedBy s l c k j).core.grip ch.lock = .free) :
    (unlockedBy s l c k j).mon.stale ch = false ∧
      ∀ q, (unlockedBy s l c k j).mon.maybe ch q = true := by
  rw [live_eq] at hlive
  by_cases hj : j = s.cur c
  · subst hj
    rw [self]
    by_cases hk : ch.lock = k
    · simp [Local.unlockMon, hk]
    · rw [grip_of_ne hk] at hg
      have hold := hu.mon.normal _ ch hlive hg
      simp [Local.unlockMon, hk, hg, hold.1, hold.2]
  · rw [other hj] at hg ⊢
    exact hu.mon.normal j ch hlive hg

theorem inv_unseen (j : Thread) (q : Nat) (hlive : (unlockedBy s l c k j).core.live = true)
    (hg : (unlockedBy s l c k j).core.grip .wait = .free) :
    (unlockedBy s l c k j).mon.seen q = false := by
  rw [live_eq] at hlive
  by_cases hj : j = s.cur c
  · subst hj
    rw [self]
    by_cases hk : k = .wait
    · simp [Local.unlockMon, hk]
    · rw [grip_of_ne (Ne.symm hk)] at hg
      simp [Local.unlockMon, hk, hg, hu.mon.unseen _ q hlive hg]
  · rw [other hj] at hg ⊢
    exact hu.mon.unseen j q hlive hg

theorem inv_going (j : Thread) (ch : Chan) (hlive : (unlockedBy s l c k j).core.live = true)
    (hg : (unlockedBy s l c k j).mon.going ch = true) :
    s.Running j ∧ (unlockedBy s l c k j).core.grip ch.lock = .free ∧
      ∃ p, j = .proc p ∧ (unlockedBy s l c k j).core.grip (.proc p) ≠ .free := by
  rw [live_eq] at hlive
  obtain hold | ⟨p, rfl, hp, hne, hl, hpg, -⟩ := hu.going_down hg
  · obtain ⟨hrj, hfree, p, hp, hpg⟩ := hu.mon.going j ch hlive hold
    refine ⟨hrj, ?_, p, hp, ?_⟩
    · rw [grip_eq]
      split
      · rfl
      · exact hfree
    · rw [grip_eq]
      split
      · rename_i hand
        -- its own lock is given up only by a process that stays
        exfalso
        rw [hand.1, self] at hg
        have hme : (l (s.cur c)).core.me = .proc p := hu.me.trans (hand.1.symm.trans hp)
        simp [Local.unlockMon, hme, hand.2] at hg
      · exact hpg
  · refine ⟨⟨c, rfl⟩, by simp [grip_eq, hl], p, hp, ?_⟩
    rwa [grip_of_ne (Ne.symm hne)]

theorem inv_dozing (q : Nat) (hq : s.Running (.proc q)) (hst : s.state q = .sleeping) :
    ∃ ch, s.mem (.chan q) = some ch ∧ (unlockedBy s l c k (.proc q)).mon.going ch = true := by
  obtain ⟨ch, hch, hg⟩ := hu.mon.dozing q hq hst
  refine ⟨ch, hch, hu.going_up hg ?_⟩
  rintro hself rfl
  have hown := (hu.core.2 q rfl).1 (hu.me.trans hself)
  have hrunning := hu.inv.state c q _ hown
  rw [hrunning] at hst
  cases hst

theorem inv_owner (m : Nat) (hm : s.mem (.sleepLocked m) = true) :
    ∃ j, (unlockedBy s l c k j).core.live = true ∧ (unlockedBy s l c k j).mon.sleeps m = true := by
  obtain ⟨j, hlive, hj⟩ := hu.mon.owner m hm
  refine ⟨j, (live_eq j).trans hlive, sleeps_up hj ?_⟩
  rintro rfl hl
  rw [hu.left hl] at hm
  cases hm

theorem inv_owned (j : Thread) (m : Nat) (hlive : (unlockedBy s l c k j).core.live = true)
    (hs : (unlockedBy s l c k j).mon.sleeps m = true) :
    s.mem (.sleepLocked m) = true ∨
      s.Running j ∧ (unlockedBy s l c k j).core.grip (.sleep m) ≠ .free ∧
        (unlockedBy s l c k j).mon.mem (.sleepLocked m) = some false := by
  rw [live_eq] at hlive
  obtain ⟨hs, hstay⟩ := sleeps_down hs
  obtain hon | ⟨hrj, hg, hv⟩ := hu.mon.owned j m hlive hs
  · exact .inl hon
  · by_cases hj : j = s.cur c
    · subst hj
      have hne : k ≠ .sleep m := fun hk => hstay rfl ⟨hk, hv⟩
      refine .inr ⟨hrj, ?_, ?_⟩
      · rwa [grip_of_ne (Ne.symm hne)]
      · rw [self]
        exact (if_neg fun heq => hne (Option.some.inj heq).symm).trans hv
    · rw [other hj]
      exact .inr ⟨hrj, hg, hv⟩

theorem inv_fresh (p : Nat) (hst : s.state p = .used)
    (hlive : (unlockedBy s l c k (.proc p)).core.live = true) :
    (unlockedBy s l c k (.proc p)).mon = Mon.fresh := by
  rw [live_eq] at hlive
  have hne : Thread.proc p ≠ s.cur c := by
    intro heq
    exact (hu.inv.state_of_running ⟨c, heq.symm⟩).2 hst
  rw [other hne]
  exact hu.mon.fresh p hst hlive

theorem inv_seen (p q : Nat) (hp : s.Running (.proc p))
    (hs : (unlockedBy s l c k (.proc p)).mon.seen q = true) :
    ¬ (s.mem (.parent q) = some p ∧ s.state q = .zombie) := by
  intro hand
  by_cases hj : Thread.proc p = s.cur c
  · rw [hj, self] at hs
    simp only [Local.unlockMon] at hs
    split at hs
    · cases hs
    · simp only [Bool.or_eq_true, decide_eq_true_eq] at hs
      obtain hs | ⟨-, -, st, hst, hne⟩ := hs
      · exact hu.mon.seen p q hp (hj ▸ hs) hand
      · exact hne ((hu.inv.state c q st hst).symm.trans hand.2)
  · rw [other hj] at hs
    exact hu.mon.seen p q hp hs hand

/-- When the condition of a channel may have become true, everybody but the thread itself
is known to be awake. -/
theorem not_stale {q : Nat} {ch : Chan} (hk : ch.lock = k) (hp : Pending s l q ch) :
    (l (s.cur c)).mon.stale ch = false := by
  cases hstale : (l (s.cur c)).mon.stale ch with
  | false => rfl
  | true =>
      have hmarked := hu.marked
      rw [← hk] at hmarked
      obtain ⟨hmaybe, -⟩ := hu.mon.watched q ch (s.cur c) hp ⟨c, rfl⟩ hmarked
      have hme : (l (s.cur c)).core.me = .proc q := by
        by_contra hne
        have hnot := hu.pre ch hk hstale q (hu.mon.pending_bound hu.inv hp) hne
        rw [hnot] at hmaybe
        cases hmaybe
      have hq : s.cur c = .proc q := hu.me.symm.trans hme
      rw [hq] at hmarked
      exact absurd hp (hu.mon.not_pending hu.inv ⟨c, hq⟩ hmarked)

theorem inv_monitor (q : Nat) (ch : Chan)
    (hp : Pending (s.setLock k v) (unlockedBy s l c k) q ch)
    (hunheld : Unheld (s.setLock k v) (unlockedBy s l c k) ch.lock) : Blocked s q ch := by
  obtain hp | ⟨hq, -, hb⟩ := hu.pending hp
  · by_cases hk : ch.lock = k
    · have hmarked := hu.marked
      rw [← hk] at hmarked
      exact (hu.mon.watched q ch _ hp ⟨c, rfl⟩ hmarked).2 (hu.not_stale hk hp)
    · apply hu.mon.monitor q ch hp
      intro j hj
      have hfree := hunheld j hj
      rwa [grip_of_ne hk] at hfree
  · exact Local.blocked_sound hu.mon hu.inv ⟨c, hq⟩ hb

/-- What the thread still knows of the sleepers on a channel whose lock it keeps. -/
theorem maybe_self {q : Nat} {ch : Chan} (hk : ch.lock ≠ k)
    (hg : (l (s.cur c)).core.grip ch.lock ≠ .free) (hp : Pending s l q ch)
    (hmaybe : (l (s.cur c)).mon.maybe ch q = true) :
    ((l (s.cur c)).unlockMon k).maybe ch q = true := by
  simp only [Local.unlockMon, if_neg hk, hmaybe, Bool.true_and, Bool.not_eq_true',
    Bool.and_eq_false_iff, decide_eq_false_iff_not]
  by_cases hq : k = .proc q
  · right
    by_contra ha
    rw [Bool.not_eq_false] at ha
    exact Local.awake_sound hu.mon hu.inv (hq ▸ hu.marked) hg ha hp
  · exact .inl fun hand => hq hand.1

theorem inv_watched (q : Nat) (ch : Chan) (j : Thread)
    (hp : Pending (s.setLock k v) (unlockedBy s l c k) q ch) (hrj : s.Running j)
    (hg : (unlockedBy s l c k j).core.grip ch.lock ≠ .free) :
    (unlockedBy s l c k j).mon.maybe ch q = true ∧
      ((unlockedBy s l c k j).mon.stale ch = false → Blocked s q ch) := by
  have hg₀ := grip_down hg
  have hk : ch.lock ≠ k := by
    intro hk
    rw [grip_eq] at hg
    by_cases hj : j = s.cur c
    · simp [hj, hk] at hg
    · exact hj (hu.only hrj (hk ▸ hg₀))
  obtain hp | ⟨-, hl, -⟩ := hu.pending hp
  · obtain ⟨hmaybe, hbl⟩ := hu.mon.watched q ch j hp hrj hg₀
    by_cases hj : j = s.cur c
    · subst hj
      rw [self]
      refine ⟨hu.maybe_self hk hg₀ hp hmaybe, fun hstale => hbl ?_⟩
      simpa only [Local.unlockMon, if_neg hk] using hstale
    · rw [other hj]
      exact ⟨hmaybe, hbl⟩
  · exact absurd hl hk

end Unlocks

theorem MonInv.act_unlock (hm : MonInv s l) (h : Inv s (cores l))
    (hcore : (l (s.cur c)).core.Pre (.unlock k)) (hpre : (l (s.cur c)).Pre (.unlock k)) :
    MonInv (s.setLock k v) (advanceLocal l (s.cur c) (.unlock k) ()) := by
  have hu : Unlocks s l c k := ⟨h, hm, hcore, hpre⟩
  have hadv : advanceLocal l (s.cur c) (.unlock k) () = unlockedBy s l c k := rfl
  rw [hadv]
  constructor
  case know => exact hu.inv_know
  case normal => exact hu.inv_normal
  case unseen => exact hu.inv_unseen
  case going => exact hu.inv_going
  case dozing => exact hu.inv_dozing
  case owner => exact hu.inv_owner
  case owned => exact hu.inv_owned
  case one =>
      intro j j' m hlive hlive' hs hs'
      rw [Unlocks.live_eq] at hlive hlive'
      exact hm.one j j' m hlive hlive' (Unlocks.sleeps_down hs).1 (Unlocks.sleeps_down hs').1
  case fresh => exact hu.inv_fresh
  case seen => exact hu.inv_seen
  case monitor => exact hu.inv_monitor
  case watched => exact hu.inv_watched

end SyscallSched.Xv6.Smp
