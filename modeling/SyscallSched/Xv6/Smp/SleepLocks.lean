import SyscallSched.Xv6.Smp.Lifecycle

/-!
# Sleep-locks keep to the rules

What a process knows of the data under the sleep-locks that it holds, through any
sequence of steps of a system call on files.
-/

namespace SyscallSched.Xv6.Smp

open SyscallSched.Foundation

variable {u v w z : Local} {p k : Nat} {held : List (Nat × Nat)}

theorem Local.loadMon_eq {x : Loc} {a : x.Val} (hx : u.mon.mem x = some a)
    (hne : x.lock ≠ some .wait) : u.loadMon x a = u.mon := by
  have hmem : Function.update u.mon.mem x (some a) = u.mon.mem := by
    rw [← hx, Function.update_eq_self]
  cases x
  case parent q => exact absurd rfl hne
  all_goals simp only [Local.loadMon, hmem, ite_self]

structure Local.Took (u w : Local) (p k : Nat) : Prop where
  calm : w.Calm
  core : w.core = u.core
  sleeps : w.mon.sleeps = Function.update u.mon.sleeps k true
  pid : ∃ pid, w.mon.mem (.pid p) = some pid ∧ w.mon.mem (.sleepPid k) = some pid ∧
    ∀ n, u.mon.mem (.pid p) = some n → n = pid
  mem : ∀ x, x.lock = none → x ≠ .pid p → x ≠ .sleepPid k → w.mon.mem x = u.mon.mem x

theorem safe_take {Q : Unit → Local → Prop} (hu : u.Calm) (hme : u.core.me = .proc p)
    (hchild : u.core.child = none) (hz : Waiting (.sleep k) u z)
    (hfalse : z.mon.mem (.sleepLocked k) = some false)
    (hQ : ∀ w, u.Took w p k → Q () w) :
    Safe (do
      store (.sleepLocked k) true
      let p ← self
      let pid ← load (.pid p)
      store (.sleepPid k) pid
      release (.sleep k)) Q z := by
  have hmez := hz.inside.me.trans hme
  have hne : Loc.sleepLocked k ≠ .sleepPid k := by simp
  have hne' : Loc.sleepLocked k ≠ .pid p := by simp
  have hne'' : Loc.pid p ≠ .sleepPid k := by simp
  have hheld : z.core.grip (.sleep k) ≠ .free := by simp [hz.inside.held]
  have hw₁ : z.Writes (.sleepLocked k) true := ⟨hheld, hfalse⟩
  apply safe_bind
  refine safe_store hw₁ ?_
  have hz₁ := hz.inside.of_core (hz.inside.steady.store hw₁) rfl
  have hsleeps₁ : (z.storeMon (.sleepLocked k) true).sleeps =
      Function.update u.mon.sleeps k true := by
    rw [← hz.sleeps]
    rfl
  have hlocked₁ : (z.storeMon (.sleepLocked k) true).mem (.sleepLocked k) = some true :=
    Function.update_self _ _ _
  have hquiet₁ : ∀ ch, (z.storeMon (.sleepLocked k) true).stale ch = false := hz.quiet
  have hmem₁ : ∀ x, x.lock = none → (z.storeMon (.sleepLocked k) true).mem x = u.mon.mem x := by
    intro x hx
    have hne : x ≠ .sleepLocked k := by
      rintro rfl
      cases hx
    exact (Local.storeMon_mem_of_ne hw₁ hne).trans (hz.mem x hx)
  generalize hm₁ : z.storeMon (.sleepLocked k) true = m₁
    at hz₁ hsleeps₁ hlocked₁ hquiet₁ hmem₁ ⊢
  have hme₁ : (Local.mk z.core m₁).core.me = .proc p := hmez
  apply safe_bind
  refine safe_self hz₁.steady hme₁ ?_
  -- the process's own number
  apply safe_bind
  refine safe_load (x := .pid p) (.inl hme₁) ?_
  intro pid hpid
  have hz₂ := hz₁.of_core (hz₁.steady.load (x := .pid p) (v := pid) (.inl hme₁)) rfl
  have hown₂ : (Local.mk z.core m₁).Owns (.pid p) := hme₁
  generalize hm₂ : Local.loadMon ⟨z.core, m₁⟩ (.pid p) pid = m₂ at hz₂ ⊢
  have hsleeps₂ : m₂.sleeps = Function.update u.mon.sleeps k true := by
    rw [← hm₂, ← hsleeps₁]
    rfl
  have hw₃ : (Local.mk z.core m₂).Writes (.sleepPid k) pid := by
    refine ⟨hheld, ?_⟩
    change m₂.sleeps k = true
    rw [hsleeps₂, Function.update_self]
  have hown₃ : (Local.mk z.core m₂).Owns (.sleepPid k) := hw₃.2
  apply safe_bind
  refine safe_store (x := .sleepPid k) hw₃ ?_
  have hz₃ := hz₂.of_core (hz₂.steady.store hw₃) rfl
  have hlocked₃ : (Local.storeMon ⟨z.core, m₂⟩ (.sleepPid k) pid).mem (.sleepLocked k) =
      some true := by
    rw [Local.storeMon_mem_of_ne hw₃ hne, ← hm₂]
    exact (Local.loadMon_mem_of_ne hne').trans hlocked₁
  have hleaves : ∀ j, ¬ Local.Leaves
      ⟨z.core, Local.storeMon ⟨z.core, m₂⟩ (.sleepPid k) pid⟩ (.sleep k) j := by
    rintro j ⟨hj, hfalse⟩
    cases hj
    cases hlocked₃.symm.trans hfalse
  have hquiet₃ : ∀ ch, (Local.storeMon ⟨z.core, m₂⟩ (.sleepPid k) pid).stale ch = false := by
    intro ch
    refine Eq.trans (b := m₂.stale ch) rfl ?_
    rw [← hm₂]
    exact hquiet₁ ch
  refine safe_back hu.steady hz₃ (hu.free _) (fun q hq => by cases hq) ?_ ?_
  · exact fun ch _ hst => absurd ((hquiet₃ ch).symm.trans hst) (by simp)
  have hforget : ∀ x, x.lock = none →
      (u.back ⟨z.core, Local.storeMon ⟨z.core, m₂⟩ (.sleepPid k) pid⟩ (.sleep k)).mon.mem x =
        (Local.storeMon ⟨z.core, m₂⟩ (.sleepPid k) pid).mem x :=
    fun x hx => Local.forget_private hx hleaves
  apply hQ
  constructor
  case calm => exact hu.back hz₃
  case core =>
      rw [Local.back, hz.child, ← hchild]
  case sleeps =>
      funext j
      simp only [Local.back, Local.unlockMon, hleaves j, decide_false, Bool.not_false,
        Bool.and_true]
      exact congrFun hsleeps₂ j
  case pid =>
      refine ⟨pid, ?_, ?_, ?_⟩
      · rw [hforget _ rfl, Local.storeMon_mem_of_ne hw₃ hne'', ← hm₂]
        exact Local.loadMon_mem_self hown₂
      · rw [hforget _ rfl]
        exact Local.storeMon_mem_self hw₃ hown₃
      · intro n hn
        exact (hpid n ((hmem₁ _ rfl).trans hn)).symm
  case mem =>
      intro x hx hne hne'
      rw [hforget x hx, Local.storeMon_mem_of_ne hw₃ hne', ← hm₂]
      exact (Local.loadMon_mem_of_ne hne).trans (hmem₁ x hx)

theorem safe_acquiresleep {Q : Unit → Local → Prop} (hu : u.Calm) (hme : u.core.me = .proc p)
    (hchild : u.core.child = none) (hQ : ∀ w, u.Took w p k → Q () w) :
    Safe (acquiresleep k) Q u := by
  apply safe_bind
  apply safe_hold hu.below
  apply safe_bind
  apply Routine.wp_whileTrue rules_monotone (· = u.hold (.sleep k)) rfl
  rintro _ rfl
  have hz : Waiting (.sleep k) u (u.hold (.sleep k)) := Waiting.hold hu hchild
  have hheld : (u.hold (.sleep k)).Owns (.sleepLocked k) := by
    change (u.hold (.sleep k)).core.grip (.sleep k) ≠ .free
    simp [hz.inside.held]
  refine safe_load (x := .sleepLocked k) hheld ?_
  intro on _
  have hz₁ := hz.load (x := .sleepLocked k) (a := on) hheld (by simp [Loc.lock])
  have hon := Local.loadMon_mem_self (v := on) hheld
  cases on with
  | true =>
      refine safe_sleep (.sleep k) hu hme hz₁.inside rfl hz₁.mem hz₁.sleeps
        (fun ch _ => hz₁.quiet ch) ?_ rfl
      simpa [Local.blocked] using hon
  | false => exact safe_take hu hme hchild hz₁ hon hQ

structure Local.Holds (u : Local) (p k : Nat) : Prop where
  sleeps : u.mon.sleeps k = true
  pid : ∃ pid, u.mon.mem (.pid p) = some pid ∧ u.mon.mem (.sleepPid k) = some pid

theorem safe_holdingsleep {Q : Bool → Local → Prop} (hu : u.Calm) (hme : u.core.me = .proc p)
    (hchild : u.core.child = none) (hholds : u.Holds p k) (hQ : Q true u) :
    Safe (holdingsleep k) Q u := by
  obtain ⟨hsleeps, pid, hpid, hsleepPid⟩ := hholds
  have hz : Waiting (.sleep k) u (u.hold (.sleep k)) := Waiting.hold hu hchild
  have hheld : (u.hold (.sleep k)).Owns (.sleepLocked k) := by
    change (u.hold (.sleep k)).core.grip (.sleep k) ≠ .free
    simp [hz.inside.held]
  apply safe_bind
  apply safe_hold hu.below
  apply safe_bind
  refine safe_load (x := .sleepLocked k) hheld ?_
  intro on hgives
  have htrue : on = true := hgives.2 hsleeps (hu.steady.mem _ (.sleep k) rfl (hu.free _))
  have hz₁ := hz.load (x := .sleepLocked k) (a := on) hheld (by simp [Loc.lock])
  have hlocked : (Local.mk (u.hold (.sleep k)).core
      ((u.hold (.sleep k)).loadMon (.sleepLocked k) on)).mon.mem (.sleepLocked k) = some on :=
    Local.loadMon_mem_self hheld
  subst htrue
  generalize Local.mk (u.hold (.sleep k)).core
    ((u.hold (.sleep k)).loadMon (.sleepLocked k) true) = z at hz₁ hlocked ⊢
  have hmez : z.core.me = .proc p := hz₁.inside.me.trans hme
  have hheldz : z.core.grip (.sleep k) ≠ .free := by simp [hz₁.inside.held]
  have hsleepPidz : z.mon.mem (.sleepPid k) = some pid := (hz₁.mem _ rfl).trans hsleepPid
  have hpidz : z.mon.mem (.pid p) = some pid := (hz₁.mem _ rfl).trans hpid
  rw [if_pos rfl]
  apply safe_bind
  refine safe_load (x := .sleepPid k) hheldz ?_
  intro n hn
  obtain rfl : n = pid := hn pid hsleepPidz
  rw [Local.loadMon_eq hsleepPidz (by simp [Loc.lock])]
  apply safe_bind
  refine safe_self hz₁.inside.steady hmez ?_
  apply safe_bind
  refine safe_load (x := .pid p) (.inl hmez) ?_
  intro mine hmine
  obtain rfl : mine = n := hmine n hpidz
  rw [Local.loadMon_eq hpidz (by simp [Loc.lock])]
  apply safe_bind
  apply safe_pure
  apply safe_bind
  refine safe_back hu.steady hz₁.inside (hu.free _) (fun q hq => by cases hq) ?_ ?_
  · exact fun ch _ hst => absurd ((hz₁.quiet ch).symm.trans hst) (by simp)
  have hleaves : ∀ j, ¬ z.Leaves (.sleep k) j := by
    rintro j ⟨hj, hfalse⟩
    cases hj
    cases hlocked.symm.trans hfalse
  rw [hz₁.inside.back_eq hu.steady hu.free (hz₁.child.trans hchild.symm) hz₁.mem hz₁.sleeps
    hleaves]
  simpa using safe_pure hQ

theorem safe_releasesleep {Q : Unit → Local → Prop} (hu : u.Calm)
    (hchild : u.core.child = none) (hsleeps : u.mon.sleeps k = true)
    (hQ : ∀ w, w.Calm → w.core = u.core → w.mon.sleeps = Function.update u.mon.sleeps k false →
      (∀ x, x.lock = none → x ≠ .sleepPid k → x ≠ .data k → w.mon.mem x = u.mon.mem x) →
      Q () w) : Safe (releasesleep k) Q u := by
  have hz : Waiting (.sleep k) u (u.hold (.sleep k)) := Waiting.hold hu hchild
  have hheld : (u.hold (.sleep k)).core.grip (.sleep k) ≠ .free := by simp [hz.inside.held]
  have hne : Loc.sleepLocked k ≠ .sleepPid k := by simp
  apply safe_bind
  apply safe_hold hu.below
  have hw₁ : (u.hold (.sleep k)).Writes (.sleepLocked k) false := ⟨hheld, hsleeps⟩
  apply safe_bind
  refine safe_store hw₁ ?_
  have hz₁ := hz.inside.of_core (hz.inside.steady.store hw₁) rfl
  have hsleeps₁ : ((u.hold (.sleep k)).storeMon (.sleepLocked k) false).sleeps =
      Function.update u.mon.sleeps k true := rfl
  have hlocked₁ : ((u.hold (.sleep k)).storeMon (.sleepLocked k) false).mem (.sleepLocked k) =
      some false := Function.update_self _ _ _
  have hstale₁ : ∀ ch, ((u.hold (.sleep k)).storeMon (.sleepLocked k) false).stale ch = true →
      ch = .sleep k := by
    intro ch hst
    obtain hold | hnew := Local.storeMon_stale.1 hst
    · cases (hz.quiet ch).symm.trans hold
    · exact hnew.1.2
  have hmem₁ : ∀ x, x.lock = none →
      ((u.hold (.sleep k)).storeMon (.sleepLocked k) false).mem x = u.mon.mem x := by
    intro x hx
    have hne : x ≠ .sleepLocked k := by
      rintro rfl
      cases hx
    exact (Local.storeMon_mem_of_ne hw₁ hne).trans (hz.mem x hx)
  generalize (u.hold (.sleep k)).storeMon (.sleepLocked k) false = m₁
    at hz₁ hsleeps₁ hlocked₁ hstale₁ hmem₁ ⊢
  have hw₂ : (Local.mk (u.hold (.sleep k)).core m₁).Writes (.sleepPid k) 0 := by
    refine ⟨hheld, ?_⟩
    change m₁.sleeps k = true
    rw [hsleeps₁, Function.update_self]
  apply safe_bind
  refine safe_store (x := .sleepPid k) hw₂ ?_
  have hz₂ := hz₁.of_core (hz₁.steady.store hw₂) rfl
  have hlocked₂ : (Local.storeMon ⟨(u.hold (.sleep k)).core, m₁⟩ (.sleepPid k) 0).mem
      (.sleepLocked k) = some false := (Local.storeMon_mem_of_ne hw₂ hne).trans hlocked₁
  have hmem₂ : ∀ x, x.lock = none → x ≠ .sleepPid k →
      (Local.storeMon ⟨(u.hold (.sleep k)).core, m₁⟩ (.sleepPid k) 0).mem x = u.mon.mem x :=
    fun x hx hne => (Local.storeMon_mem_of_ne hw₂ hne).trans (hmem₁ x hx)
  -- everyone who waits for the lock
  apply safe_bind
  refine safe_wakeup hz₂.steady (fun q => hz₂.below hu.below (by simp [Lock.rank]))
    (hz₂.cproc.trans (hu.steady.top hu.noff).2.1) ?_
  intro w hw hwoken
  have hz₃ := hz₂.of_core hw.steady (by rw [hw.core])
  have hlocked₃ : w.mon.mem (.sleepLocked k) = some false := by rw [hw.mem, hlocked₂]
  refine safe_back hu.steady hz₃ (hu.free _) (fun q hq => by cases hq) ?_ ?_
  · intro ch _ hst q hq hmeq
    rw [hw.stale] at hst
    rw [hw.core] at hmeq
    obtain rfl := hstale₁ ch hst
    exact hwoken _ rfl hheld q hq hmeq
  have hleaves : ∀ j, w.Leaves (.sleep k) j ↔ j = k := by
    intro j
    constructor
    · rintro ⟨hj, -⟩
      cases hj
      rfl
    · rintro rfl
      exact ⟨rfl, hlocked₃⟩
  apply hQ
  · exact hu.back hz₃
  · rw [Local.back, hw.core]
    rfl
  · funext j
    have hj : w.mon.sleeps j = Function.update u.mon.sleeps k true j := by
      rw [hw.sleeps]
      exact congrFun hsleeps₁ j
    simp only [Local.back, Local.unlockMon, hleaves, hj]
    by_cases hjk : j = k
    · simp [hjk]
    · simp [hjk]
  · intro x hx hne hne'
    refine Eq.trans ?_ (hmem₂ x hx hne)
    rw [← hw.mem]
    have hlock : x.lock ≠ some (.sleep k) := by simp [hx]
    cases x
    case sleepPid j => exact if_neg fun hj => hne (by rw [(hleaves j).1 hj])
    case data j => exact if_neg fun hj => hne' (by rw [(hleaves j).1 hj])
    all_goals exact if_neg (t := none) hlock

/-! ## A system call on files -/

/-- `p` holds the sleep-locks in `held`, and knows the data under them. -/
structure Local.Doing (p : Nat) (held : List (Nat × Nat)) (u : Local) : Prop
    extends Local.Calm u where
  me : u.core.me = .proc p
  child : u.core.child = none
  locked : ∀ k v, held.lookup k = some v → u.Holds p k ∧ u.mon.mem (.data k) = some v
  unlocked : ∀ k, held.lookup k = none → u.mon.sleeps k = false

theorem lookup_cons_of_ne {j v : Nat} (hj : j ≠ k) :
    ((k, v) :: held).lookup j = held.lookup j := by
  rw [List.lookup_cons, beq_false_of_ne hj]

theorem lookup_filter {j : Nat} :
    (held.filter (·.1 ≠ k)).lookup j = if j = k then none else held.lookup j := by
  induction held with
  | nil => simp
  | cons a held ih =>
      obtain ⟨i, v⟩ := a
      by_cases hi : i = k
      · subst hi
        rw [List.filter_cons_of_neg (by simp), ih]
        by_cases hj : j = i
        · simp [hj]
        · rw [if_neg hj, if_neg hj, lookup_cons_of_ne hj]
      · rw [List.filter_cons_of_pos (by simp [hi])]
        by_cases hj : j = i
        · subst hj
          simp [hi]
        · rw [lookup_cons_of_ne hj, lookup_cons_of_ne hj, ih]

theorem lookup_put {j v : Nat} :
    ((k, v) :: held.filter (·.1 ≠ k)).lookup j = if j = k then some v else held.lookup j := by
  by_cases hj : j = k
  · simp [hj]
  · rw [lookup_cons_of_ne hj, lookup_filter]
    simp [hj]

theorem safe_lock {Q : List (Nat × Nat) ⊕ Int → Local → Prop} (hu : u.Doing p held)
    (hk : held.lookup k = none)
    (hQ : ∀ v w, w.Doing p ((k, v) :: held) → Q (.inl ((k, v) :: held)) w) :
    Safe (do
      acquiresleep k
      let v ← load (.data k)
      pure (.inl ((k, v) :: held)) : SmpM (List (Nat × Nat) ⊕ Int)) Q u := by
  apply safe_bind
  refine safe_acquiresleep hu.toCalm hu.me hu.child ?_
  intro w hw
  obtain ⟨pid, hpid, hsleepPid, hsame⟩ := hw.pid
  have hown : w.Owns (.data k) := by
    change w.mon.sleeps k = true
    rw [hw.sleeps, Function.update_self]
  apply safe_bind
  refine safe_load (x := .data k) hown ?_
  intro v _
  apply safe_pure
  apply hQ
  have hmem : ∀ x, x ≠ .data k → (w.loadMon (.data k) v).mem x = w.mon.mem x :=
    fun x hx => Local.loadMon_mem_of_ne hx
  constructor
  case toCalm => exact ⟨hw.calm.steady.load (x := .data k) hown, hw.calm.on⟩
  case me =>
      change w.core.me = .proc p
      rw [hw.core, hu.me]
  case child =>
      change w.core.child = none
      rw [hw.core, hu.child]
  case locked =>
      intro j a hj
      by_cases hjk : j = k
      · subst hjk
        rw [List.lookup_cons, beq_self_eq_true] at hj
        cases hj
        refine ⟨⟨hown, pid, ?_, ?_⟩, Local.loadMon_mem_self hown⟩
        · rw [hmem _ (by simp), hpid]
        · rw [hmem _ (by simp), hsleepPid]
      · rw [lookup_cons_of_ne hjk] at hj
        obtain ⟨⟨hsleeps, n, hn, hn'⟩, hdata⟩ := hu.locked j a hj
        refine ⟨⟨?_, pid, ?_, ?_⟩, ?_⟩
        · change w.mon.sleeps j = true
          rw [hw.sleeps, Function.update_of_ne hjk, hsleeps]
        · rw [hmem _ (by simp), hpid]
        · rw [hmem _ (by simp), hw.mem _ rfl (by simp) (by simp [hjk]), hn', hsame n hn]
        · rw [hmem _ (by simp [hjk]), hw.mem _ rfl (by simp) (by simp), hdata]
  case unlocked =>
      intro j hj
      have hjk : j ≠ k := by
        rintro rfl
        simp at hj
      rw [lookup_cons_of_ne hjk] at hj
      change w.mon.sleeps j = false
      rw [hw.sleeps, Function.update_of_ne hjk, hu.unlocked j hj]

theorem safe_bwrite {a v : Nat} {Q : Unit → Local → Prop} (hu : u.Doing p held)
    (hk : held.lookup k = some a)
    (hQ : ∀ w, w.Doing p ((k, v) :: held.filter (·.1 ≠ k)) → Q () w) :
    Safe (bwrite k v) Q u := by
  obtain ⟨hholds, -⟩ := hu.locked k a hk
  have hw : u.Writes (.data k) v := hholds.sleeps
  have hown : u.Owns (.data k) := hholds.sleeps
  have hmem : ∀ x, x ≠ .data k → (u.storeMon (.data k) v).mem x = u.mon.mem x :=
    fun x hx => Local.storeMon_mem_of_ne hw hx
  apply safe_bind
  refine safe_holdingsleep hu.toCalm hu.me hu.child hholds ?_
  apply safe_bind
  apply safe_panicIf rfl
  refine safe_store hw ?_
  apply hQ
  constructor
  case toCalm => exact ⟨hu.steady.store hw, hu.on⟩
  case me => exact hu.me
  case child => exact hu.child
  case locked =>
      intro j b hj
      rw [lookup_put] at hj
      have hkeeps : ∀ i c, held.lookup i = some c →
          (Local.mk u.core (u.storeMon (.data k) v)).Holds p i := by
        intro i c hi
        obtain ⟨hsleeps, n, hn, hn'⟩ := (hu.locked i c hi).1
        exact ⟨hsleeps, n, (hmem _ (by simp)).trans hn, (hmem _ (by simp)).trans hn'⟩
      by_cases hjk : j = k
      · subst hjk
        rw [if_pos rfl] at hj
        cases hj
        exact ⟨hkeeps j a hk, Local.storeMon_mem_self hw hown⟩
      · rw [if_neg hjk] at hj
        exact ⟨hkeeps j b hj, (hmem _ (by simp [hjk])).trans (hu.locked j b hj).2⟩
  case unlocked =>
      intro j hj
      rw [lookup_put] at hj
      split at hj
      · cases hj
      · exact hu.unlocked j hj

theorem safe_brelse {a : Nat} {Q : Unit → Local → Prop} (hu : u.Doing p held)
    (hk : held.lookup k = some a)
    (hQ : ∀ w, w.Doing p (held.filter (·.1 ≠ k)) → Q () w) : Safe (brelse k) Q u := by
  obtain ⟨hholds, -⟩ := hu.locked k a hk
  apply safe_bind
  refine safe_holdingsleep hu.toCalm hu.me hu.child hholds ?_
  apply safe_bind
  apply safe_panicIf rfl
  refine safe_releasesleep hu.toCalm hu.child hholds.sleeps ?_
  intro w hcalm hcore hsleeps hmem
  apply hQ
  constructor
  case toCalm => exact hcalm
  case me => rw [hcore, hu.me]
  case child => rw [hcore, hu.child]
  case locked =>
      intro j b hj
      rw [lookup_filter] at hj
      by_cases hjk : j = k
      · rw [if_pos hjk] at hj
        cases hj
      · rw [if_neg hjk] at hj
        obtain ⟨⟨hheld, n, hn, hn'⟩, hdata⟩ := hu.locked j b hj
        refine ⟨⟨?_, n, ?_, ?_⟩, ?_⟩
        · rw [hsleeps, Function.update_of_ne hjk, hheld]
        · rw [hmem _ rfl (by simp) (by simp), hn]
        · rw [hmem _ rfl (by simp [hjk]) (by simp), hn']
        · rw [hmem _ rfl (by simp) (by simp [hjk]), hdata]
  case unlocked =>
      intro j hj
      rw [lookup_filter] at hj
      rw [hsleeps]
      by_cases hjk : j = k
      · rw [hjk, Function.update_self]
      · rw [if_neg hjk] at hj
        rw [Function.update_of_ne hjk, hu.unlocked j hj]

theorem safe_ioTurn {Q : List (Nat × Nat) ⊕ Int → Local → Prop} (hu : u.Doing p held)
    (hmore : ∀ held' w, w.Doing p held' → Q (.inl held') w)
    (hdone : ∀ w, w.Top p → Q (.inr 0) w) : Safe (ioTurn held) Q u := by
  apply safe_bind
  refine safe_op hu.on trivial fun step _ _ _ => ?_
  cases step with
  | lock k =>
      change Safe (if (held.lookup k).isSome then pure (.inl held) else _) Q u
      split
      case isTrue => exact safe_pure (hmore held u hu)
      case isFalse hnone =>
          exact safe_lock hu (Option.not_isSome_iff_eq_none.1 hnone) fun v w hw => hmore _ w hw
  | write k v =>
      change Safe (if (held.lookup k).isSome then _ else pure (.inl held)) Q u
      split
      case isTrue hsome =>
          obtain ⟨a, ha⟩ := Option.isSome_iff_exists.1 hsome
          apply safe_bind
          exact safe_bwrite hu ha fun w hw => safe_pure (hmore _ w hw)
      case isFalse => exact safe_pure (hmore held u hu)
  | read k =>
      dsimp only
      change Safe _ Q u
      cases hk : held.lookup k with
      | none => exact safe_pure (hmore held u hu)
      | some v =>
          obtain ⟨hholds, hdata⟩ := hu.locked k v hk
          apply safe_bind
          refine safe_load (x := .data k) hholds.sleeps ?_
          intro v' hv'
          obtain rfl : v' = v := hv' v hdata
          rw [Local.loadMon_eq hdata (by simp [Loc.lock])]
          apply safe_bind
          apply safe_panicIf (by simp)
          exact safe_pure (hmore held u hu)
  | unlock k =>
      change Safe (if (held.lookup k).isSome then _ else pure (.inl held)) Q u
      split
      case isTrue hsome =>
          obtain ⟨a, ha⟩ := Option.isSome_iff_exists.1 hsome
          apply safe_bind
          exact safe_brelse hu ha fun w hw => safe_pure (hmore _ w hw)
      case isFalse => exact safe_pure (hmore held u hu)
  | done =>
      dsimp only
      cases held with
      | nil =>
          apply safe_pure
          exact hdone u ⟨hu.toCalm, hu.me, hu.child, fun k => hu.unlocked k rfl⟩
      | cons a held => exact safe_pure (hmore _ u hu)

theorem safe_sysIo {Q : Int → Local → Prop} (hu : u.Top p) (hQ : ∀ n w, w.Top p → Q n w) :
    Safe sysIo Q u := by
  apply Routine.wp_loop (fun held w => w.Doing p held)
  · exact ⟨hu.toCalm, hu.me, hu.child, by simp, fun k _ => hu.sleeps k⟩
  · intro held w hw
    exact safe_ioTurn hw (fun _ _ h => h) fun w' hw' => safe_pure (hQ 0 w' hw')

end SyscallSched.Xv6.Smp
