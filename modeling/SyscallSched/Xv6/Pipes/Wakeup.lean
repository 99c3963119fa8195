import SyscallSched.Xv6.Pipes.Model

/-!
# Sleeping on a pipe

A reader goes to sleep when the pipe is empty and open for writing, a writer when
it is full and open for reading.  Whoever changes that under `pi->lock` has to wake
the sleepers up before the lock is free again.  `pipewrite` does not when it finds
its process killed: it may have stored bytes since it took the lock.
-/

namespace SyscallSched.Xv6.Pipes

/-- Nobody is asleep on a pipe that is ready for them. -/
structure NoneMissed (s : State) : Prop where
  readers : ∀ p, (s.place p).asleepOn = some .nread → s.empty ∧ s.pipe.writeopen = true
  writers : ∀ p, (s.place p).asleepOn = some .nwrite → s.full ∧ s.pipe.readopen = true

/-- The step is that of a `pipewrite` that finds its process killed, while the ring
holds bytes and somebody sleeps on `&pi->nread`. -/
def State.Abandons (s : State) : Action → Prop
  | .run p _ => ∃ n i, s.place p = .writing n i ∧ i < n ∧ s.killed p = true ∧
      ¬ s.empty ∧ ∃ q, (s.place q).asleepOn = some .nread
  | _ => False

/-! ## The invariant -/

def Place.locked : Place → Bool
  | .writing _ _ => true
  | .waiting _ => true
  | .copying _ _ => true
  | _ => false

def State.Filling (s : State) : Prop :=
  ∃ p n i, s.lock = some p ∧ s.place p = .writing n i ∧ s.pipe.readopen = true

def State.Draining (s : State) : Prop :=
  ∃ p n i, s.lock = some p ∧ s.place p = .copying n i

structure Sound (s : State) : Prop where
  owner : ∀ p, (s.place p).locked = true ↔ s.lock = some p
  readers : ∀ p, (s.place p).asleepOn = some .nread →
    s.pipe.writeopen = true ∧ (s.empty ∨ s.Filling)
  writers : ∀ p, (s.place p).asleepOn = some .nwrite →
    s.pipe.readopen = true ∧ (s.full ∨ s.Draining)

section

variable {s s' : State} {p q i : Nat} {n : Int} {place : Place} {chan c : Chan}

theorem Sound.noneMissed (h : Sound s) (hlock : s.lock = none) : NoneMissed s := by
  constructor
  case readers =>
      intro p hp
      obtain ⟨hopen, hempty | hfilling⟩ := h.readers p hp
      · exact ⟨hempty, hopen⟩
      · obtain ⟨q, n, i, hq, -⟩ := hfilling
        rw [hlock] at hq
        cases hq
  case writers =>
      intro p hp
      obtain ⟨hopen, hfull | hdraining⟩ := h.writers p hp
      · exact ⟨hfull, hopen⟩
      · obtain ⟨q, n, i, hq, -⟩ := hdraining
        rw [hlock] at hq
        cases hq

/-- While `p` holds the lock outside the loop of `pipewrite`, readers sleep on an
empty pipe only. -/
theorem Sound.readers_empty (h : Sound s) (hlock : s.lock = some p)
    (hplace : ∀ n i, s.place p ≠ .writing n i) (hq : (s.place q).asleepOn = some .nread) :
    s.empty ∧ s.pipe.writeopen = true := by
  obtain ⟨hopen, hempty | hfilling⟩ := h.readers q hq
  · exact ⟨hempty, hopen⟩
  · obtain ⟨r, n, i, hr, hwriting, -⟩ := hfilling
    rw [hlock] at hr
    injection hr with hr
    rw [← hr] at hwriting
    exact absurd hwriting (hplace n i)

theorem Sound.writers_full (h : Sound s) (hlock : s.lock = some p)
    (hplace : ∀ n i, s.place p ≠ .copying n i) (hq : (s.place q).asleepOn = some .nwrite) :
    s.full ∧ s.pipe.readopen = true := by
  obtain ⟨hopen, hfull | hdraining⟩ := h.writers q hq
  · exact ⟨hfull, hopen⟩
  · obtain ⟨r, n, i, hr, hcopying⟩ := hdraining
    rw [hlock] at hr
    injection hr with hr
    rw [← hr] at hcopying
    exact absurd hcopying (hplace n i)

theorem Sound.lock_of_place (h : Sound s) (hplace : s.place p = place)
    (hlocked : place.locked = true) : s.lock = some p := by
  apply (h.owner p).mp
  rw [hplace]
  exact hlocked

theorem Sound.free (h : Sound s) (hlock : s.lock = some p) (hfree : s'.lock = none)
    (hself : (s'.place p).locked = false)
    (hothers : ∀ q, q ≠ p → (s'.place q).locked = (s.place q).locked)
    (hmissed : NoneMissed s') : Sound s' := by
  constructor
  case owner =>
      intro q
      rw [hfree]
      apply iff_of_false ?_ nofun
      by_cases hq : q = p
      · rw [hq, hself]
        exact Bool.false_ne_true
      · rw [hothers q hq, h.owner q, hlock]
        exact fun heq => hq (Option.some.inj heq).symm
  case readers =>
      intro q hq
      obtain ⟨hempty, hopen⟩ := hmissed.readers q hq
      exact ⟨hopen, Or.inl hempty⟩
  case writers =>
      intro q hq
      obtain ⟨hfull, hopen⟩ := hmissed.writers q hq
      exact ⟨hopen, Or.inl hfull⟩

theorem Sound.keep (h : Sound s) (hlock : s.lock = some p) (hkept : s'.lock = s.lock)
    (hself : (s'.place p).locked = true) (hothers : ∀ q, q ≠ p → s'.place q = s.place q)
    (hreaders : ∀ q, (s.place q).asleepOn = some .nread →
      s'.pipe.writeopen = true ∧ (s'.empty ∨ s'.Filling))
    (hwriters : ∀ q, (s.place q).asleepOn = some .nwrite →
      s'.pipe.readopen = true ∧ (s'.full ∨ s'.Draining)) : Sound s' := by
  have hawake : ∀ c q, (s'.place q).asleepOn = some c → (s.place q).asleepOn = some c := by
    intro c q hq
    by_cases hqp : q = p
    · subst hqp
      cases hplace : s'.place q <;> rw [hplace] at hq hself <;> cases hq <;> cases hself
    · rw [← hothers q hqp]
      exact hq
  constructor
  case owner =>
      intro q
      by_cases hq : q = p
      · rw [hq, hkept]
        exact iff_of_true hself hlock
      · rw [hothers q hq, h.owner q, hkept]
  case readers => exact fun q hq => hreaders q (hawake _ q hq)
  case writers => exact fun q hq => hwriters q (hawake _ q hq)

/-! ## Who is asleep after a step -/

theorem Place.asleepOn_woken (place : Place) : place.woken.asleepOn = none := by
  cases place <;> rfl

theorem Place.locked_woken (place : Place) : place.woken.locked = place.locked := by
  cases place <;> rfl

theorem asleep_of_goto (hplace : place.asleepOn = none)
    (h : ((s.goto p place).place q).asleepOn = some c) : (s.place q).asleepOn = some c := by
  by_cases hq : q = p
  · rw [hq, State.goto_place_self, hplace] at h
    cases h
  · rw [State.goto_place_ne s place hq] at h
    exact h

theorem asleep_of_wakeup (h : ((s.wakeup p chan).place q).asleepOn = some c) :
    (s.place q).asleepOn = some c ∧ (c = chan → q = p) := by
  unfold State.wakeup at h
  dsimp only at h
  split at h
  · rw [Place.asleepOn_woken] at h
    cases h
  case isFalse hno =>
      refine ⟨h, ?_⟩
      intro hc
      by_contra hq
      rw [hc] at h
      exact hno ⟨hq, h⟩

theorem locked_wakeup : ((s.wakeup p chan).place q).locked = (s.place q).locked := by
  unfold State.wakeup
  dsimp only
  split
  · exact Place.locked_woken _
  · rfl

/-! ## Giving the lock back -/

theorem release_place_self {value : Int} : (s.release p value).place p = .idle :=
  State.goto_place_self _ p .idle

theorem release_place_ne {value : Int} (h : q ≠ p) :
    (s.release p value).place q = s.place q :=
  State.goto_place_ne _ .idle h

theorem Sound.release {value : Int} (h : Sound s) (hlock : s.lock = some p)
    (hmissed : NoneMissed s) : Sound (s.release p value) := by
  have hasleep : ∀ c q, ((s.release p value).place q).asleepOn = some c →
      (s.place q).asleepOn = some c := by
    intro c q hq
    change (({ s with lock := none }.goto p .idle).place q).asleepOn = some c at hq
    exact asleep_of_goto rfl hq
  apply h.free hlock rfl
  · rw [release_place_self]
    rfl
  · intro q hq
    rw [release_place_ne hq]
  · constructor
    case readers => exact fun q hq => hmissed.readers q (hasleep _ q hq)
    case writers => exact fun q hq => hmissed.writers q (hasleep _ q hq)

/-- The sleepers on one channel are woken up; those on the other have reason to sleep
in `s'`, which differs from `s` in the pipe. -/
theorem Sound.wakeup_release {value : Int} (h : Sound s) (hlock : s.lock = some p)
    (hplaces : s'.place = s.place)
    (hreaders : chan ≠ .nread → ∀ q, (s.place q).asleepOn = some .nread →
      s'.empty ∧ s'.pipe.writeopen = true)
    (hwriters : chan ≠ .nwrite → ∀ q, (s.place q).asleepOn = some .nwrite →
      s'.full ∧ s'.pipe.readopen = true) : Sound ((s'.wakeup p chan).release p value) := by
  have hasleep : ∀ c q, (((s'.wakeup p chan).release p value).place q).asleepOn = some c →
      (s.place q).asleepOn = some c ∧ chan ≠ c := by
    intro c q hq
    by_cases hqp : q = p
    · rw [hqp, release_place_self] at hq
      cases hq
    · rw [release_place_ne hqp] at hq
      obtain ⟨hbefore, hself⟩ := asleep_of_wakeup hq
      rw [← hplaces]
      exact ⟨hbefore, fun hc => hqp (hself hc.symm)⟩
  apply h.free hlock rfl
  · rw [release_place_self]
    rfl
  · intro q hq
    rw [release_place_ne hq, locked_wakeup, hplaces]
  · constructor
    case readers =>
        intro q hq
        obtain ⟨hbefore, hchan⟩ := hasleep _ q hq
        exact hreaders hchan q hbefore
    case writers =>
        intro q hq
        obtain ⟨hbefore, hchan⟩ := hasleep _ q hq
        exact hwriters hchan q hbefore

theorem Sound.sleep (h : Sound s) (hlock : s.lock = some p) (hlocked : place.locked = false)
    (hplaces : ∀ q, (s'.place q).locked = (s.place q).locked)
    (hmissed : NoneMissed (s'.sleep p place)) : Sound (s'.sleep p place) := by
  apply h.free hlock rfl ?_ ?_ hmissed
  · rw [State.sleep, State.goto_place_self]
    exact hlocked
  · intro q hq
    rw [State.sleep, State.goto_place_ne _ _ hq]
    exact hplaces q

/-! ## One step -/

theorem Sound.goto_unlocked (h : Sound s) (hbefore : (s.place p).locked = false)
    (hafter : place.locked = false) (hawake : place.asleepOn = none) :
    Sound (s.goto p place) := by
  have hother : ∀ q, (s.place q).locked = true → (s.goto p place).place q = s.place q := by
    intro q hq
    apply State.goto_place_ne
    rintro rfl
    rw [hbefore] at hq
    cases hq
  have hholder : ∀ q, s.lock = some q → (s.goto p place).place q = s.place q :=
    fun q hq => hother q ((h.owner q).mpr hq)
  constructor
  case owner =>
      intro q
      by_cases hq : q = p
      · rw [hq, State.goto_place_self, hafter]
        apply iff_of_false Bool.false_ne_true
        intro hlock
        have hlocked := (h.owner p).mpr hlock
        rw [hbefore] at hlocked
        cases hlocked
      · rw [State.goto_place_ne s place hq]
        exact h.owner q
  case readers =>
      intro q hq
      obtain ⟨hopen, hempty | hfilling⟩ := h.readers q (asleep_of_goto hawake hq)
      · exact ⟨hopen, Or.inl hempty⟩
      · obtain ⟨r, n, i, hr, hwriting, hread⟩ := hfilling
        exact ⟨hopen, Or.inr ⟨r, n, i, hr, (hholder r hr).trans hwriting, hread⟩⟩
  case writers =>
      intro q hq
      obtain ⟨hopen, hfull | hdraining⟩ := h.writers q (asleep_of_goto hawake hq)
      · exact ⟨hopen, Or.inl hfull⟩
      · obtain ⟨r, n, i, hr, hcopying⟩ := hdraining
        exact ⟨hopen, Or.inr ⟨r, n, i, hr, (hholder r hr).trans hcopying⟩⟩

theorem Sound.call (h : Sound s) (hlocked : place.locked = false)
    (hawake : place.asleepOn = none) : Sound (s.call p place) := by
  unfold State.call
  split
  case isFalse => exact h
  case isTrue hidle =>
      have hgone : Sound (s.goto p place) := by
        apply h.goto_unlocked ?_ hlocked hawake
        rw [hidle]
        rfl
      exact ⟨hgone.owner, hgone.readers, hgone.writers⟩

theorem Sound.kill (h : Sound s) : Sound (s.kill p) := by
  have hmarked : Sound { s with killed := Function.update s.killed p true } :=
    ⟨h.owner, h.readers, h.writers⟩
  cases hlocked : (s.place p).locked with
  | false =>
      apply hmarked.goto_unlocked hlocked
      · rw [Place.locked_woken]
        exact hlocked
      · exact Place.asleepOn_woken _
  | true =>
      have hsame : (s.place p).woken = s.place p := by
        cases hplace : s.place p <;> rw [hplace] at hlocked <;> first | rfl | cases hlocked
      rw [State.kill, hsame, State.goto, Function.update_eq_self]
      exact hmarked

theorem Sound.acquire (h : Sound s) (hlocked : place.locked = true)
    (hawake : place.asleepOn = none) : Sound (s.acquire p place) := by
  unfold State.acquire
  split
  case isFalse => exact h
  case isTrue hfree =>
      have hmissed := h.noneMissed hfree
      constructor
      case owner =>
          intro q
          by_cases hq : q = p
          · rw [hq, State.goto_place_self]
            exact iff_of_true hlocked rfl
          · rw [State.goto_place_ne _ _ hq]
            apply iff_of_false
            · change ¬ (s.place q).locked = true
              rw [h.owner q, hfree]
              exact nofun
            · exact fun heq => hq (Option.some.inj heq).symm
      case readers =>
          intro q hq
          have hbefore := asleep_of_goto hawake hq
          exact ⟨(hmissed.readers q hbefore).2, Or.inl (hmissed.readers q hbefore).1⟩
      case writers =>
          intro q hq
          have hbefore := asleep_of_goto hawake hq
          exact ⟨(hmissed.writers q hbefore).2, Or.inl (hmissed.writers q hbefore).1⟩

theorem Sound.writeEnd (h : Sound s) (hplace : s.place p = .writing n i) :
    Sound (s.writeEnd p i) := by
  have hlock := h.lock_of_place hplace rfl
  apply h.wakeup_release hlock rfl
  · exact fun hne => absurd rfl hne
  · intro _ q hq
    apply h.writers_full hlock ?_ hq
    intro n' i'
    rw [hplace]
    exact nofun

theorem Sound.write {copyin : Option UInt8} (h : Sound s) (hplace : s.place p = .writing n i)
    (hkept : i < n → s.killed p = true → s.empty ∨ ∀ q, (s.place q).asleepOn ≠ some .nread) :
    Sound (s.write p n i copyin) := by
  have hlock := h.lock_of_place hplace rfl
  have hfull : ∀ q, (s.place q).asleepOn = some .nwrite → s.full ∧ s.pipe.readopen = true := by
    intro q hq
    apply h.writers_full hlock ?_ hq
    intro n' i'
    rw [hplace]
    exact nofun
  unfold State.write
  split
  case isFalse => exact h.writeEnd hplace
  case isTrue hin =>
  split
  case isTrue hgone =>
      apply h.release hlock
      constructor
      case readers =>
          intro q hq
          obtain ⟨hopen, hempty | hfilling⟩ := h.readers q hq
          · exact ⟨hempty, hopen⟩
          · obtain ⟨-, -, -, -, -, hread⟩ := hfilling
            -- the readers' end is open, so the process is killed
            rw [hread, Bool.true_eq_false, false_or] at hgone
            cases hkept hin hgone with
            | inl hempty => exact ⟨hempty, hopen⟩
            | inr hnone => exact absurd hq (hnone q)
      case writers => exact hfull
  case isFalse hgone =>
  have hread : s.pipe.readopen = true := by
    cases hr : s.pipe.readopen with
    | true => rfl
    | false => exact absurd (Or.inl hr) hgone
  split
  case isTrue hf =>
      apply h.sleep hlock rfl fun q => locked_wakeup
      constructor
      case readers =>
          intro q hq
          by_cases hqp : q = p
          · rw [hqp, State.sleep, State.goto_place_self] at hq
            cases hq
          · rw [State.sleep, State.goto_place_ne _ _ hqp] at hq
            exact absurd ((asleep_of_wakeup hq).2 rfl) hqp
      case writers => exact fun q _ => ⟨hf, hread⟩
  case isFalse hroom =>
      cases copyin with
      | none => exact h.writeEnd hplace
      | some ch =>
          refine h.keep hlock rfl ?_ ?_ ?_ ?_
          · change (((s.store ch).goto p (.writing n (i + 1))).place p).locked = true
            rw [State.goto_place_self]
            rfl
          · exact fun q hq => State.goto_place_ne _ _ hq
          · intro q hq
            refine ⟨(h.readers q hq).1, Or.inr ⟨p, n, i + 1, hlock, ?_, hread⟩⟩
            exact State.goto_place_self _ p _
          · intro q hq
            exact absurd (hfull q hq).1 hroom

theorem Sound.wait (h : Sound s) (hplace : s.place p = .waiting n) : Sound (s.wait p n) := by
  have hlock := h.lock_of_place hplace rfl
  have hmissed : NoneMissed s := by
    constructor
    case readers =>
        intro q hq
        apply h.readers_empty hlock ?_ hq
        intro n' i'
        rw [hplace]
        exact nofun
    case writers =>
        intro q hq
        apply h.writers_full hlock ?_ hq
        intro n' i'
        rw [hplace]
        exact nofun
  unfold State.wait
  split
  case isTrue hwait =>
      split
      · exact h.release hlock hmissed
      · apply h.sleep hlock rfl fun q => rfl
        constructor
        case readers => exact fun q _ => hwait
        case writers =>
            intro q hq
            by_cases hqp : q = p
            · rw [hqp, State.sleep, State.goto_place_self] at hq
              cases hq
            · rw [State.sleep, State.goto_place_ne _ _ hqp] at hq
              exact hmissed.writers q hq
  case isFalse =>
      refine h.keep hlock rfl ?_ ?_ ?_ ?_
      · rw [State.goto_place_self]
        rfl
      · exact fun q hq => State.goto_place_ne _ _ hq
      · intro q hq
        exact ⟨(hmissed.readers q hq).2, Or.inl (hmissed.readers q hq).1⟩
      · intro q hq
        exact ⟨(hmissed.writers q hq).2, Or.inl (hmissed.writers q hq).1⟩

theorem Sound.copy {copyout : Bool} (h : Sound s) (hplace : s.place p = .copying n i) :
    Sound (s.copy p n i copyout) := by
  have hlock := h.lock_of_place hplace rfl
  have hempty : ∀ q, (s.place q).asleepOn = some .nread →
      s.empty ∧ s.pipe.writeopen = true := by
    intro q hq
    apply h.readers_empty hlock ?_ hq
    intro n' i'
    rw [hplace]
    exact nofun
  have hend : Sound (s.readEnd p i) := by
    apply h.wakeup_release hlock rfl
    · exact fun _ => hempty
    · exact fun hne => absurd rfl hne
  unfold State.copy
  split
  case isFalse => exact hend
  split
  case isTrue => exact hend
  case isFalse hne =>
  split
  · refine h.keep hlock rfl ?_ ?_ ?_ ?_
    · change ((s.take.goto p (.copying n (i + 1))).place p).locked = true
      rw [State.goto_place_self]
      rfl
    · exact fun q hq => State.goto_place_ne _ _ hq
    · exact fun q hq => absurd (hempty q hq).1 hne
    · intro q hq
      refine ⟨(h.writers q hq).1, Or.inr ⟨p, n, i + 1, hlock, ?_⟩⟩
      exact State.goto_place_self _ p _
  · refine h.wakeup_release hlock rfl ?_ ?_
    · exact fun _ q hq => absurd (hempty q hq).1 hne
    · exact fun hne => absurd rfl hne

theorem NoneMissed.shut {writable : Bool} (h : NoneMissed s)
    (hplace : (s.place p).asleepOn = none) :
    NoneMissed (s.shut p writable) := by
  have hself : ∀ {c q}, q = p → (s.place q).asleepOn ≠ some c := by
    intro c q hq
    rw [hq, hplace]
    exact nofun
  unfold State.shut
  cases writable with
  | true =>
      rw [if_pos rfl]
      constructor
      case readers =>
          intro q hq
          obtain ⟨hbefore, hwake⟩ := asleep_of_wakeup hq
          exact absurd hbefore (hself (hwake rfl))
      case writers => exact fun q hq => h.writers q (asleep_of_wakeup hq).1
  | false =>
      rw [if_neg Bool.false_ne_true]
      constructor
      case readers => exact fun q hq => h.readers q (asleep_of_wakeup hq).1
      case writers =>
          intro q hq
          obtain ⟨hbefore, hwake⟩ := asleep_of_wakeup hq
          exact absurd hbefore (hself (hwake rfl))

theorem locked_shut {writable : Bool} :
    ((s.shut p writable).place q).locked = (s.place q).locked := by
  cases writable <;> exact locked_wakeup

theorem lock_shut {writable : Bool} : (s.shut p writable).lock = s.lock := by
  cases writable <;> rfl

theorem Sound.close {writable : Bool} (h : Sound s) (hplace : s.place p = .closeEnter writable) :
    Sound (s.close p writable) := by
  unfold State.close
  split
  case isFalse => exact h
  case isTrue hfree =>
      have hmissed : NoneMissed (s.shut p writable) := by
        apply (h.noneMissed hfree).shut
        rw [hplace]
        rfl
      have hunlocked : ∀ q, ((s.shut p writable).place q).locked = false := by
        intro q
        rw [locked_shut, Bool.eq_false_iff, Ne, h.owner q, hfree]
        exact nofun
      have hshut : Sound (s.shut p writable) := by
        constructor
        case owner =>
            intro q
            rw [hunlocked q, lock_shut, hfree]
            exact iff_of_false Bool.false_ne_true nofun
        case readers =>
            intro q hq
            exact ⟨(hmissed.readers q hq).2, Or.inl (hmissed.readers q hq).1⟩
        case writers =>
            intro q hq
            exact ⟨(hmissed.writers q hq).2, Or.inl (hmissed.writers q hq).1⟩
      exact hshut.goto_unlocked (hunlocked p) rfl rfl

theorem Sound.resume {user : UserCopy} (h : Sound s) (hkept : ¬ s.Abandons (.run p user)) :
    Sound (s.resume p user) := by
  unfold State.resume
  split
  case h_3 n i hplace =>
      apply h.write hplace
      intro hin hkilled
      by_cases hempty : s.empty
      · exact Or.inl hempty
      · right
        intro q hq
        exact hkept ⟨n, i, hplace, hin, hkilled, hempty, q, hq⟩
  case h_7 n hplace => exact h.wait hplace
  case h_10 n i hplace => exact h.copy hplace
  case h_11 writable hplace => exact h.close hplace
  all_goals first
    | exact h
    | exact h.acquire rfl rfl

theorem Sound.step {a : Action} (h : Sound s) (hkept : ¬ s.Abandons a) : Sound (s.step a) := by
  cases a with
  | pipewrite p n => exact h.call rfl rfl
  | piperead p n => exact h.call rfl rfl
  | pipeclose p writable => exact h.call rfl rfl
  | kill p => exact h.kill
  | run p user => exact h.resume hkept

/-- The step that abandons the readers leaves them asleep on a pipe that holds bytes. -/
theorem abandons_missed {a : Action} (ha : s.Abandons a) :
    (s.step a).lock = none ∧ ¬ NoneMissed (s.step a) := by
  cases a with
  | run p user =>
      obtain ⟨n, i, hplace, hin, hkilled, hne, q, hq⟩ := ha
      have hstep : s.step (.run p user) = s.release p (-1) := by
        rw [State.step, State.resume, hplace]
        simp only [State.write, if_pos hin, if_pos (Or.inr hkilled)]
      have hqp : q ≠ p := by
        rintro rfl
        rw [hplace] at hq
        cases hq
      rw [hstep]
      refine ⟨rfl, ?_⟩
      intro hmissed
      have hasleep : ((s.release p (-1)).place q).asleepOn = some .nread := by
        rw [release_place_ne hqp]
        exact hq
      exact hne (hmissed.readers q hasleep).1
  | pipewrite p n => cases ha
  | piperead p n => cases ha
  | pipeclose p writable => cases ha
  | kill p => cases ha

end

/-! ## Whole runs -/

theorem Sound.initial (page : Nat → UInt8) : Sound (State.initial page) := by
  constructor
  case owner => exact fun p => iff_of_false Bool.false_ne_true nofun
  case readers => exact fun p hp => (nomatch hp)
  case writers => exact fun p hp => (nomatch hp)

def NeverAbandons (s : State) (actions : List Action) : Prop :=
  ∀ before a rest, actions = before ++ a :: rest → ¬ (s.run before).Abandons a

/-- Whenever the lock is free, nobody is asleep on a pipe that is ready for them. -/
def NoneMissedThroughout (s : State) (actions : List Action) : Prop :=
  ∀ before rest, actions = before ++ rest → (s.run before).lock = none →
    NoneMissed (s.run before)

theorem run_concat (s : State) (actions : List Action) (a : Action) :
    s.run (actions ++ [a]) = (s.run actions).step a := by
  rw [State.run, List.foldl_append]
  rfl

theorem Sound.run {s : State} {actions : List Action} (h : Sound s)
    (hkept : NeverAbandons s actions) : Sound (s.run actions) := by
  induction actions generalizing s with
  | nil => exact h
  | cons a actions ih =>
      rw [State.run_cons]
      apply ih
      · exact h.step (hkept [] a actions rfl)
      · intro before b rest heq
        exact hkept (a :: before) b rest (by rw [heq, List.cons_append])

/-- A run keeps readers and writers from sleeping on a pipe that is ready for them
exactly when no `pipewrite` of a killed process leaves bytes behind for readers that
are asleep. -/
theorem noneMissed_iff (page : Nat → UInt8) (actions : List Action) :
    NoneMissedThroughout (State.initial page) actions ↔
      NeverAbandons (State.initial page) actions := by
  constructor
  case mpr =>
      intro hkept before rest heq hlock
      apply Sound.noneMissed ?_ hlock
      apply (Sound.initial page).run
      intro first a second hbefore
      apply hkept first a (second ++ rest)
      rw [heq, hbefore, List.append_assoc, List.cons_append]
  case mp =>
      intro hmissed before a rest heq ha
      obtain ⟨hlock, hbad⟩ := abandons_missed ha
      rw [← run_concat] at hlock hbad
      exact hbad (hmissed _ rest (by rw [heq, List.append_assoc]; rfl) hlock)

/-- A reader falls asleep; a writer stores one of two bytes and is killed. -/
def killedWriter : List Action :=
  [.piperead 1 1, .run 1 ⟨some 0, true⟩, .run 1 ⟨some 0, true⟩,
    .pipewrite 2 2, .run 2 ⟨some 0, true⟩, .run 2 ⟨some 65, true⟩,
    .kill 2, .run 2 ⟨some 66, true⟩]

theorem killedWriter_missed :
    ¬ NoneMissedThroughout (State.initial fun _ => 5) killedWriter := by
  intro h
  have hlock : ((State.initial fun _ => 5).run killedWriter).lock = none := rfl
  have hasleep : (((State.initial fun _ => 5).run killedWriter).place 1).asleepOn =
      some .nread := rfl
  have hbytes : ¬ ((State.initial fun _ => 5).run killedWriter).empty := by decide
  have hmissed := h killedWriter [] (List.append_nil _).symm hlock
  exact hbytes (hmissed.readers 1 hasleep).1

end SyscallSched.Xv6.Pipes
