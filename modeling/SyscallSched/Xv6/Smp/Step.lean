import SyscallSched.Xv6.Smp.Switch

/-!
# Every operation keeps the invariant
-/

namespace SyscallSched.Xv6.Smp

variable {s : State} {l : Thread → Core} {c : Nat} {t : Thread}

theorem advance_eq {o : Op} {r : o.Res} (ho : ∀ j w, Core.other o j w = w) :
    advance l t o r = Function.update l t ((l t).next o r) := by
  have hl : (fun j => Core.other o j (l j)) = l := by
    funext j
    exact ho j (l j)
  rw [advance, hl]

theorem advance_self {o : Op} {r : o.Res} (ho : ∀ j w, Core.other o j w = w)
    (hnext : (l t).next o r = l t) : advance l t o r = l := by
  rw [advance_eq ho, hnext, Function.update_eq_self]

section

variable (h : Inv s l)

include h

theorem Inv.act_swap {k : Lock} {r : Bool} (hpre : (l (s.cur c)).Pre (.swap k))
    (hr : r = (s.lock k).locked) :
    Inv (s.setLock k { s.lock k with locked := true }) (advance l (s.cur c) (.swap k) r) := by
  obtain ⟨hsie, hfree, -⟩ := hpre
  rw [advance_eq fun _ _ => rfl]
  cases hl : (s.lock k).locked with
  | true =>
      have hs : s.setLock k { s.lock k with locked := true } = s := by
        rw [State.setLock, ← hl, Function.update_eq_self]
      rw [hs, hr, hl]
      simpa [Core.next] using h
  | false =>
      have hnone : ∀ c', (l (s.cur c')).grip k = .free := by
        intro c'
        by_contra hgrip
        have hlocked := (h.locked k).2 ⟨c', hgrip⟩
        rw [hl] at hlocked
        cases hlocked
      rw [hr, hl]
      apply h.relock hsie
      case hothers => exact fun c' hc' => absurd (hnone c') hc'
      case hcpu =>
          intro c'
          simp only [reduceCtorEq, and_false, iff_false]
          intro heq
          rw [h.lockCpu, hnone] at heq
          cases heq
      case hlocked => simp
      case hsame =>
          intro q hk
          simp [hk]
      case hfree => simp
      case hst =>
          intro q x hk hx
          split at hx
          · rename_i hand
            have hown := h.own q ⟨c, (h.me _).symm.trans hand.2⟩
            have hmy := hnone c
            rw [← h.me (s.cur c), hand.2, hk] at hmy
            rw [if_pos hmy] at hown
            rw [hown]
            exact Option.some.inj hx
          · exact h.state c q x hx
      case hid => exact fun q _ hi => h.idle c q hi
      case hown =>
          intro q hk hme
          have hown := h.own q ⟨c, hme⟩
          rw [hk, hme] at hfree
          rw [if_pos hfree] at hown
          simp [hk, h.me, hme, hown]
      case hpicked =>
          intro q hk hq hrest
          obtain ⟨c', hg, -⟩ := h.picked q hq hrest
          rw [← hk] at hg
          exact absurd (hnone c') hg

theorem Inv.act_setLockCpu {k : Lock} (hpre : (l (s.cur c)).Pre (.setLockCpu k)) :
    Inv (s.setLock k { s.lock k with cpu := some c })
      (advance l (s.cur c) (.setLockCpu k) ()) := by
  obtain ⟨hsie, hmarked⟩ := hpre
  have hgrip : (l (s.cur c)).grip k ≠ .free := by simp [hmarked]
  rw [advance_eq fun _ _ => rfl]
  apply h.relock hsie
  case hothers => exact fun c' hc' => h.holder k c' c hc' hgrip
  case hcpu =>
      intro c'
      simp [eq_comm]
  case hlocked => simpa using (h.locked k).2 ⟨c, hgrip⟩
  case hsame => simp
  case hfree => simp
  case hst => exact fun q x _ hx => h.state c q x hx
  case hid => exact fun q _ hi => h.idle c q hi
  case hown =>
      intro q hk hme
      have hown := h.own q ⟨c, hme⟩
      rw [hk, hme] at hgrip
      rw [if_neg hgrip] at hown
      simpa [hme] using hown.1
  case hpicked =>
      intro q hk hq hrest
      obtain ⟨c', hg, hi⟩ := h.picked q hq hrest
      rw [← hk] at hg
      rw [h.holder k c' c hg hgrip] at hi
      exact ⟨by simp, hi⟩

theorem Inv.act_clearLockCpu {k : Lock} (hpre : (l (s.cur c)).Pre (.clearLockCpu k)) :
    Inv (s.setLock k { s.lock k with cpu := none })
      (advance l (s.cur c) (.clearLockCpu k) ()) := by
  have hheld : (l (s.cur c)).grip k = .held := hpre
  have hgrip : (l (s.cur c)).grip k ≠ .free := by simp [hheld]
  rw [advance_eq fun _ _ => rfl]
  apply h.relock (h.sie_of_grip hgrip)
  case hothers => exact fun c' hc' => h.holder k c' c hc' hgrip
  case hcpu => simp
  case hlocked => simpa using (h.locked k).2 ⟨c, hgrip⟩
  case hsame => simp
  case hfree => simp
  case hst => exact fun q x _ hx => h.state c q x hx
  case hid => exact fun q _ hi => h.idle c q hi
  case hown =>
      intro q hk hme
      have hown := h.own q ⟨c, hme⟩
      rw [hk, hme] at hgrip
      rw [if_neg hgrip] at hown
      simpa [hme] using hown.1
  case hpicked =>
      intro q hk hq hrest
      obtain ⟨c', hg, hi⟩ := h.picked q hq hrest
      rw [← hk] at hg
      rw [h.holder k c' c hg hgrip] at hi
      exact ⟨by simp, hi⟩

theorem Inv.act_unlock {k : Lock} (hpre : (l (s.cur c)).Pre (.unlock k)) :
    Inv (s.setLock k { s.lock k with locked := false }) (advance l (s.cur c) (.unlock k) ()) := by
  obtain ⟨hmarked, hproc⟩ := hpre
  have hgrip : (l (s.cur c)).grip k ≠ .free := by simp [hmarked]
  rw [advance_eq fun _ _ => rfl]
  apply h.relock (h.sie_of_grip hgrip)
  case hothers => exact fun c' hc' => h.holder k c' c hc' hgrip
  case hcpu =>
      intro c'
      simp only [reduceCtorEq, and_false, iff_false]
      intro heq
      rw [h.lockCpu] at heq
      have hc := h.holder k c' c (by simp [heq]) hgrip
      rw [hc, hmarked] at heq
      cases heq
  case hlocked => simp
  case hsame =>
      intro q hk
      simp [hk]
  case hfree =>
      intro q hk _
      simp [hk]
  case hst =>
      intro q x hk hx
      simp [hk] at hx
  case hid =>
      intro q hk hi
      simp [hk] at hi
  case hown =>
      intro q hk hme
      rw [if_pos rfl]
      exact h.state c q _ ((hproc q hk).1 ((h.me _).trans hme))
  case hpicked =>
      intro q hk hq hrest
      obtain ⟨c', hg, hi⟩ := h.picked q hq hrest
      rw [← hk] at hg
      rw [h.holder k c' c hg hgrip] at hi
      obtain ⟨st, hst, hne⟩ := (hproc q hk).2 hi
      exact absurd ((h.state c q st hst).symm.trans hq) hne

theorem Inv.act_state {p : Nat} (hpre : (l (s.cur c)).Pre (.state p)) :
    Inv s (advance l (s.cur c) (.state p) (s.state p)) := by
  have hheld : (l (s.cur c)).grip (.proc p) = .held := hpre
  rw [advance_eq fun _ _ => rfl]
  apply h.learn (by simp [hheld])
  intro q
  split
  · exact .inl rfl
  · rename_i hnot
    rw [h.me] at hnot
    by_cases hq : q = p
    · subst hq
      exact .inr ⟨rfl, fun heq => hnot (.inl heq), fun heq => hnot (.inr heq), by simp⟩
    · exact .inl (by simp [hq])

theorem Inv.act_setState {p : Nat} {st : ProcState}
    (hpre : (l (s.cur c)).Pre (.setState p st)) :
    Inv (s.setState p st) (advance l (s.cur c) (.setState p st) ()) := by
  obtain ⟨hheld, hmoves⟩ := hpre
  have hgrip : (l (s.cur c)).grip (.proc p) ≠ .free := by simp [hheld]
  unfold Core.Moves at hmoves
  rw [h.me] at hmoves
  by_cases hme : s.cur c = .proc p
  · rw [if_pos hme] at hmoves
    rw [advance_eq]
    · simp only [Core.next, if_pos ((h.me _).trans hme)]
      exact h.setOwn hme hgrip hmoves.2
    · intro j w
      obtain rfl | rfl | rfl := hmoves.2 <;> rfl
  · rw [if_neg hme] at hmoves
    have hfree : ∀ t b, (l t).live = true → s.state p ≠ .used → (l t).child ≠ some (p, b) :=
      fun t b ht hst hch => hst (h.child t p b ht hch).1
    have hkeep : ∀ q b, (l (s.cur c)).childAfter p st = some (q, b) → q ≠ p →
        (l (s.cur c)).child = some (q, b) := by
      intro q b hq hqp
      cases st <;> simp only [Core.childAfter] at hq
      case used =>
          cases hq
          exact absurd rfl hqp
      all_goals
        split at hq
        · cases hq
        · exact hq
    have hgone : ∀ b, st ≠ .used → (l (s.cur c)).childAfter p st ≠ some (p, b) := by
      intro b hst hq
      cases st <;> simp only [Core.childAfter] at hq
      case used => exact hst rfl
      all_goals
        split at hq
        · cases hq
        · rename_i hno
          rw [hq] at hno
          exact hno rfl
    -- the slot of a child is filled by its parent alone
    have hmine : ∀ t b b', (l (s.cur c)).child = some (p, b) → t ≠ s.cur c → (l t).live = true →
        (l t).child ≠ some (p, b') :=
      fun t b b' hch ht hlt hch' => ht (h.parent t _ p b' b hlt (h.live c) hch' hch)
    have hstep : ∀ (dies : Bool), (∀ j, Core.other (.setState p st) j (l j) =
        if j = .proc p ∧ dies then { l j with live := false } else l j) →
        ¬ s.Running (.proc p) → Resting p (Core.other (.setState p st) (.proc p) (l (.proc p))) st →
        (st = .running → (l (s.cur c)).idle p = true) →
        (∀ b, (l (s.cur c)).childAfter p st = some (p, b) → st = .used ∧
          (Core.other (.setState p st) (.proc p) (l (.proc p))).live = b) →
        (∀ t b, t ≠ s.cur c → (l t).live = true → (l t).child ≠ some (p, b)) → p < NPROC →
        Inv (s.setState p st) (advance l (s.cur c) (.setState p st) ()) := by
      intro dies hl₀ hnot hrest hpick hfill hothers hbound
      have hnext := h.setOther hl₀ hgrip hnot hrest hpick hkeep hfill hothers hbound
      simpa only [advance, Core.next, h.me, hme, if_false] using hnext
    cases st with
    | unused =>
        obtain ⟨hidle, hst⟩ | ⟨b, hch⟩ := hmoves
        · have hz := h.state c p _ hst
          refine hstep true (fun j => by simp [Core.other]) (h.idle c p hidle) ?_ (by simp)
            (fun b hb => absurd hb (hgone b (by simp))) ?_ (h.bound p (by simp [hz]))
          · simp [Resting, Core.other]
          · exact fun t b _ ht => hfree t b ht (by simp [hz])
        · have hused := h.child _ _ _ (h.live c) hch
          refine hstep true (fun j => by simp [Core.other]) (h.not_running_of_child (h.live c) hch)
            ?_ (by simp) (fun b hb => absurd hb (hgone b (by simp))) ?_
            (h.bound p (by simp [hused.1]))
          · simp [Resting, Core.other]
          · exact fun t b' ht hlt => hmine t b b' hch ht hlt
    | used =>
        obtain ⟨hidle, hst, -, hbound⟩ := hmoves
        have hz := h.state c p _ hst
        have hdead : (l (.proc p)).live = false := by
          have hrest := h.resting p (h.idle c p hidle)
          rwa [hz] at hrest
        refine hstep false (fun j => by simp [Core.other]) (h.idle c p hidle) ?_ (by simp)
          ?_ (fun t b _ ht => hfree t b ht (by simp [hz])) hbound
        · intro hlive
          exact absurd (hdead.symm.trans hlive) (by simp)
        · intro b hb
          cases hb
          exact ⟨rfl, hdead⟩
    | sleeping => exact hmoves.elim
    | zombie => exact hmoves.elim
    | running =>
        obtain ⟨hidle, hst, -⟩ := hmoves
        have hz := h.state c p _ hst
        refine hstep false (fun j => by simp [Core.other]) (h.idle c p hidle) ?_ (fun _ => hidle)
          (fun b hb => absurd hb (hgone b (by simp)))
          (fun t b _ ht => hfree t b ht (by simp [hz])) (h.bound p (by simp [hz]))
        have hrest := h.resting p (h.idle c p hidle)
        rwa [hz] at hrest
    | runnable =>
        obtain ⟨hidle, hst⟩ | hch := hmoves
        · have hz := h.state c p _ hst
          refine hstep false (fun j => by simp [Core.other]) (h.idle c p hidle) ?_ (by simp)
            (fun b hb => absurd hb (hgone b (by simp)))
            (fun t b _ ht => hfree t b ht (by simp [hz])) (h.bound p (by simp [hz]))
          have hrest := h.resting p (h.idle c p hidle)
          rwa [hz] at hrest
        · have hused := h.child _ _ _ (h.live c) hch
          have hnot := h.not_running_of_child (h.live c) hch
          refine hstep false (fun j => by simp [Core.other]) hnot ?_ (by simp)
            (fun b hb => absurd hb (hgone b (by simp)))
            (fun t b' ht hlt => hmine t true b' hch ht hlt) (h.bound p (by simp [hused.1]))
          have hrest := h.resting p hnot
          rw [hused.1] at hrest
          exact hrest hused.2

theorem Inv.act {o : Op} {r : o.Res} {s' : State} (hpre : (l (s.cur c)).Pre o)
    (hdoes : Does c s o r s') (hasks : Asks Plain o r) :
    (l (s.cur c)).Gives o r ∧ Inv s' (advance l (s.cur c) o r) := by
  have htied := h.tied c
  have off : ∀ {u : Core}, u.sie = false → u.sie = true → u.Open := by
    intro u hoff hon
    rw [hoff] at hon
    cases hon
  cases o with
  | intrGet =>
      obtain ⟨rfl, rfl⟩ := hdoes
      exact ⟨htied.sie, by rwa [advance_self (fun _ _ => rfl) rfl]⟩
  | intrOn =>
      refine ⟨trivial, ?_⟩
      rw [advance_eq fun _ _ => rfl]
      cases hdoes
      obtain ⟨hfree, hcproc⟩ := hpre
      exact h.registers rfl rfl rfl ⟨htied.noff, rfl, nofun, nofun,
        fun _ => ⟨hfree, hcproc, rfl, rfl⟩⟩
  | intrOff =>
      refine ⟨trivial, ?_⟩
      rw [advance_eq fun _ _ => rfl]
      cases hdoes
      exact h.registers rfl rfl rfl ⟨htied.noff, rfl, htied.intena, htied.prev, nofun⟩
  | sstatus =>
      obtain ⟨rfl, rfl⟩ := hdoes
      exact ⟨⟨htied.sie, htied.prev⟩, by rwa [advance_self (fun _ _ => rfl) rfl]⟩
  | setSstatus v =>
      refine ⟨trivial, ?_⟩
      rw [advance_eq fun _ _ => rfl]
      cases hdoes
      obtain ⟨hsie, hv⟩ := hpre
      exact h.registers rfl rfl rfl ⟨htied.noff, hv.trans hsie.symm, htied.intena,
        fun _ hb => Option.some.inj hb, off hsie⟩
  | sret =>
      refine ⟨trivial, ?_⟩
      rw [advance_eq fun _ _ => rfl]
      cases hdoes
      obtain ⟨hfree, hcproc, -, hprev⟩ := hpre
      have hspie := htied.prev _ hprev
      simp only [Prod.mk.injEq] at hspie
      exact h.registers rfl rfl rfl ⟨htied.noff, hspie.1, nofun, nofun,
        fun _ => ⟨hfree, hcproc, rfl, rfl⟩⟩
  | cpuid =>
      obtain ⟨rfl, rfl⟩ := hdoes
      exact ⟨trivial, by rwa [advance_self (fun _ _ => rfl) rfl]⟩
  | noff =>
      obtain ⟨rfl, rfl⟩ := hdoes
      exact ⟨htied.noff, by rwa [advance_self (fun _ _ => rfl) rfl]⟩
  | setNoff n =>
      refine ⟨trivial, ?_⟩
      have hsie : (l (s.cur c)).sie = false := hpre
      rw [advance_eq fun _ _ => rfl]
      cases hdoes
      exact h.registers rfl rfl rfl ⟨rfl, htied.sie, htied.intena, htied.prev, off hsie⟩
  | intena =>
      have hsie : (l (s.cur c)).sie = false := hpre
      obtain ⟨rfl, rfl⟩ := hdoes
      refine ⟨htied.intena, ?_⟩
      rw [advance_eq fun _ _ => rfl]
      have hnext := h.registers (v := s'.cpu c)
        (u := (l (s'.cur c)).next .intena (s'.cpu c).intena) rfl rfl rfl ?_
      · rwa [setCpu_self] at hnext
      · refine ⟨htied.noff, htied.sie, ?_, htied.prev, off hsie⟩
        intro b hb
        simp only [Core.next] at hb
        split at hb
        · cases hb
        · exact Option.some.inj hb
  | setIntena b =>
      refine ⟨trivial, ?_⟩
      have hsie : (l (s.cur c)).sie = false := hpre
      rw [advance_eq fun _ _ => rfl]
      cases hdoes
      exact h.registers rfl rfl rfl
        ⟨htied.noff, htied.sie, fun _ hb => Option.some.inj hb, htied.prev, off hsie⟩
  | cproc =>
      obtain ⟨rfl, rfl⟩ := hdoes
      refine ⟨?_, by rwa [advance_self (fun _ _ => rfl) rfl]⟩
      change _ = (l (s'.cur c)).myproc
      rw [Core.myproc, h.me, (h.sched c).2]
      obtain hcpu | ⟨p, hp, haway⟩ := h.cur c
      · rw [hcpu]
      · rw [hp]
        exact haway.cproc
  | setCproc p =>
      refine ⟨trivial, ?_⟩
      rw [advance_eq fun _ _ => rfl]
      cases hdoes
      obtain ⟨hsie, hcpu⟩ := hpre
      rw [h.me] at hcpu
      exact h.setCproc hsie hcpu
  | swap k =>
      obtain ⟨hr, rfl⟩ := hdoes
      exact ⟨trivial, h.act_swap hpre hr⟩
  | locked k =>
      obtain ⟨rfl, rfl⟩ := hdoes
      refine ⟨fun hgrip => (h.locked k).2 ⟨c, hgrip⟩, ?_⟩
      rwa [advance_self (fun _ _ => rfl) rfl]
  | lockCpu k =>
      obtain ⟨rfl, rfl⟩ := hdoes
      refine ⟨?_, by rwa [advance_self (fun _ _ => rfl) rfl]⟩
      change decide _ = true ↔ _
      rw [decide_eq_true_iff]
      exact h.lockCpu k c
  | setLockCpu k =>
      cases hdoes
      exact ⟨trivial, h.act_setLockCpu hpre⟩
  | clearLockCpu k =>
      cases hdoes
      exact ⟨trivial, h.act_clearLockCpu hpre⟩
  | unlock k =>
      cases hdoes
      exact ⟨trivial, h.act_unlock hpre⟩
  | state p =>
      obtain ⟨rfl, rfl⟩ := hdoes
      exact ⟨⟨fun st hst => h.state c p st hst, fun b hb => (h.child _ p b (h.live c) hb).1⟩,
        h.act_state hpre⟩
  | setState p st =>
      cases hdoes
      exact ⟨trivial, h.act_setState hpre⟩
  | load x =>
      obtain ⟨rfl, rfl⟩ := hdoes
      exact ⟨trivial, by rwa [advance_self (fun _ _ => rfl) rfl]⟩
  | store x v =>
      cases hdoes
      refine ⟨trivial, ?_⟩
      rw [advance_self (fun _ _ => rfl) rfl]
      exact ⟨h.me, h.cproc, h.sched, h.cur, h.once, h.live, h.tied, h.lockCpu, h.locked, h.holder,
        h.unknown, h.state, h.idle, h.own, h.resting, h.picked, h.child, h.parent, h.bound⟩
  | peek x =>
      obtain ⟨rfl, rfl⟩ := hdoes
      exact ⟨trivial, by rwa [advance_self (fun _ _ => rfl) rfl]⟩
  | peekState p =>
      obtain ⟨rfl, rfl⟩ := hdoes
      exact ⟨trivial, by rwa [advance_self (fun _ _ => rfl) rfl]⟩
  | setPriority p n =>
      cases hdoes
      refine ⟨trivial, ?_⟩
      rw [advance_self (fun _ _ => rfl) rfl]
      exact ⟨h.me, h.cproc, h.sched, h.cur, h.once, h.live, h.tied, h.lockCpu, h.locked, h.holder,
        h.unknown, h.state, h.idle, h.own, h.resting, h.picked, h.child, h.parent, h.bound⟩
  | setContext p =>
      refine ⟨trivial, ?_⟩
      obtain ⟨-, hchild⟩ := hpre
      cases hdoes
      have hnext := h.setContext hchild
      have hl : (fun j => Core.other (.setContext p) j (l j)) =
          Function.update l (.proc p) (Core.fresh p) := by
        funext j
        by_cases hj : j = .proc p
        · simp [Core.other, hj]
        · simp [Core.other, hj]
      rwa [contexted, ← hl] at hnext
  | swtchTo p =>
      refine ⟨trivial, ?_⟩
      rw [advance_eq fun _ _ => rfl]
      cases hdoes
      obtain ⟨hcpu, hnoff, hsie, honly, hcproc, hidle, hst⟩ := hpre
      rw [h.me] at hcpu
      exact h.swtchTo hcpu hnoff hsie honly hcproc hidle hst
  | swtchBack =>
      refine ⟨trivial, ?_⟩
      rw [advance_eq fun _ _ => rfl]
      cases hdoes
      obtain ⟨p, hme, hnoff, hsie, honly, hst⟩ := hpre
      have hme' := h.me (s.cur c)
      rw [hme] at hme'
      have hnext := h.swtchBack hme'.symm hnoff hsie honly hst
      simpa only [Core.next, hme] using hnext
  | wfi =>
      cases hdoes
      exact ⟨trivial, by rwa [advance_self (fun _ _ => rfl) rfl]⟩
  | user =>
      refine ⟨hasks, ?_⟩
      obtain ⟨-, hsie, b, hb⟩ := hpre
      rw [advance_eq fun _ _ => rfl]
      cases hdoes
      have hprev := htied.prev _ hb
      simp only [Prod.mk.injEq] at hprev
      refine h.registers rfl rfl rfl ⟨htied.noff, hsie.symm, htied.intena, ?_, off hsie⟩
      intro b' hb'
      have hb'' := hb.symm.trans hb'
      cases hb''
      simp [hprev.1]
  | attempt =>
      cases hdoes
      exact ⟨trivial, by rwa [advance_self (fun _ _ => rfl) rfl]⟩
  | ioStep =>
      cases hdoes
      exact ⟨trivial, by rwa [advance_self (fun _ _ => rfl) rfl]⟩
  | panic m => exact hdoes.elim

theorem Inv.interrupt (hsie : (s.cpu c).sie = true) :
    (l (s.cur c)).Open ∧
      Inv (s.setCpu c { s.cpu c with sie := false, spie := true, spp := true })
        (Function.update l (s.cur c)
          { l (s.cur c) with sie := false, prev := some (true, true) }) := by
  have htied := h.tied c
  refine ⟨htied.on (htied.sie ▸ hsie), ?_⟩
  exact h.registers rfl rfl rfl
    ⟨htied.noff, rfl, htied.intena, fun _ hb => Option.some.inj hb, nofun⟩

end

end SyscallSched.Xv6.Smp
