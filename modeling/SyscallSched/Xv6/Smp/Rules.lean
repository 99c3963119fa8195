import SyscallSched.Xv6.Smp.Parents

/-!
# What is asked of the operations

`rules` puts together what an operation asks of a thread, for its own state and for what
it knows of memory.  `act_ok` says that a thread that keeps to the rules keeps the
invariant.
-/

namespace SyscallSched.Xv6.Smp

open SyscallSched.Foundation

/-- A thread that ends has nothing more to do. -/
def rules : Program.Rules Local Op.Res := fun o Q u =>
  u.core.Pre o ∧ u.Pre o ∧
    ∀ r, u.core.Gives o r → u.Gives o r → (u.next o r).core.live = true → Q r (u.next o r)

theorem rules_monotone : rules.Monotone := by
  intro o Q Q' u hQ h
  exact ⟨h.1, h.2.1, fun r hr hr' hlive => hQ r _ (h.2.2 r hr hr' hlive)⟩

abbrev Safe {α : Type} (p : SmpM α) (Q : α → Local → Prop) (u : Local) : Prop :=
  Routine.wp rules p Q u

variable {s s' : State} {l : Thread → Local} {c : Nat}

theorem cores_advance {t : Thread} {o : Op} {r : o.Res} :
    cores (advanceLocal l t o r) = advance (cores l) t o r := by
  funext j
  by_cases hj : j = t
  · subst hj
    simp [cores, advanceLocal, advance, Local.next]
  · simp [cores, advanceLocal, advance, hj, Local.other]

theorem advanceLocal_eq {t : Thread} {o : Op} {r : o.Res} (ho : ∀ j w, Local.other o j w = w) :
    advanceLocal l t o r = Function.update l t ((l t).next o r) := by
  have hl : (fun j => Local.other o j (l j)) = l := by
    funext j
    exact ho j (l j)
  rw [advanceLocal, hl]

theorem MonInv.act_quiet (hm : MonInv s l) {t : Thread} {o : Op} {r : o.Res}
    (ho : ∀ j w, Local.other o j w = w) (hmem : s'.mem = s.mem) (hstate : s'.state = s.state)
    (hcur : ∀ c, s'.cur c = s.cur c) (hmon : (l t).nextMon o r = (l t).mon)
    (hme : ((l t).core.next o r).me = (l t).core.me)
    (hlive : ((l t).core.next o r).live = (l t).core.live)
    (hgrip : ∀ k, ((l t).core.next o r).grip k = .free ↔ (l t).core.grip k = .free) :
    MonInv s' (advanceLocal l t o r) := by
  rw [advanceLocal_eq ho]
  have hview : ∀ {β : Type} (f : Local → β), f ((l t).next o r) = f (l t) →
      ∀ j, f (Function.update l t ((l t).next o r) j) = f (l j) := by
    intro β f hf j
    by_cases hj : j = t
    · subst hj
      simpa using hf
    · simp [hj]
  apply hm.congr hmem hstate
  case hrun =>
      intro j
      simp only [State.Running, hcur]
  case hmon => exact hview (·.mon) hmon
  case hme => exact hview (·.core.me) hme
  case hlive => exact hview (·.core.live) hlive
  case hgrip =>
      intro j k
      exact iff_of_eq (hview (fun w => w.core.grip k = .free) (propext (hgrip k)) j)

theorem MonInv.act_setState_own (hm : MonInv s l) (h : Inv s (cores l)) {p : Nat} {st : ProcState}
    (hcore : (l (s.cur c)).core.Pre (.setState p st)) (hpre : (l (s.cur c)).Pre (.setState p st))
    (hme : (l (s.cur c)).core.me = .proc p) :
    MonInv (s.setState p st) (advanceLocal l (s.cur c) (.setState p st) ()) := by
  obtain ⟨-, hmoves⟩ := hcore
  unfold Core.Moves at hmoves
  rw [if_pos hme] at hmoves
  obtain ⟨hsleep, hzombie⟩ := hpre hme
  have hcur : s.cur c = .proc p := (h.me (s.cur c)).symm.trans hme
  have hother : ∀ j w, Local.other (.setState p st) j w = w := by
    intro j w
    obtain rfl | rfl | rfl := hmoves.2 <;> rfl
  have hrun : s.Running (.proc p) := ⟨c, hcur⟩
  have hlive := h.live c
  rw [advanceLocal_eq hother]
  rw [hcur] at hme hsleep hzombie hlive hmoves ⊢
  have hself : Function.update l (.proc p) ((l (.proc p)).next (.setState p st) ()) (.proc p) =
      (l (.proc p)).next (.setState p st) () := Function.update_self _ _ _
  apply MonInv.setState_own
  by_cases hz : st = .zombie
  · subst hz
    have hnext : (l (.proc p)).next (.setState p .zombie) () =
        ⟨(l (.proc p)).core.next (.setState p .zombie) (), (l (.proc p)).dieMon p⟩ := by
      simp [Local.next, Local.nextMon, hme]
    obtain ⟨hwait, hparent, -⟩ := hzombie rfl
    constructor
    case inv => exact h
    case mon => exact hm
    case running => exact hrun
    case other => exact fun j hj => Function.update_of_ne hj _ _
    case used => simp
    case dozes => simp
    case waits => exact fun _ => hwait
    all_goals rw [hself, hnext]
    case seen =>
        intro q hq
        simp only [Local.dieMon] at hq
        by_cases hqp : q = p
        · rw [hqp, Function.update_self] at hq
          cases hq
        · rw [Function.update_of_ne hqp] at hq
          exact ⟨hq, fun _ => hqp⟩
    case stale =>
        intro ch
        obtain ⟨v, hv⟩ := Option.isSome_iff_exists.1 hparent
        have hmem := (hm.know _ _ v hlive hv).2.2
        simp only [Local.dieMon, hv, hmem, true_and]
        cases v with
        | none => simp
        | some q =>
            by_cases hch : ch = .proc q
            · simp [hch]
            · simp [hch]
    all_goals rfl
  · have hnext : (l (.proc p)).next (.setState p st) () =
        ⟨(l (.proc p)).core.next (.setState p st) (), (l (.proc p)).mon⟩ := by
      obtain rfl | rfl | rfl := hmoves.2
      · rfl
      · rfl
      · exact absurd rfl hz
    constructor
    case inv => exact h
    case mon => exact hm
    case running => exact hrun
    case other => exact fun j hj => Function.update_of_ne hj _ _
    case used => obtain rfl | rfl | rfl := hmoves.2 <;> simp
    case dozes => exact hsleep
    case waits => exact fun hst => absurd hst hz
    all_goals rw [hself, hnext]
    case seen => exact fun q hq => ⟨hq, fun hst => absurd hst hz⟩
    case stale => simp [hz]
    all_goals rfl

theorem not_running_of_moves (h : Inv s (cores l)) {p : Nat} {st : ProcState}
    (hmoves : (l (s.cur c)).core.Moves p st) (hme : (l (s.cur c)).core.me ≠ .proc p) :
    ¬ s.Running (.proc p) ∧ st ≠ .sleeping ∧ st ≠ .zombie ∧
      (st = .used → s.state p = .unused) ∧
      (st = .unused → s.state p = .zombie ∨ s.state p = .used) := by
  unfold Core.Moves at hmoves
  rw [if_neg hme] at hmoves
  have hidle : ∀ st', (l (s.cur c)).core.idle p = true ∧ (l (s.cur c)).core.state p = some st' →
      ¬ s.Running (.proc p) ∧ s.state p = st' :=
    fun st' hand => ⟨h.idle c p hand.1, h.state c p st' hand.2⟩
  have hchild : ∀ b, (l (s.cur c)).core.child = some (p, b) →
      ¬ s.Running (.proc p) ∧ s.state p = .used :=
    fun b hch => ⟨h.not_running_of_child (h.live c) hch, (h.child _ _ _ (h.live c) hch).1⟩
  cases st with
  | unused =>
      obtain hand | ⟨b, hch⟩ := hmoves
      · exact ⟨(hidle _ hand).1, by simp, by simp, by simp, fun _ => .inl (hidle _ hand).2⟩
      · exact ⟨(hchild b hch).1, by simp, by simp, by simp, fun _ => .inr (hchild b hch).2⟩
  | used =>
      have hand := hidle _ ⟨hmoves.1, hmoves.2.1⟩
      exact ⟨hand.1, by simp, by simp, fun _ => hand.2, by simp⟩
  | sleeping => exact hmoves.elim
  | zombie => exact hmoves.elim
  | running => exact ⟨(hidle _ ⟨hmoves.1, hmoves.2.1⟩).1, by simp, by simp, by simp, by simp⟩
  | runnable =>
      obtain hand | hch := hmoves
      · exact ⟨(hidle _ hand).1, by simp, by simp, by simp, by simp⟩
      · exact ⟨(hchild _ hch).1, by simp, by simp, by simp, by simp⟩

theorem MonInv.act_setState_other (hm : MonInv s l) (h : Inv s (cores l)) {p : Nat}
    {st : ProcState} (hcore : (l (s.cur c)).core.Pre (.setState p st))
    (hme : (l (s.cur c)).core.me ≠ .proc p) :
    MonInv (s.setState p st) (advanceLocal l (s.cur c) (.setState p st) ()) := by
  obtain ⟨hnot, hsl, hz, hused, hunused⟩ := not_running_of_moves h hcore.2 hme
  have hmon : (l (s.cur c)).nextMon (.setState p st) () = (l (s.cur c)).mon := by
    cases st <;> simp [Local.nextMon, hme]
  have hother : ∀ j, (Local.other (.setState p st) j (l j)).mon = (l j).mon ∧
      (Local.other (.setState p st) j (l j)).core.me = (l j).core.me ∧
      (Local.other (.setState p st) j (l j)).core.grip = (l j).core.grip ∧
      ((Local.other (.setState p st) j (l j)).core.live = (l j).core.live ∨
        j = .proc p ∧ st = .unused ∧
          (Local.other (.setState p st) j (l j)).core.live = false) := by
    intro j
    cases st <;> try exact ⟨rfl, rfl, rfl, .inl rfl⟩
    by_cases hj : j = .proc p
    · simp [Local.other, Core.other, hj]
    · simp [Local.other, Core.other, hj]
  have hadv : ∀ {β : Type} (f : Local → β),
      f ((l (s.cur c)).next (.setState p st) ()) = f (l (s.cur c)) →
      (∀ j, f (Local.other (.setState p st) j (l j)) = f (l j)) →
      ∀ j, f (advanceLocal l (s.cur c) (.setState p st) () j) = f (l j) := by
    intro β f hf hf' j
    by_cases hj : j = s.cur c
    · subst hj
      simpa [advanceLocal] using hf
    · simpa [advanceLocal, hj] using hf' j
  apply hm.setState_other h hnot hsl hz hused hunused
  case hme => exact hadv (·.core.me) rfl fun j => (hother j).2.1
  case hgrip => exact hadv (·.core.grip) rfl fun j => (hother j).2.2.1
  case hmon => exact hadv (·.mon) hmon fun j => (hother j).1
  case hlive =>
      intro j hj
      by_cases hjc : j = s.cur c
      · rw [hjc]
        exact h.live c
      · simp only [advanceLocal, Function.update_of_ne hjc] at hj
        obtain heq | ⟨-, -, hdead⟩ := (hother j).2.2.2
        · rwa [← heq]
        · rw [hdead] at hj
          cases hj
  case hdies =>
      intro j hj
      by_cases hjc : j = s.cur c
      · subst hjc
        left
        simp only [advanceLocal, Function.update_self]
        exact hj
      · simp only [advanceLocal, Function.update_of_ne hjc]
        obtain heq | ⟨hjp, hst, -⟩ := (hother j).2.2.2
        · exact .inl (heq.trans hj)
        · exact .inr ⟨hjp, hst⟩

theorem MonInv.act_setState (hm : MonInv s l) (h : Inv s (cores l)) {p : Nat} {st : ProcState}
    (hcore : (l (s.cur c)).core.Pre (.setState p st)) (hpre : (l (s.cur c)).Pre (.setState p st)) :
    MonInv (s.setState p st) (advanceLocal l (s.cur c) (.setState p st) ()) := by
  by_cases hme : (l (s.cur c)).core.me = .proc p
  · exact hm.act_setState_own h hcore hpre hme
  · exact hm.act_setState_other h hcore hme

theorem MonInv.gives (hm : MonInv s l) (hf : Parents s l) (h : Inv s (cores l)) {x : Loc} :
    (l (s.cur c)).Gives (.load x) (s.mem x) := by
  have hlive := h.live c
  cases x
  case sleepLocked k =>
      refine ⟨fun v hv => (hm.know _ _ v hlive hv).2.2, ?_⟩
      intro hs hnone
      obtain hon | ⟨-, -, hv⟩ := hm.owned _ k hlive hs
      · exact hon
      · rw [hnone] at hv
        cases hv
  case parent p =>
      refine ⟨fun v hv => (hm.know _ _ v hlive hv).2.2, ?_⟩
      rintro rfl
      exact hf.root
  all_goals exact fun v hv => (hm.know _ _ v hlive hv).2.2

theorem Inv.running_setCpu (h : Inv s (cores l)) {v : Cpu} {r : Thread} (hv : v.cur = r)
    (j : Thread) : (s.setCpu c v).Running j ↔ j = r ∨ j ≠ s.cur c ∧ s.Running j := by
  constructor
  · rintro ⟨c', hc'⟩
    by_cases hc : c' = c
    · rw [hc, setCpu_cur_self, hv] at hc'
      exact .inl hc'.symm
    · rw [setCpu_cur_of_ne hc] at hc'
      refine .inr ⟨?_, c', hc'⟩
      rintro rfl
      exact hc (h.cur_inj hc')
  · rintro (rfl | ⟨hj, c', hc'⟩)
    · exact ⟨c, by rw [setCpu_cur_self, hv]⟩
    · refine ⟨c', ?_⟩
      rw [setCpu_cur_of_ne, hc']
      rintro rfl
      exact hj hc'.symm

theorem MonInv.act_swtchBack (hm : MonInv s l) (h : Inv s (cores l)) {v : Cpu}
    (hv : v = { s.cpu c with cur := .cpu c })
    (hcore : (l (s.cur c)).core.Pre .swtchBack) (hpre : (l (s.cur c)).Pre .swtchBack) :
    MonInv (s.setCpu c v) (advanceLocal l (s.cur c) .swtchBack ()) := by
  obtain ⟨p, hme, -, -, honly, hst⟩ := hcore
  have hcur : s.cur c = .proc p := (h.me _).symm.trans hme
  have haway : Core.Away p (l (.cpu c)).core := by
    obtain hcpu | ⟨q, hq, haway⟩ := h.cur c
    · rw [hcur] at hcpu
      cases hcpu
    · rw [hcur] at hq
      rwa [Thread.proc.inj hq]
  have hstates : ∃ st, (l (s.cur c)).core.state p = some st ∧ st ≠ .used := by
    obtain hx | hx | hx := hst
    · exact ⟨_, hx, by simp⟩
    · exact ⟨_, hx, by simp⟩
    · exact ⟨_, hx.1, by simp⟩
  have hmon : (l (s.cur c)).nextMon .swtchBack () =
      { (l (s.cur c)).mon with
        mem := (l (s.cur c)).forget (.proc p), going := fun _ => false } := by
    simp [Local.nextMon, hme]
  have hcnext : (l (s.cur c)).core.next .swtchBack () = (l (s.cur c)).core.parked p := by
    simp [Core.next, hme]
  have hparked : ((l (s.cur c)).core.parked p).me = (l (s.cur c)).core.me ∧
      ((l (s.cur c)).core.parked p).grip = (l (s.cur c)).core.grip ∧
      (((l (s.cur c)).core.parked p).live = (l (s.cur c)).core.live ∨
        (l (s.cur c)).core.state p = some .zombie) := by
    unfold Core.parked
    split
    · exact ⟨rfl, rfl, .inr ‹_›⟩
    · exact ⟨rfl, rfl, .inl rfl⟩
  rw [advanceLocal_eq fun _ _ => rfl]
  generalize hu : (l (s.cur c)).next .swtchBack () = u
  have hucore : u.core = (l (s.cur c)).core.parked p := by rw [← hu, ← hcnext]; rfl
  have humon : u.mon = { (l (s.cur c)).mon with
      mem := (l (s.cur c)).forget (.proc p), going := fun _ => false } := by
    rw [← hu, ← hmon]
    rfl
  have hself : Function.update l (s.cur c) u (s.cur c) = u := Function.update_self _ _ _
  apply MonInv.switch
  constructor
  case inv => exact h
  case mon => exact hm
  case mem => rfl
  case state => rfl
  case running => exact ⟨c, rfl⟩
  case runs => exact h.running_setCpu (by rw [hv])
  case only => exact honly
  case only' => exact haway.only
  case live' => exact haway.live
  case other => exact fun j hj => Function.update_of_ne hj _ _
  case me => rw [hself, hucore, hparked.1]
  case grip => rw [hself, hucore, hparked.2.1]
  case ends =>
      rw [hself, hucore]
      obtain hlive | hz := hparked.2.2
      · exact .inl (hlive.trans (h.live c))
      · exact .inr (hpre p hz)
  case used =>
      intro q hq
      rw [hcur] at hq
      rw [← Thread.proc.inj hq]
      obtain ⟨st, hst, hne⟩ := hstates
      rwa [h.state c p st hst]
  case awake =>
      intro q hq
      cases hq
  all_goals rw [hself, humon]
  case going => exact fun _ => rfl

theorem MonInv.act_swtchTo (hm : MonInv s l) (h : Inv s (cores l)) {p : Nat} {v : Cpu}
    (hv : v = { s.cpu c with cur := .proc p }) (hcore : (l (s.cur c)).core.Pre (.swtchTo p)) :
    MonInv (s.setCpu c v) (advanceLocal l (s.cur c) (.swtchTo p) ()) := by
  obtain ⟨⟨c', hme⟩, -, -, honly, -, hidle, hst⟩ := hcore
  have hcpu : s.cur c = .cpu c' := (h.me _).symm.trans hme
  have hself : s.cur c = .cpu c := by rw [hcpu, h.cur_cpu hcpu]
  have hnot := h.idle c p hidle
  have hrunning := h.state c p _ hst
  have hparked : Core.Parked p (l (.proc p)).core := by
    have hrest := h.resting p hnot
    rwa [hrunning] at hrest
  have hgo : ∀ ch, (l (s.cur c)).mon.going ch = false := by
    intro ch
    cases hg : (l (s.cur c)).mon.going ch with
    | false => rfl
    | true =>
        obtain ⟨-, -, q, hq, -⟩ := hm.going _ ch (h.live c) hg
        rw [hself] at hq
        cases hq
  rw [advanceLocal_eq fun _ _ => rfl]
  apply MonInv.switch
  constructor
  case inv => exact h
  case mon => exact hm
  case mem => rfl
  case state => rfl
  case running => exact ⟨c, rfl⟩
  case runs => exact h.running_setCpu (by rw [hv])
  case only => exact honly
  case only' => exact hparked.only
  case live' => exact hparked.live
  case other => exact fun j hj => Function.update_of_ne hj _ _
  case used =>
      intro q hq
      rw [hself] at hq
      cases hq
  case awake =>
      intro q hq
      rw [← Thread.proc.inj hq, hrunning]
      simp
  case going =>
      rw [Function.update_self]
      exact hgo
  case ends =>
      rw [Function.update_self]
      exact .inl (h.live c)
  all_goals
    rw [Function.update_self]
    rfl

/-- The rule for all operations. -/
theorem MonInv.act (hm : MonInv s l) (hf : Parents s l) (h : Inv s (cores l)) {o : Op} {r : o.Res}
    (hcore : (l (s.cur c)).core.Pre o) (hpre : (l (s.cur c)).Pre o) (hdoes : Does c s o r s') :
    (l (s.cur c)).Gives o r ∧ MonInv s' (advanceLocal l (s.cur c) o r) := by
  have hquiet : ∀ {v : Cpu}, v.cur = s.cur c → ∀ {o : Op} {r : o.Res},
      (∀ j w, Local.other o j w = w) → (l (s.cur c)).nextMon o r = (l (s.cur c)).mon →
      ((l (s.cur c)).core.next o r).me = (l (s.cur c)).core.me →
      ((l (s.cur c)).core.next o r).live = (l (s.cur c)).core.live →
      ((l (s.cur c)).core.next o r).grip = (l (s.cur c)).core.grip →
      MonInv (s.setCpu c v) (advanceLocal l (s.cur c) o r) := by
    intro v hv o r ho hmon hme hlive hgrip
    exact hm.act_quiet ho rfl rfl (setCpu_cur hv) hmon hme hlive (by simp [hgrip])
  have hsame : ∀ {s' : State}, s' = s → ∀ {o : Op} {r : o.Res},
      (∀ j w, Local.other o j w = w) → (l (s.cur c)).nextMon o r = (l (s.cur c)).mon →
      ((l (s.cur c)).core.next o r).me = (l (s.cur c)).core.me →
      ((l (s.cur c)).core.next o r).live = (l (s.cur c)).core.live →
      ((l (s.cur c)).core.next o r).grip = (l (s.cur c)).core.grip →
      MonInv s' (advanceLocal l (s.cur c) o r) := by
    rintro s' rfl o r ho hmon hme hlive hgrip
    exact hm.act_quiet ho rfl rfl (fun _ => rfl) hmon hme hlive (by simp [hgrip])
  cases o with
  | intrGet => exact ⟨trivial, hsame hdoes.2 (fun _ _ => rfl) rfl rfl rfl rfl⟩
  | intrOn =>
      cases hdoes
      exact ⟨trivial, hquiet (by rfl) (fun _ _ => rfl) rfl rfl rfl rfl⟩
  | intrOff =>
      cases hdoes
      exact ⟨trivial, hquiet (by rfl) (fun _ _ => rfl) rfl rfl rfl rfl⟩
  | sstatus => exact ⟨trivial, hsame hdoes.2 (fun _ _ => rfl) rfl rfl rfl rfl⟩
  | setSstatus v =>
      cases hdoes
      exact ⟨trivial, hquiet (by rfl) (fun _ _ => rfl) rfl rfl rfl rfl⟩
  | sret =>
      cases hdoes
      exact ⟨trivial, hquiet (by rfl) (fun _ _ => rfl) rfl rfl rfl rfl⟩
  | cpuid => exact ⟨trivial, hsame hdoes.2 (fun _ _ => rfl) rfl rfl rfl rfl⟩
  | noff => exact ⟨trivial, hsame hdoes.2 (fun _ _ => rfl) rfl rfl rfl rfl⟩
  | setNoff n =>
      cases hdoes
      exact ⟨trivial, hquiet (by rfl) (fun _ _ => rfl) rfl rfl rfl rfl⟩
  | intena => exact ⟨trivial, hsame hdoes.2 (fun _ _ => rfl) rfl rfl rfl rfl⟩
  | setIntena b =>
      cases hdoes
      exact ⟨trivial, hquiet (by rfl) (fun _ _ => rfl) rfl rfl rfl rfl⟩
  | cproc => exact ⟨trivial, hsame hdoes.2 (fun _ _ => rfl) rfl rfl rfl rfl⟩
  | setCproc p =>
      cases hdoes
      exact ⟨trivial, hquiet (by rfl) (fun _ _ => rfl) rfl rfl rfl rfl⟩
  | swap k =>
      refine ⟨trivial, ?_⟩
      obtain ⟨hr, rfl⟩ := hdoes
      obtain ⟨hsie, hfree, hrank⟩ := hcore
      rw [advanceLocal_eq fun _ _ => rfl]
      cases hl : (s.lock k).locked with
      | true =>
          have hs : s.setLock k { s.lock k with locked := true } = s := by
            rw [State.setLock, ← hl, Function.update_eq_self]
          rw [hs, hr, hl]
          have hnext : (l (s.cur c)).next (.swap k) true = l (s.cur c) := rfl
          rwa [hnext, Function.update_eq_self]
      | false =>
          rw [hr, hl]
          refine hm.take h ?_ hrank rfl rfl rfl
          intro c'
          by_contra hg
          have hlocked := (h.locked k).2 ⟨c', hg⟩
          rw [hl] at hlocked
          cases hlocked
  | locked k => exact ⟨trivial, hsame hdoes.2 (fun _ _ => rfl) rfl rfl rfl rfl⟩
  | lockCpu k => exact ⟨trivial, hsame hdoes.2 (fun _ _ => rfl) rfl rfl rfl rfl⟩
  | setLockCpu k =>
      refine ⟨trivial, ?_⟩
      cases hdoes
      refine hm.act_quiet (fun _ _ => rfl) rfl rfl (fun _ => rfl) rfl rfl rfl ?_
      intro k'
      have hmarked : (l (s.cur c)).core.grip k = .marked := hcore.2
      by_cases hk : k' = k
      · simp [Core.next, hk, hmarked]
      · simp [Core.next, hk]
  | clearLockCpu k =>
      refine ⟨trivial, ?_⟩
      cases hdoes
      refine hm.act_quiet (fun _ _ => rfl) rfl rfl (fun _ => rfl) rfl rfl rfl ?_
      intro k'
      have hheld : (l (s.cur c)).core.grip k = .held := hcore
      by_cases hk : k' = k
      · simp [Core.next, hk, hheld]
      · simp [Core.next, hk]
  | unlock k =>
      cases hdoes
      exact ⟨trivial, hm.act_unlock h hcore hpre⟩
  | state p => exact ⟨trivial, hsame hdoes.2 (fun _ _ => rfl) rfl rfl rfl rfl⟩
  | setState p st =>
      cases hdoes
      exact ⟨trivial, hm.act_setState h hcore hpre⟩
  | load x =>
      obtain ⟨rfl, rfl⟩ := hdoes
      refine ⟨hm.gives hf h, ?_⟩
      rw [advanceLocal_eq fun _ _ => rfl]
      exact hm.act_load h hpre
  | store x v =>
      cases hdoes
      refine ⟨trivial, ?_⟩
      rw [advanceLocal_eq fun _ _ => rfl]
      exact hm.act_store h hpre
  | peek x => exact ⟨trivial, hsame hdoes.2 (fun _ _ => rfl) rfl rfl rfl rfl⟩
  | peekState p => exact ⟨trivial, hsame hdoes.2 (fun _ _ => rfl) rfl rfl rfl rfl⟩
  | setPriority p n =>
      cases hdoes
      exact ⟨trivial, hm.act_quiet (fun _ _ => rfl) rfl rfl (fun _ => rfl) rfl rfl rfl
        fun _ => Iff.rfl⟩
  | setContext p =>
      refine ⟨trivial, ?_⟩
      cases hdoes
      have hchild := hcore.2
      have hself : s.cur c ≠ .proc p := fun heq =>
        h.not_running_of_child (h.live c) hchild ⟨c, heq⟩
      have hview : ∀ {β : Type} (f : Local → β),
          f ((l (s.cur c)).next (.setContext p) ()) = f (l (s.cur c)) →
          ∀ j, j ≠ .proc p → f (advanceLocal l (s.cur c) (.setContext p) () j) = f (l j) := by
        intro β f hf j hj
        by_cases hjc : j = s.cur c
        · subst hjc
          simpa [advanceLocal] using hf
        · simp [advanceLocal, hjc, hj, Local.other, Core.other]
      refine hm.setContext h hchild ?_ (hview (·.mon) rfl) (hview (·.core.me) rfl)
        (hview (·.core.live) rfl) (hview (·.core.grip) rfl)
      simp [advanceLocal, Ne.symm hself, Local.other, Core.other]
  | swtchTo p =>
      cases hdoes
      exact ⟨trivial, hm.act_swtchTo h rfl hcore⟩
  | swtchBack =>
      cases hdoes
      exact ⟨trivial, hm.act_swtchBack h rfl hcore hpre⟩
  | wfi =>
      cases hdoes
      exact ⟨trivial, hsame rfl (fun _ _ => rfl) rfl rfl rfl rfl⟩
  | user =>
      cases hdoes
      exact ⟨trivial, hquiet (by rfl) (fun _ _ => rfl) rfl rfl rfl rfl⟩
  | attempt =>
      cases hdoes
      exact ⟨trivial, hsame rfl (fun _ _ => rfl) rfl rfl rfl rfl⟩
  | ioStep =>
      cases hdoes
      exact ⟨trivial, hsame rfl (fun _ _ => rfl) rfl rfl rfl rfl⟩
  | panic m => exact hdoes.elim

end SyscallSched.Xv6.Smp

/-!
## Spinlocks keep to the rules

What `push_off`, `pop_off`, `acquire` and `release` make of the state of the thread that
calls them.
-/

namespace SyscallSched.Xv6.Smp

open SyscallSched.Foundation

variable {u v w : Local} {k : Lock} {p : Nat}

/-! ## Single steps -/

theorem safe_bind {α β : Type} {x : SmpM α} {f : α → SmpM β} {Q : β → Local → Prop}
    (h : Safe x (fun a => Safe (f a) Q) u) : Safe (x >>= f) Q u :=
  Routine.wp_bind rules_monotone h

theorem safe_pure {α : Type} {a : α} {Q : α → Local → Prop} (h : Q a u) : Safe (pure a) Q u := h

theorem safe_op {o : Op} {Q : o.Res → Local → Prop} (hcore : u.core.Pre o) (hpre : u.Pre o)
    (hQ : ∀ r, u.core.Gives o r → u.Gives o r → (u.next o r).core.live = true →
      Q r (u.next o r)) : Safe (op o) Q u :=
  ⟨hcore, hpre, hQ⟩

/-- The check before a panic that does not come. -/
theorem safe_panicIf {b : Bool} {m : Panic} {Q : Unit → Local → Prop} (hb : b = false)
    (hQ : Q () u) : Safe (panicIf b m) Q u := by
  rw [panicIf, if_neg (by simp [hb])]
  exact hQ

namespace Local

def regs (u : Local) (noff : Nat) (intena : Option Bool) (sie : Bool)
    (prev : Option (Bool × Bool)) : Local :=
  ⟨{ u.core with noff := noff, intena := intena, sie := sie, prev := prev }, u.mon⟩

def withNoff (u : Local) (n : Nat) : Local := ⟨{ u.core with noff := n }, u.mon⟩

def withIntena (u : Local) (b : Option Bool) : Local := ⟨{ u.core with intena := b }, u.mon⟩

def withGrip (u : Local) (k : Lock) (g : Grip) : Local :=
  ⟨{ u.core with grip := Function.update u.core.grip k g }, u.mon⟩

end Local

theorem safe_intrGet {Q : Bool → Local → Prop} (hQ : Q u.core.sie u) : Safe (op .intrGet) Q u := by
  refine safe_op trivial trivial fun b hb _ _ => ?_
  cases hb
  exact hQ

theorem safe_noff {Q : Nat → Local → Prop} (hsie : u.core.sie = false) (hQ : Q u.core.noff u) :
    Safe (op .noff) Q u := by
  refine safe_op hsie trivial fun n hn _ _ => ?_
  cases hn
  exact hQ

theorem safe_setNoff {n : Nat} {Q : Unit → Local → Prop} (hsie : u.core.sie = false)
    (hQ : Q () (u.withNoff n)) : Safe (op (.setNoff n)) Q u :=
  safe_op hsie trivial fun _ _ _ _ => hQ

theorem safe_intena {Q : Bool → Local → Prop} (hsie : u.core.sie = false)
    (hQ : ∀ b, (∀ b', u.core.intena = some b' → b = b') →
      Q b (u.withIntena (if u.core.noff = 0 then none else some b))) : Safe (op .intena) Q u :=
  safe_op hsie trivial fun b hb _ _ => hQ b hb

theorem safe_setIntena {b : Bool} {Q : Unit → Local → Prop} (hsie : u.core.sie = false)
    (hQ : Q () (u.withIntena (some b))) : Safe (op (.setIntena b)) Q u :=
  safe_op hsie trivial fun _ _ _ _ => hQ

theorem safe_intrOn {Q : Unit → Local → Prop} (hfree : u.core.Free) (hcproc : u.core.cproc = none)
    (hQ : Q () (u.regs u.core.noff none true none)) : Safe (op .intrOn) Q u :=
  safe_op ⟨hfree, hcproc⟩ trivial fun _ _ _ _ => hQ

theorem safe_intrOff {Q : Unit → Local → Prop}
    (hQ : Q () (u.regs u.core.noff u.core.intena false u.core.prev)) : Safe (op .intrOff) Q u :=
  safe_op trivial trivial fun _ _ _ _ => hQ

theorem safe_cproc {Q : Option Nat → Local → Prop} (hsie : u.core.sie = false)
    (hQ : Q u.core.myproc u) : Safe (op .cproc) Q u := by
  refine safe_op hsie trivial fun p hp _ _ => ?_
  cases hp
  exact hQ

theorem safe_getState {Q : ProcState → Local → Prop} (hheld : u.core.grip (.proc p) = .held)
    (hQ : ∀ st, (∀ st', u.core.state p = some st' → st = st') →
      (∀ b, u.core.child = some (p, b) → st = .used) → Q st (u.next (.state p) st)) :
    Safe (getState p) Q u :=
  safe_op hheld trivial fun st hst _ _ => hQ st hst.1 hst.2

theorem safe_setState {st : ProcState} {Q : Unit → Local → Prop}
    (hheld : u.core.grip (.proc p) = .held) (hmoves : u.core.Moves p st)
    (hpre : u.Pre (.setState p st)) (hQ : Q () (u.next (.setState p st) ())) :
    Safe (setState p st) Q u :=
  safe_op ⟨hheld, hmoves⟩ hpre fun _ _ _ _ => hQ

theorem safe_load {x : Loc} {Q : x.Val → Local → Prop} (hreads : u.Reads x)
    (hQ : ∀ v, u.Gives (.load x) v → Q v ⟨u.core, u.loadMon x v⟩) : Safe (load x) Q u :=
  safe_op trivial hreads fun v _ hv _ => hQ v hv

theorem safe_store {x : Loc} {v : x.Val} {Q : Unit → Local → Prop} (hwrites : u.Writes x v)
    (hQ : Q () ⟨u.core, u.storeMon x v⟩) : Safe (store x v) Q u :=
  safe_op trivial hwrites fun _ _ _ _ => hQ

/-! ## Nesting of interrupts -/

namespace Local

def pushed (u : Local) : Local :=
  u.regs (u.core.noff + 1) (if u.core.noff = 0 then some u.core.sie else u.core.intena) false
    u.core.prev

/-- After `pop_off`, with interrupts on again when `b` says so. -/
def popped (u : Local) (b : Bool) : Local :=
  if u.core.noff = 1 then u.regs 0 none b (if b then none else u.core.prev)
  else u.withNoff (u.core.noff - 1)

def hold (u : Local) (k : Lock) : Local :=
  ⟨{ u.pushed.core.locked k with grip := Function.update u.core.grip k .held }, u.mon⟩

def unlocked (u : Local) (k : Lock) : Local := ⟨u.core.unlocked k, u.unlockMon k⟩

end Local

theorem safe_pushOff {Q : Unit → Local → Prop} (hQ : Q () u.pushed) : Safe pushOff Q u := by
  apply safe_bind
  apply safe_intrGet
  apply safe_bind
  apply safe_intrOff
  apply safe_bind
  apply safe_noff rfl
  split
  case isTrue hzero =>
      replace hzero : u.core.noff = 0 := hzero
      apply safe_bind
      apply safe_setIntena rfl
      apply safe_bind
      apply safe_noff rfl
      apply safe_setNoff rfl
      rwa [Local.pushed, if_pos hzero] at hQ
  case isFalse hzero =>
      replace hzero : u.core.noff ≠ 0 := hzero
      apply safe_bind
      apply safe_noff rfl
      apply safe_setNoff rfl
      rwa [Local.pushed, if_neg hzero] at hQ

theorem safe_popOff {Q : Unit → Local → Prop} (hsie : u.core.sie = false)
    (hnoff : u.core.noff ≠ 0)
    (hfree : u.core.noff = 1 → (∀ k, u.core.grip k = .free) ∧ u.core.cproc = none)
    (hQ : ∀ b, (∀ b', u.core.intena = some b' → b = b') → Q () (u.popped b)) :
    Safe popOff Q u := by
  apply safe_bind
  apply safe_intrGet
  apply safe_bind
  apply safe_panicIf hsie
  apply safe_bind
  apply safe_noff hsie
  apply safe_bind
  apply safe_panicIf (decide_eq_false (by omega))
  apply safe_bind
  apply safe_noff hsie
  apply safe_bind
  apply safe_setNoff hsie
  apply safe_bind
  have hsie' : (u.withNoff (u.core.noff - 1)).core.sie = false := hsie
  apply safe_noff hsie'
  split
  case isTrue hzero =>
      have hone : u.core.noff = 1 := by
        replace hzero : u.core.noff - 1 = 0 := hzero
        omega
      obtain ⟨hgrip, hcproc⟩ := hfree hone
      apply safe_bind
      apply safe_intena hsie'
      intro b hb
      have heq : (u.withNoff (u.core.noff - 1)).withIntena
          (if (u.withNoff (u.core.noff - 1)).core.noff = 0 then none else some b) =
            u.regs 0 none false u.core.prev := by
        simp [Local.withNoff, Local.withIntena, Local.regs, hone, hsie]
      rw [heq]
      have hQb := hQ b hb
      rw [Local.popped, if_pos hone] at hQb
      cases b with
      | true => exact safe_intrOn ⟨rfl, hgrip⟩ hcproc hQb
      | false => exact safe_pure hQb
  case isFalse hmore =>
      have hone : u.core.noff ≠ 1 := by
        replace hmore : u.core.noff - 1 ≠ 0 := hmore
        omega
      have hQb := hQ (u.core.intena.getD false) (by simp +contextual)
      rw [Local.popped, if_neg hone] at hQb
      exact safe_pure hQb

/-! ## Locks -/

theorem safe_holding {Q : Bool → Local → Prop} (hsie : u.core.sie = false)
    (hQ : Q (decide (u.core.grip k = .held)) u) : Safe (holding k) Q u := by
  apply safe_bind
  refine safe_op trivial trivial fun on hon _ _ => ?_
  cases on with
  | true =>
      refine safe_op hsie trivial fun r hr _ _ => ?_
      have heq : r = decide (u.core.grip k = .held) := by
        rw [Bool.eq_iff_iff, decide_eq_true_iff]
        exact hr
      rw [heq]
      exact hQ
  | false =>
      apply safe_pure
      have hfree : u.core.grip k = .free := by
        by_contra hne
        cases hon hne
      rw [hfree] at hQ
      exact hQ

theorem safe_acquire {Q : Unit → Local → Prop} (hfree : u.core.grip k = .free)
    (hrank : ∀ k', u.core.grip k' ≠ .free → k'.rank < k.rank) (hQ : Q () (u.hold k)) :
    Safe (acquire k) Q u := by
  apply safe_bind
  apply safe_pushOff
  apply safe_bind
  apply safe_holding rfl
  apply safe_bind
  apply safe_panicIf (by simp [Local.pushed, Local.regs, hfree])
  apply safe_bind
  apply Routine.wp_whileTrue rules_monotone (· = u.pushed) rfl
  rintro _ rfl
  refine safe_op ⟨rfl, hfree, hrank⟩ trivial fun b _ _ _ => ?_
  cases b with
  | true => exact safe_pure rfl
  | false =>
      refine safe_op ⟨rfl, by simp [Local.next, Core.next, Core.locked]⟩ trivial fun _ _ _ _ => ?_
      have heq : (u.pushed.next (.swap k) false).next (.setLockCpu k) () = u.hold k := by
        simp [Local.next, Core.next, Core.locked, Local.nextMon, Local.hold, Local.pushed,
          Local.regs]
      rw [heq]
      exact hQ

theorem Local.unlockMon_congr (hmon : v.mon = u.mon) (hme : v.core.me = u.core.me)
    (hstate : v.core.state = u.core.state)
    (hgrip : ∀ k', v.core.grip k' = .free ↔ u.core.grip k' = .free) :
    v.unlockMon k = u.unlockMon k := by
  have hblocked : ∀ p ch, v.blocked p ch = u.blocked p ch := by
    intro p ch
    simp only [Local.blocked, hmon]
  have hawake : ∀ q ch, v.awake q ch = u.awake q ch := by
    intro q ch
    simp only [Local.awake, hmon, hstate]
  have hleaves : ∀ j, v.Leaves k j ↔ u.Leaves k j := by
    intro j
    simp only [Local.Leaves, hmon]
  have hforget : v.forget k = u.forget k := by
    funext x
    cases x <;> simp only [Local.forget, hmon, hleaves]
  simp only [Local.unlockMon, hmon, hme, hstate, hforget, hawake, hblocked, hleaves, ne_eq, hgrip]

theorem unlocked_withGrip {g : Grip} (hheld : u.core.grip k ≠ .free) (hg : g ≠ .free) :
    (u.withGrip k g).unlocked k = u.unlocked k := by
  have hmon : (u.withGrip k g).unlockMon k = u.unlockMon k := by
    refine Local.unlockMon_congr rfl rfl rfl ?_
    intro k'
    by_cases hk : k' = k
    · simp [Local.withGrip, hk, hheld, hg]
    · simp [Local.withGrip, hk]
  rw [Local.unlocked, Local.unlocked, hmon]
  simp [Core.unlocked, Local.withGrip]

theorem safe_release {Q : Unit → Local → Prop} (hheld : u.core.grip k = .held)
    (hsie : u.core.sie = false) (hnoff : u.core.noff ≠ 0)
    (hstate : ∀ p, k = .proc p → (u.core.me = .proc p → u.core.state p = some .running) ∧
      (u.core.idle p = true → ∃ st, u.core.state p = some st ∧ st ≠ .running))
    (hmon : ∀ ch, ch.lock = k → u.mon.stale ch = true →
      ∀ q < NPROC, u.core.me ≠ .proc q → u.mon.maybe ch q = false)
    (hfree : u.core.noff = 1 → (∀ k', k' ≠ k → u.core.grip k' = .free) ∧ u.core.cproc = none)
    (hQ : ∀ b, (∀ b', u.core.intena = some b' → b = b') → Q () ((u.unlocked k).popped b)) :
    Safe (release k) Q u := by
  apply safe_bind
  apply safe_holding hsie
  apply safe_bind
  apply safe_panicIf (by simp [hheld])
  apply safe_bind
  refine safe_op hheld trivial fun _ _ _ _ => ?_
  apply safe_bind
  refine safe_op ⟨by simp [Local.next, Core.next], hstate⟩ hmon fun _ _ _ _ => ?_
  have heq : (u.next (.clearLockCpu k) ()).next (.unlock k) () = u.unlocked k :=
    unlocked_withGrip (by simp [hheld]) (by simp)
  rw [heq]
  refine safe_popOff hsie hnoff ?hfree ?hQ
  case hfree =>
      intro hone
      obtain ⟨hgrip, hcproc⟩ := hfree hone
      refine ⟨?_, hcproc⟩
      intro k'
      by_cases hk : k' = k
      · simp [Local.unlocked, Core.unlocked, hk]
      · simp [Local.unlocked, Core.unlocked, hk, hgrip k' hk]
  case hQ => exact hQ

end SyscallSched.Xv6.Smp
