import Mathlib.Logic.Relation
import SyscallSched.Xv6.Smp.MonitorSwitch

/-!
# Parents and children

A process that dies gives its children to the first process before anyone can see it
dead.  So a parent is always alive, and no process descends from itself.
-/

namespace SyscallSched.Xv6.Smp

variable {s s' : State} {l : Thread → Local} {c p q : Nat}

/-- A cycle goes through a new edge only if its ends were connected the other way. -/
theorem acyclic_insert {α : Type} {r : α → α → Prop} {x y : α}
    (hr : ∀ a, ¬ Relation.TransGen r a a) (hyx : ¬ Relation.ReflTransGen r y x) (a : α) :
    ¬ Relation.TransGen (fun a b => r a b ∨ a = x ∧ b = y) a a := by
  have hpath : ∀ b, Relation.TransGen (fun a b => r a b ∨ a = x ∧ b = y) a b →
      Relation.TransGen r a b ∨ Relation.ReflTransGen r a x ∧ Relation.ReflTransGen r y b := by
    intro b hab
    induction hab with
    | single hab =>
        obtain hold | ⟨rfl, rfl⟩ := hab
        · exact .inl (.single hold)
        · exact .inr ⟨.refl, .refl⟩
    | tail _ hbd ih =>
        obtain hold | ⟨rfl, rfl⟩ := hbd
        · obtain hab | ⟨hax, hyb⟩ := ih
          · exact .inl (hab.tail hold)
          · exact .inr ⟨hax, hyb.tail hold⟩
        · obtain hab | ⟨-, hyb⟩ := ih
          · exact .inr ⟨hab.to_reflTransGen, .refl⟩
          · exact absurd hyb hyx
  intro hcycle
  obtain hold | ⟨hax, hya⟩ := hpath a hcycle
  · exact hr a hold
  · exact hyx (hya.trans hax)

/-! ## The operations that change states and parents -/

theorem does_state {o : Op} {r : o.Res} (hdoes : Does c s o r s') :
    s'.state = s.state ∨ ∃ q st, o = .setState q st ∧ s' = s.setState q st := by
  cases o
  case setState q st =>
      cases hdoes
      exact .inr ⟨q, st, rfl, rfl⟩
  case panic m => exact hdoes.elim
  all_goals
    obtain ⟨-, rfl⟩ := hdoes
    exact .inl rfl

theorem does_mem {o : Op} {r : o.Res} (hdoes : Does c s o r s') :
    s'.mem = s.mem ∨ ∃ x v, o = .store x v ∧ s' = s.setMem x v := by
  cases o
  case store x v =>
      cases hdoes
      exact .inr ⟨x, v, rfl, rfl⟩
  case panic m => exact hdoes.elim
  all_goals
    obtain ⟨-, rfl⟩ := hdoes
    exact .inl rfl

def State.Parent (s : State) (p q : Nat) : Prop := s.mem (.parent p) = some q

def State.Lives (s : State) (p : Nat) : Prop :=
  s.state p = .runnable ∨ s.state p = .running ∨ s.state p = .sleeping

structure Parents (s : State) (l : Thread → Local) : Prop where
  spared : ∀ t q, (l t).core.live = true → (l t).mon.spared q = true →
    (l t).core.grip .wait ≠ .free ∧ ∃ p, t = .proc p ∧ ¬ s.Parent q p
  lives : ∀ p q, s.Parent p q → s.Lives q
  small : ∀ p q, s.Parent p q → p < NPROC
  root : s.mem (.parent initproc) = none
  first : s.Lives initproc
  acyclic : ∀ p, ¬ Relation.TransGen s.Parent p p

theorem Parents.unspared (hf : Parents s l) {t : Thread} (hlive : (l t).core.live = true)
    (hwait : (l t).core.grip .wait = .free) (q : Nat) : (l t).mon.spared q = false := by
  by_contra hne
  exact (hf.spared t q hlive (by simpa using hne)).1 hwait

/-- A thread that no CPU runs has no lock but that of one process. -/
theorem Inv.running_of_wait (h : Inv s (cores l)) {t : Thread} (hlive : (l t).core.live = true)
    (hwait : (l t).core.grip .wait ≠ .free) : s.Running t := by
  cases t with
  | cpu c =>
      obtain hcpu | ⟨p, -, haway⟩ := h.cur c
      · exact ⟨c, hcpu⟩
      · exact absurd (haway.only.2 .wait (by simp)) hwait
  | proc p =>
      by_contra hnot
      have hrest := h.resting p hnot
      have hparked : Core.Parked p (cores l (.proc p)) := by
        cases hst : s.state p <;> rw [hst] at hrest
        case unused =>
            rw [show (l (.proc p)).core.live = false from hrest] at hlive
            cases hlive
        case zombie =>
            rw [show (l (.proc p)).core.live = false from hrest] at hlive
            cases hlive
        case used => exact hrest hlive
        all_goals exact hrest
      exact hwait (hparked.only.2 .wait (by simp))

/-! ## What a thread knows of its children -/

theorem Local.other_spared {o : Op} {j : Thread} {u : Local}
    (hlive : (Local.other o j u).core.live = true) (hq : (Local.other o j u).mon.spared q = true) :
    u.core.live = true ∧ u.mon.spared q = true ∧
      (Local.other o j u).core.grip = u.core.grip := by
  cases o
  case setState p st =>
      cases st
      case unused =>
          by_cases hj : j = .proc p
          · simp [Local.other, Core.other, hj] at hlive
          · simp only [Local.other, Core.other, if_neg hj] at hlive hq ⊢
            exact ⟨hlive, hq, trivial⟩
      all_goals exact ⟨hlive, hq, rfl⟩
  case setContext p =>
      by_cases hj : j = .proc p
      · simp [Local.other, hj, Mon.fresh] at hq
      · simp only [Local.other, Core.other, if_neg hj] at hlive hq ⊢
        exact ⟨hlive, hq, trivial⟩
  all_goals exact ⟨hlive, hq, rfl⟩

def Op.Aside : Op → Prop
  | .load (.parent _) => False
  | .store (.parent _) _ => False
  | .unlock .wait => False
  | _ => True

theorem Local.next_spared {o : Op} {r : o.Res} {u : Local} (ho : o.Aside) :
    (u.next o r).mon.spared = u.mon.spared := by
  cases o
  case load x =>
      cases x
      case parent p => exact ho.elim
      all_goals rfl
  case store x v =>
      cases x
      case parent p => exact ho.elim
      all_goals rfl
  case unlock k =>
      cases k
      case wait => exact ho.elim
      all_goals rfl
  case setState p st =>
      cases st
      case zombie =>
          simp only [Local.next, Local.nextMon]
          split <;> rfl
      all_goals rfl
  case swtchBack =>
      simp only [Local.next, Local.nextMon]
      cases u.core.me <;> rfl
  all_goals rfl

theorem Local.next_wait {o : Op} {r : o.Res} {u : Local} (ho : o ≠ .unlock .wait)
    (hwait : u.core.grip .wait ≠ .free) : (u.next o r).core.grip .wait ≠ .free := by
  have hupdate : ∀ (k : Lock) (g : Grip), g ≠ .free →
      Function.update u.core.grip k g .wait ≠ .free := by
    intro k g hg
    by_cases hk : Lock.wait = k
    · rwa [hk, Function.update_self]
    · rwa [Function.update_of_ne hk]
  cases o
  case swap k =>
      cases r
      · exact hupdate k _ (by simp)
      · exact hwait
  case setLockCpu k => exact hupdate k _ (by simp)
  case clearLockCpu k => exact hupdate k _ (by simp)
  case unlock k =>
      have hk : Lock.wait ≠ k := by
        rintro rfl
        exact ho rfl
      exact (Function.update_of_ne hk _ _).trans_ne hwait
  case swtchBack =>
      simp only [Local.next, Core.next]
      cases u.core.me with
      | cpu c => exact hwait
      | proc p =>
          simp only [Core.parked]
          split <;> exact hwait
  all_goals exact hwait

theorem Parents.own (hf : Parents s l) (h : Inv s (cores l)) {o : Op} {r : o.Res}
    (hpre : (l (s.cur c)).Pre o) (hdoes : Does c s o r s')
    (hq : ((l (s.cur c)).next o r).mon.spared q = true) :
    ((l (s.cur c)).next o r).core.grip .wait ≠ .free ∧
      ∃ p, s.cur c = .proc p ∧ ¬ s'.Parent q p := by
  have hold := hf.spared (s.cur c) q (h.live c)
  by_cases ho : o.Aside
  · rw [Local.next_spared ho] at hq
    obtain ⟨hwait, p, hp, hnot⟩ := hold hq
    refine ⟨Local.next_wait ?_ hwait, p, hp, ?_⟩
    · rintro rfl
      exact ho
    · have hsame : s'.mem (.parent q) = s.mem (.parent q) := by
        obtain hmem | ⟨x, v, rfl, rfl⟩ := does_mem hdoes
        · rw [hmem]
        · refine setMem_of_ne ?_
          rintro rfl
          exact ho
      rwa [State.Parent, hsame]
  cases o
  case load x =>
      cases x
      case parent pp =>
          obtain ⟨rfl, hs⟩ := hdoes
          rw [hs]
          have hwait : (l (s.cur c)).core.grip .wait ≠ .free := hpre
          refine ⟨hwait, ?_⟩
          simp only [Local.next, Local.nextMon, Local.loadMon] at hq
          cases hme : (l (s.cur c)).core.me with
          | cpu c' =>
              simp only [hme] at hq
              exact (hold hq).2
          | proc p =>
              simp only [hme] at hq
              by_cases hv : s.mem (.parent pp) = some p
              · rw [if_pos hv] at hq
                exact (hold hq).2
              · rw [if_neg hv] at hq
                by_cases hqp : q = pp
                · subst hqp
                  exact ⟨p, (h.me _).symm.trans hme, hv⟩
                · rw [Function.update_of_ne hqp] at hq
                  exact (hold hq).2
      all_goals exact absurd trivial ho
  case store x v =>
      cases x
      case parent pp =>
          cases hdoes
          have hw : (l (s.cur c)).Writes (.parent pp) v := hpre
          simp only [Local.next, Local.nextMon, Local.storeMon] at hq
          have hmem : ∀ q, (s.setMem (.parent pp) v).mem (.parent q) =
              if q = pp then v else s.mem (.parent q) := by
            intro q
            by_cases hqp : q = pp
            · subst hqp
              rw [if_pos rfl, setMem_self]
            · rw [if_neg hqp, setMem_of_ne (by simpa using hqp)]
          cases hme : (l (s.cur c)).core.me with
          | cpu c' =>
              simp only [hme] at hq
              obtain ⟨-, p, hp, -⟩ := hold hq
              have hcpu : s.cur c = .cpu c' := (h.me _).symm.trans hme
              rw [hcpu] at hp
              cases hp
          | proc p =>
              have hcur : s.cur c = .proc p := (h.me _).symm.trans hme
              simp only [hme] at hq
              by_cases hwait : (l (s.cur c)).core.grip .wait = .free
              · rw [if_pos hwait] at hq
                exact absurd hwait (hold hq).1
              · rw [if_neg hwait] at hq
                refine ⟨hwait, p, hcur, ?_⟩
                rw [State.Parent, hmem]
                by_cases hqp : q = pp
                · subst hqp
                  rw [Function.update_self] at hq
                  rw [if_pos rfl]
                  exact of_decide_eq_true hq
                · rw [Function.update_of_ne hqp] at hq
                  rw [if_neg hqp]
                  obtain ⟨-, p', hp', hnot⟩ := hold hq
                  rw [hcur] at hp'
                  cases hp'
                  exact hnot
      all_goals exact absurd trivial ho
  case unlock k =>
      cases k
      case wait =>
          simp only [Local.next, Local.nextMon, Local.unlockMon, if_pos] at hq
          cases hq
      all_goals exact absurd trivial ho
  all_goals exact absurd trivial ho

/-! ## The invariant -/

theorem Parents.lives_setState (hf : Parents s l) (h : Inv s (cores l)) {st : ProcState}
    (hcore : (l (s.cur c)).core.Pre (.setState p st)) (hpre : (l (s.cur c)).Pre (.setState p st))
    (hq : s.Lives q) (hchild : q = initproc ∨ ∃ pp, s.Parent pp q) :
    (s.setState p st).Lives q := by
  have hstate : ∀ st', (l (s.cur c)).core.state p = some st' → s.state p = st' :=
    fun st' => h.state c p st'
  by_cases hqp : q = p
  · subst hqp
    suffices hst : st = .runnable ∨ st = .running ∨ st = .sleeping by
      have hnew : (s.setState q st).state q = st := Function.update_self _ _ _
      rwa [State.Lives, hnew]
    obtain ⟨-, hmoves⟩ := hcore
    unfold Core.Moves at hmoves
    split at hmoves
    case isTrue hme =>
        obtain ⟨-, rfl | rfl | rfl⟩ := hmoves
        · simp
        · simp
        · obtain ⟨-, -, hinit, hspared⟩ := (hpre hme).2 rfl
          obtain heq | ⟨pp, hpp⟩ := hchild
          · exact absurd heq hinit
          · obtain ⟨-, p', hp', hnot⟩ := hf.spared _ pp (h.live c) (hspared pp (hf.small _ _ hpp))
            have hcur : s.cur c = .proc q := (h.me _).symm.trans hme
            rw [hcur] at hp'
            cases hp'
            exact absurd hpp hnot
    case isFalse =>
        cases st with
        | unused =>
            obtain hzombie | ⟨b, hb⟩ := hmoves
            · simp [State.Lives, hstate _ hzombie.2] at hq
            · have hused := (h.child _ q b (h.live c) hb).1
              simp [State.Lives, hused] at hq
        | used => simp [State.Lives, hstate _ hmoves.2.1] at hq
        | sleeping => exact hmoves.elim
        | zombie => exact hmoves.elim
        | running => simp
        | runnable => simp
  · have hold : (s.setState p st).state q = s.state q := Function.update_of_ne hqp _ _
    rwa [State.Lives, hold]

theorem Parents.adopts (hf : Parents s l) (h : Inv s (cores l)) {pp : Nat} {v : Option Nat}
    (hw : (l (s.cur c)).Writes (.parent pp) v) (hv : v = some q) :
    s.Lives q ∧ pp < NPROC ∧ pp ≠ initproc ∧ ¬ Relation.ReflTransGen s.Parent q pp := by
  obtain ⟨-, hadopts⟩ | ⟨hnone, -⟩ := hw
  · obtain ⟨rfl, hinit, hbound⟩ | ⟨hme, hfree, b, hb⟩ := hadopts q hv
    · refine ⟨hf.first, hbound, hinit, ?_⟩
      intro hpath
      obtain heq | ⟨p, hp, -⟩ := hpath.cases_head
      · exact hinit heq.symm
      · rw [State.Parent, hf.root] at hp
        cases hp
    · have hcur : s.cur c = .proc q := (h.me _).symm.trans hme
      have hown := h.own q ⟨c, hcur⟩
      rw [hcur] at hfree
      have hrunning : s.state q = .running := by rwa [if_pos hfree] at hown
      have hused := (h.child _ pp b (h.live c) hb).1
      have hne : pp ≠ initproc := by
        rintro rfl
        have hfirst := hf.first
        simp [State.Lives, hused] at hfirst
      refine ⟨.inr (.inl hrunning), h.bound pp (by simp [hused]), hne, ?_⟩
      intro hpath
      obtain heq | ⟨p, -, hp⟩ := hpath.cases_tail
      · rw [heq, hrunning] at hused
        cases hused
      · have hlives := hf.lives _ _ hp
        simp [State.Lives, hused] at hlives
  · rw [hv] at hnone
    cases hnone

theorem Parents.act (hf : Parents s l) (h : Inv s (cores l)) {o : Op} {r : o.Res}
    (hcore : (l (s.cur c)).core.Pre o) (hpre : (l (s.cur c)).Pre o) (hdoes : Does c s o r s') :
    Parents s' (advanceLocal l (s.cur c) o r) := by
  have hparent : ∀ p q, s'.Parent p q → s.Parent p q ∨
      ∃ v, o = .store (.parent p) v ∧ v = some q ∧ (l (s.cur c)).Writes (.parent p) v := by
    intro p q hp
    obtain hmem | ⟨x, v, rfl, rfl⟩ := does_mem hdoes
    · left
      rwa [State.Parent, hmem] at hp
    · by_cases hx : x = .parent p
      · subst hx
        rw [State.Parent, setMem_self] at hp
        exact .inr ⟨v, rfl, hp, hpre⟩
      · rw [State.Parent, setMem_of_ne (Ne.symm hx)] at hp
        exact .inl hp
  have hlives : ∀ q, s.Lives q → (q = initproc ∨ ∃ pp, s.Parent pp q) → s'.Lives q := by
    intro q hq hchild
    obtain hstate | ⟨p, st, rfl, rfl⟩ := does_state hdoes
    · rwa [State.Lives, hstate]
    · exact hf.lives_setState h hcore hpre hq hchild
  constructor
  case spared =>
      intro t q hlive hq
      by_cases ht : t = s.cur c
      · subst ht
        simp only [advanceLocal, Function.update_self] at hq ⊢
        exact hf.own h hpre hdoes hq
      · simp only [advanceLocal, Function.update_of_ne ht] at hlive hq ⊢
        obtain ⟨hlive', hq', hgrip⟩ := Local.other_spared hlive hq
        obtain ⟨hwait, p, rfl, hnot⟩ := hf.spared t q hlive' hq'
        refine ⟨by rwa [hgrip], p, rfl, ?_⟩
        intro hp
        obtain hold | ⟨v, -, hv, hw⟩ := hparent q p hp
        · exact hnot hold
        · obtain ⟨hwait', -⟩ | ⟨hnone, -⟩ := hw
          · exact ht (Inv.same h (h.running_of_wait hlive' hwait) ⟨c, rfl⟩ hwait hwait')
          · rw [hnone] at hv
            cases hv
  case lives =>
      intro p q hp
      obtain hold | ⟨v, rfl, hv, hw⟩ := hparent p q hp
      · exact hlives q (hf.lives p q hold) (.inr ⟨p, hold⟩)
      · cases hdoes
        exact (hf.adopts h hw hv).1
  case small =>
      intro p q hp
      obtain hold | ⟨v, -, hv, hw⟩ := hparent p q hp
      · exact hf.small p q hold
      · exact (hf.adopts h hw hv).2.1
  case root =>
      cases hq : s'.mem (.parent initproc) with
      | none => rfl
      | some q =>
          obtain hold | ⟨v, -, hv, hw⟩ := hparent initproc q hq
          · rw [State.Parent, hf.root] at hold
            cases hold
          · exact absurd rfl (hf.adopts h hw hv).2.2.1
  case first => exact hlives initproc hf.first (.inl rfl)
  case acyclic =>
      intro p hp
      by_cases hnew : ∃ x q, o = .store (.parent x) (some q)
      · obtain ⟨x, q, rfl⟩ := hnew
        have hw : (l (s.cur c)).Writes (.parent x) (some q) := hpre
        refine acyclic_insert hf.acyclic (hf.adopts h hw rfl).2.2.2 p ?_
        refine Relation.TransGen.mono ?_ _ _ hp
        intro a b hab
        obtain hold | ⟨v, ho, hv, -⟩ := hparent a b hab
        · exact .inl hold
        · cases ho
          exact .inr ⟨rfl, (Option.some.inj hv).symm⟩
      · refine hf.acyclic p (Relation.TransGen.mono ?_ _ _ hp)
        intro a b hab
        obtain hold | ⟨v, rfl, rfl, -⟩ := hparent a b hab
        · exact hold
        · exact absurd ⟨a, b, rfl⟩ hnew

end SyscallSched.Xv6.Smp
