import SyscallSched.Xv6.Smp.Traps

/-!
# The kernel keeps the invariant

The rules, with the proofs that the code of every thread keeps to them, hold of all
states that the kernel can reach from `booted`.
-/

namespace SyscallSched.Xv6.Smp

open SyscallSched.Foundation

variable {s : State} {l : Thread → Local}

theorem MonInv.calm (hm : MonInv s l) (hf : Parents s l) (h : Inv s (cores l)) {t : Thread}
    (hrun : s.Running t) (hsie : (l t).core.sie = true) : (l t).Calm := by
  obtain ⟨c, rfl⟩ := hrun
  have hlive := h.live c
  have hopen := (h.tied c).on hsie
  refine ⟨?_, hsie⟩
  constructor
  case top => exact fun _ => ⟨hopen.free.2, hopen.cproc, hopen.intena⟩
  case off => exact fun hne => absurd hopen.free.1 hne
  case prev => exact fun _ => hopen.prev
  case unknown => exact fun p hp => h.unknown _ p hlive hp
  case mem =>
      intro x k hx hk
      cases hv : (l (s.cur c)).mon.mem x with
      | none => rfl
      | some v => exact absurd hk ((hm.know _ x v hlive hv).1.held hx)
  case quiet => exact fun ch hch => hm.normal _ ch hlive hch
  case unseen => exact fun hwait q => hm.unseen _ q hlive hwait
  case unspared => exact fun hwait q => hf.unspared hlive hwait q
  case going =>
      intro ch hch
      obtain ⟨-, -, p, hp, hgrip⟩ := hm.going _ ch hlive hch
      exact ⟨p, (h.me _).trans hp, hgrip⟩

theorem MonInv.interrupt (hm : MonInv s l) {c : Nat} {v : Cpu} (hv : v.cur = s.cur c) :
    MonInv (s.setCpu c v) (Function.update l (s.cur c) (l (s.cur c)).trapped) := by
  have hview : ∀ {β : Type} (f : Local → β), f (l (s.cur c)).trapped = f (l (s.cur c)) →
      ∀ j, f (Function.update l (s.cur c) (l (s.cur c)).trapped j) = f (l j) := by
    intro β f hf j
    by_cases hj : j = s.cur c
    · rw [hj, Function.update_self, hf]
    · rw [Function.update_of_ne hj]
  refine hm.congr rfl rfl ?hrun ?hmon ?hme ?hlive ?hgrip
  case hrun =>
      intro j
      simp only [State.Running, setCpu_cur hv]
  case hmon => exact hview (·.mon) rfl
  case hme => exact hview (·.core.me) rfl
  case hlive => exact hview (·.core.live) rfl
  case hgrip =>
      intro j k
      rw [hview (fun w => w.core.grip k) rfl j]

theorem Parents.interrupt (hf : Parents s l) {c : Nat} {v : Cpu} :
    Parents (s.setCpu c v) (Function.update l (s.cur c) (l (s.cur c)).trapped) := by
  refine ⟨?_, hf.lives, hf.small, hf.root, hf.first, hf.acyclic⟩
  intro t q hlive hq
  by_cases ht : t = s.cur c
  · subst ht
    rw [Function.update_self] at hlive hq ⊢
    exact hf.spared (s.cur c) q hlive hq
  · rw [Function.update_of_ne ht] at hlive hq ⊢
    exact hf.spared t q hlive hq

theorem Local.other_eq {o : Op} {j : Thread} {u : Local}
    (hlive : (Local.other o j u).core.live = true) (ho : ∀ p, o = .setContext p → j ≠ .proc p) :
    Local.other o j u = u := by
  cases o
  case setState p st =>
      cases st
      case unused =>
          by_cases hj : j = .proc p
          · simp [Local.other, Core.other, hj] at hlive
          · simp [Local.other, Core.other, hj]
      all_goals rfl
  case setContext p =>
      have hj := ho p rfl
      simp [Local.other, Core.other, hj]
  all_goals rfl

def discipline : Threads.Discipline (machine Plain) Local where
  inv s l := Inv s (cores l) ∧ MonInv s l ∧ Parents s l
  rules := rules
  live u := u.core.live = true
  post _ := False
  monotone := rules_monotone
  act_ok := by
    rintro i o s r s' l Q ⟨h, hm, hf⟩ hrule ⟨⟨c, rfl, hdoes⟩, hasks⟩
    obtain ⟨hcore, hpre, hnext⟩ := hrule (h.live c)
    obtain ⟨hgives, hinv⟩ := h.act hcore hdoes hasks
    obtain ⟨hgives', hmon⟩ := hm.act hf h hcore hpre hdoes
    refine ⟨advanceLocal l (s.cur c) o r, ⟨?_, hmon, hf.act h hcore hpre hdoes⟩, ?_, ?_⟩
    · rwa [cores_advance]
    · intro hlive
      simp only [advanceLocal, Function.update_self] at hlive ⊢
      exact hnext r hgives hgives' hlive
    · intro j hj hlive
      simp only [advanceLocal, Function.update_of_ne hj] at hlive ⊢
      by_cases hspawn : ∃ p, o = .setContext p
      · obtain ⟨p, rfl⟩ := hspawn
        change if j = .proc p then _ else _
        split
        case isTrue hjp =>
            have heq : Local.other (.setContext p) j (l j) = ⟨Core.fresh p, Mon.fresh⟩ := by
              simp [Local.other, Core.other, hjp]
            rw [heq]
            exact safe_forkret
        case isFalse hjp =>
            apply Local.other_eq hlive
            rintro q ⟨⟩
            exact hjp
      · have hnone : (machine Plain).spawn o = none := by
          cases o
          case setContext p => exact absurd ⟨p, rfl⟩ hspawn
          all_goals rfl
        rw [hnone]
        exact Local.other_eq hlive fun p hp => absurd ⟨p, hp⟩ hspawn
  interrupt_ok := by
    rintro i s p s' l ⟨h, hm, hf⟩ ⟨c, cause, hcause, rfl, hsie⟩
    have hon : (l (s.cur c)).core.sie = true := (h.tied c).sie ▸ hsie
    have hcalm := hm.calm hf h ⟨c, rfl⟩ hon
    refine ⟨Function.update l (s.cur c) (l (s.cur c)).trapped,
      ⟨?_, hm.interrupt rfl, hf.interrupt⟩, ?_, h.live c, ?_⟩
    · have hcores : cores (Function.update l (s.cur c) (l (s.cur c)).trapped) =
          Function.update (cores l) (s.cur c)
            { cores l (s.cur c) with sie := false, prev := some (true, true) } := by
        funext j
        by_cases hj : j = s.cur c
        · simp [cores, hj, Local.trapped]
        · simp [cores, hj]
      rw [hcores]
      exact (h.interrupt hsie).2
    · exact fun j hj => Function.update_of_ne hj _ _
    · rw [Function.update_self]
      exact safe_kernelvec hcause hcalm rfl

/-! ## After boot -/

def Local.start : Thread → Local
  | .cpu c => ⟨{ Core.fresh 0 with
      me := .cpu c
      noff := 0
      grip := fun _ => .free
      state := fun _ => none }, Mon.fresh⟩
  | .proc p => ⟨{ Core.fresh p with live := decide (p = initproc) }, Mon.fresh⟩

theorem inv_start : Inv booted.shared (cores Local.start) := by
  have hrun : ∀ p, ¬ booted.shared.Running (.proc p) := by
    rintro p ⟨c, hc⟩
    cases hc
  constructor
  case me =>
      intro t
      cases t <;> rfl
  case cproc => exact fun _ => rfl
  case sched => exact fun _ => ⟨rfl, rfl⟩
  case cur => exact fun _ => .inl rfl
  case once => exact fun _ _ _ hc _ => by cases hc
  case live => exact fun _ => rfl
  case tied => exact fun _ => ⟨rfl, rfl,
      by simp [cores, Local.start, Core.fresh, booted, State.cur],
      by simp [cores, Local.start, Core.fresh, booted, State.cur],
      by simp [cores, Local.start, Core.fresh, booted, State.cur]⟩
  case lockCpu => simp [cores, Local.start, booted, State.cur]
  case locked => simp [cores, Local.start, booted, State.cur]
  case holder => simp [cores, Local.start, booted, State.cur]
  case unknown =>
      intro t p _ hp
      cases t with
      | cpu c => exact ⟨rfl, rfl⟩
      | proc q =>
          have hne : p ≠ q := by
            rintro rfl
            simp [cores, Local.start, Core.fresh] at hp
          exact ⟨by simp [cores, Local.start, Core.fresh, hne], rfl⟩
  case state => simp [cores, Local.start, booted, State.cur]
  case idle => exact fun c p hidle => by cases hidle
  case own => exact fun p hp => absurd hp (hrun p)
  case resting =>
      intro p _
      by_cases hp : p = initproc
      · simp only [booted, hp, if_true, Resting]
        exact ⟨rfl, rfl, rfl, rfl, rfl, ⟨by simp [cores, Local.start, Core.fresh],
          fun k hk => by simp [cores, Local.start, Core.fresh, hk]⟩,
          by simp [cores, Local.start, Core.fresh], fun _ => rfl⟩
      · simp [booted, hp, Resting, cores, Local.start]
  case picked =>
      intro p hp
      by_cases hinit : p = initproc
      · simp [booted, hinit] at hp
      · simp [booted, hinit] at hp
  case child =>
      intro t p b _ hchild
      cases t <;> cases hchild
  case parent =>
      intro t t' p b b' _ _ hchild
      cases t <;> cases hchild
  case bound =>
      intro p hp
      by_cases hinit : p = initproc
      · simp [hinit, initproc, NPROC]
      · simp [booted, hinit] at hp

theorem monInv_start : MonInv booted.shared Local.start := by
  have hrun : ∀ p, ¬ booted.shared.Running (.proc p) := by
    rintro p ⟨c, hc⟩
    cases hc
  have hmon : ∀ t, (Local.start t).mon = Mon.fresh := by
    intro t
    cases t <;> rfl
  have hnot : ∀ q ch, ¬ Pending booted.shared Local.start q ch := by
    rintro q ch (⟨hst, -⟩ | ⟨-, hgoing⟩)
    · by_cases hinit : q = initproc
      · simp [booted, hinit] at hst
      · simp [booted, hinit] at hst
    · rw [hmon] at hgoing
      cases hgoing
  constructor
  case know =>
      intro t x v _ hv
      rw [hmon] at hv
      cases hv
  case normal =>
      intro t ch _ _
      rw [hmon]
      exact ⟨rfl, fun _ => rfl⟩
  case unseen =>
      intro t q _ _
      rw [hmon]
      rfl
  case going =>
      intro t ch _ hch
      rw [hmon] at hch
      cases hch
  case dozing => exact fun q hq => absurd hq (hrun q)
  case owner =>
      intro k hk
      cases hk
  case owned =>
      intro t k _ hk
      rw [hmon] at hk
      cases hk
  case one =>
      intro t t' k _ _ hk
      rw [hmon] at hk
      cases hk
  case fresh => exact fun p _ _ => hmon _
  case seen => exact fun p q hp => absurd hp (hrun p)
  case monitor => exact fun q ch hp => absurd hp (hnot q ch)
  case watched => exact fun q ch t hp => absurd hp (hnot q ch)

theorem parents_start : Parents booted.shared Local.start := by
  have hnot : ∀ p q, ¬ booted.shared.Parent p q := fun p q hp => by cases hp
  constructor
  case spared =>
      intro t q _ hq
      cases t <;> cases hq
  case lives => exact fun p q hp => absurd hp (hnot p q)
  case small => exact fun p q hp => absurd hp (hnot p q)
  case root => rfl
  case first => exact .inl rfl
  case acyclic =>
      intro p hp
      obtain ⟨q, hpq, -⟩ := Relation.TransGen.head'_iff.1 hp
      exact hnot p q hpq

theorem good_booted : discipline.Good booted := by
  refine ⟨Local.start, ⟨inv_start, monInv_start, parents_start⟩, ?_⟩
  intro t hlive
  cases t with
  | cpu c =>
      refine safe_scheduler (c := c) ⟨?_, rfl, rfl⟩ rfl
      exact ⟨fun _ => ⟨fun _ => rfl, rfl, rfl⟩, fun hne => absurd rfl hne, fun _ => rfl,
        fun _ _ => ⟨rfl, rfl⟩, fun _ _ _ _ => rfl, fun _ _ => ⟨rfl, fun _ => rfl⟩,
        fun _ _ => rfl, fun _ _ => rfl, fun _ hch => Bool.noConfusion hch⟩
  | proc p =>
      by_cases hinit : p = initproc
      · subst hinit
        exact safe_forkret
      · simp [discipline, Local.start, hinit] at hlive

/-- The invariant in every reachable state, and what the code of the threads keeps to. -/
theorem good_of_reachable {c : Threads State Thread Op Op.Res} (h : Reachable c) :
    discipline.Good c :=
  discipline.good_of_reachable good_booted h

end SyscallSched.Xv6.Smp
