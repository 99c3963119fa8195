import SyscallSched.Xv6.Smp.MonitorUnlock

/-!
# Reads of shared memory keep the invariant
-/

namespace SyscallSched.Xv6.Smp

variable {s : State} {l l' : Thread → Local} {c : Nat}

theorem owns_congr {u w : Local} (hcore : w.core = u.core)
    (hsleeps : ∀ k, u.mon.sleeps k = true → w.mon.sleeps k = true) {x : Loc} (hx : u.Owns x) :
    w.Owns x := by
  cases x
  case sleepPid k => exact hsleeps k hx
  case data k => exact hsleeps k hx
  all_goals simpa only [Local.Owns, hcore] using hx

/-! ## Reads -/

section

variable {u : Local} {x : Loc} {v : x.Val}

theorem Local.loadMon_mem :
    (u.loadMon x v).mem = if u.Owns x then Function.update u.mon.mem x (some v) else u.mon.mem := by
  cases x <;> rfl

theorem Local.loadMon_maybe : (u.loadMon x v).maybe = u.mon.maybe := by
  cases x <;> rfl

theorem Local.loadMon_stale : (u.loadMon x v).stale = u.mon.stale := by
  cases x <;> rfl

theorem Local.loadMon_going : (u.loadMon x v).going = u.mon.going := by
  cases x <;> rfl

theorem Local.loadMon_sleeps : (u.loadMon x v).sleeps = u.mon.sleeps := by
  cases x <;> rfl

theorem Local.loadMon_seen {q : Nat} (hq : (u.loadMon x v).seen q = true) :
    u.mon.seen q = true ∨ ∃ p, u.core.me = .proc p ∧ ∃ h : x = .parent q,
      (h ▸ v : (Loc.parent q).Val) ≠ some p := by
  cases x
  case parent pp =>
      cases hme : u.core.me with
      | cpu c =>
          simp only [Local.loadMon, hme] at hq
          exact .inl hq
      | proc p =>
          simp only [Local.loadMon, hme] at hq
          by_cases hv : v = some p
          · rw [if_pos hv] at hq
            exact .inl hq
          · rw [if_neg hv] at hq
            by_cases hpp : q = pp
            · subst hpp
              exact .inr ⟨p, rfl, rfl, hv⟩
            · rw [Function.update_of_ne hpp] at hq
              exact .inl hq
  all_goals exact .inl hq

end

theorem MonInv.act_load (hm : MonInv s l) (h : Inv s (cores l)) {x : Loc}
    (hpre : (l (s.cur c)).Reads x) :
    MonInv s (Function.update l (s.cur c)
      ⟨(l (s.cur c)).core, (l (s.cur c)).loadMon x (s.mem x)⟩) := by
  have hrun : s.Running (s.cur c) := ⟨c, rfl⟩
  generalize ht : s.cur c = t at *
  generalize hl' : Function.update l t ⟨(l t).core, (l t).loadMon x (s.mem x)⟩ = l'
  have hself : l' t = ⟨(l t).core, (l t).loadMon x (s.mem x)⟩ := by
    rw [← hl', Function.update_self]
  have hother : ∀ j, j ≠ t → l' j = l j := by
    intro j hj
    rw [← hl', Function.update_of_ne hj]
  have hcore : ∀ j, (l' j).core = (l j).core := by
    intro j
    by_cases hj : j = t
    · rw [hj, hself]
    · rw [hother j hj]
  have hview : ∀ {β : Type} (f : Mon → β), f ((l t).loadMon x (s.mem x)) = f (l t).mon →
      ∀ j, f (l' j).mon = f (l j).mon := by
    intro β f hf j
    by_cases hj : j = t
    · rw [hj, hself]
      exact hf
    · rw [hother j hj]
  have hmaybe := hview (·.maybe) Local.loadMon_maybe
  have hstale := hview (·.stale) Local.loadMon_stale
  have hgoing := hview (·.going) Local.loadMon_going
  have hsleeps := hview (·.sleeps) Local.loadMon_sleeps
  have howns : ∀ j y, (l j).Owns y → (l' j).Owns y :=
    fun j y hy => owns_congr (hcore j) (fun k hk => by rwa [hsleeps]) hy
  have hpending : ∀ q ch, Pending s l' q ch ↔ Pending s l q ch := by
    intro q ch
    simp [Pending, hcore, hgoing]
  have hmem : ∀ y w, (l' t).mon.mem y = some w → (l t).mon.mem y = some w ∨
      (l t).Owns y ∧ s.mem y = w := by
    intro y w hw
    rw [hself] at hw
    simp only [Local.loadMon_mem] at hw
    split at hw
    · rename_i hown
      by_cases hy : y = x
      · subst hy
        rw [Function.update_self] at hw
        exact .inr ⟨hown, Option.some.inj hw⟩
      · rw [Function.update_of_ne hy] at hw
        exact .inl hw
    · exact .inl hw
  constructor
  case know =>
      intro j y w hlj hw
      rw [hcore] at hlj
      by_cases hj : j = t
      · subst hj
        obtain hw | ⟨hown, hw⟩ := hmem y w hw
        · have hold := hm.know j y w hlj hw
          exact ⟨howns j y hold.1, hold.2⟩
        · exact ⟨howns j y hown, .inr hrun, hw⟩
      · rw [hother j hj] at hw ⊢
        exact hm.know j y w hlj hw
  case normal => simpa only [hcore, hstale, hmaybe] using hm.normal
  case unseen =>
      intro j q hlj hg
      rw [hcore] at hlj hg
      by_cases hj : j = t
      · subst hj
        cases hs : (l' j).mon.seen q with
        | false => rfl
        | true =>
            rw [hself] at hs
            obtain hs | ⟨p, -, rfl, -⟩ := Local.loadMon_seen hs
            · rw [hm.unseen j q hlj hg] at hs
              cases hs
            · exact absurd hg hpre
      · rw [hother j hj]
        exact hm.unseen j q hlj hg
  case going => simpa only [hcore, hgoing] using hm.going
  case dozing => simpa only [hgoing] using hm.dozing
  case owner => simpa only [hcore, hsleeps] using hm.owner
  case owned =>
      intro j k hlj hs
      rw [hcore] at hlj
      rw [hsleeps] at hs
      obtain hon | ⟨hrj, hg, hv⟩ := hm.owned j k hlj hs
      · exact .inl hon
      · refine .inr ⟨hrj, by rwa [hcore], ?_⟩
        have hval := (hm.know j _ _ hlj hv).2.2
        by_cases hj : j = t
        · subst hj
          rw [hself]
          simp only [Local.loadMon_mem]
          split
          · by_cases hx : Loc.sleepLocked k = x
            · subst hx
              rw [Function.update_self, hval]
            · rwa [Function.update_of_ne hx]
          · exact hv
        · rwa [hother j hj]
  case one => simpa only [hcore, hsleeps] using hm.one
  case fresh =>
      intro p hst hlp
      rw [hcore] at hlp
      have hne : Thread.proc p ≠ t := by
        rintro rfl
        exact (h.state_of_running hrun).2 hst
      rw [hother _ hne]
      exact hm.fresh p hst hlp
  case seen =>
      intro p q hp hs hand
      by_cases hj : Thread.proc p = t
      · rw [hj, hself] at hs
        obtain hs | ⟨p', hp', rfl, hne⟩ := Local.loadMon_seen hs
        · exact hm.seen p q hp (hj ▸ hs) hand
        · have hpp : p' = p := by
            have hme := (h.me t).symm.trans hp'
            rw [← hj] at hme
            exact (Thread.proc.inj hme).symm
          rw [hpp] at hne
          exact hne hand.1
      · rw [hother _ hj] at hs
        exact hm.seen p q hp hs hand
  case monitor =>
      intro q ch hp hu
      rw [hpending] at hp
      apply hm.monitor q ch hp
      intro j hj
      have hfree := hu j hj
      rwa [hcore] at hfree
  case watched =>
      intro q ch j hp hrj hg
      rw [hpending] at hp
      rw [hcore] at hg
      rw [hmaybe, hstale]
      exact hm.watched q ch j hp hrj hg

end SyscallSched.Xv6.Smp
