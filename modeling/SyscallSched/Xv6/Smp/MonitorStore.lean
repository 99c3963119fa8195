import SyscallSched.Xv6.Smp.MonitorMemory

/-!
# Writes of shared memory keep the invariant
-/

namespace SyscallSched.Xv6.Smp

variable {s : State} {l l' : Thread → Local} {c : Nat}

/-- The write may make the condition of the channel true. -/
def Touches : (x : Loc) → x.Val → Chan → Prop
  | .sleepLocked k, v, ch => v = false ∧ ch = .sleep k
  | .ticks, _, ch => ch = .ticks
  | .parent _, some q, ch => ch = .proc q
  | _, _, _ => False

theorem setMem_of_ne {x y : Loc} {v : x.Val} (hy : y ≠ x) : (s.setMem x v).mem y = s.mem y := by
  simp [State.setMem, hy]

theorem setMem_running {x : Loc} {v : x.Val} {t : Thread} :
    (s.setMem x v).Running t ↔ s.Running t := Iff.rfl

theorem setMem_self {x : Loc} {v : x.Val} : (s.setMem x v).mem x = v := by
  simp [State.setMem]

theorem Blocked.setMem {q : Nat} {ch : Chan} {x : Loc} {v : x.Val} (hb : Blocked s q ch)
    (ht : ¬ Touches x v ch) (hx : x ≠ .ticks0 q ∧ x ≠ .tickN q) :
    Blocked (s.setMem x v) q ch := by
  cases ch with
  | ticks =>
      have hne : x ≠ .ticks := by
        rintro rfl
        exact ht rfl
      change ((s.setMem x v).mem .ticks - (s.setMem x v).mem (.ticks0 q)).toNat <
        (s.setMem x v).mem (.tickN q)
      rw [setMem_of_ne hne.symm, setMem_of_ne hx.1.symm, setMem_of_ne hx.2.symm]
      exact hb
  | proc p =>
      refine ⟨hb.1, ?_⟩
      intro pp hpp
      by_cases hx : x = .parent pp
      · subst hx
        rw [setMem_self] at hpp
        subst hpp
        exact absurd rfl ht
      · rw [setMem_of_ne (Ne.symm hx)] at hpp
        exact hb.2 pp hpp
  | sleep k =>
      change (s.setMem x v).mem (.sleepLocked k) = true
      by_cases hx : x = .sleepLocked k
      · subst hx
        rw [setMem_self]
        exact Bool.eq_true_of_not_eq_false fun hv => ht ⟨hv, rfl⟩
      · rw [setMem_of_ne (Ne.symm hx)]
        exact hb

section

variable {u : Local} {x : Loc} {v : x.Val}

theorem Local.Writes.touches {ch : Chan} (hw : u.Writes x v) (ht : Touches x v ch) :
    u.core.grip ch.lock ≠ .free := by
  cases x
  case sleepLocked k =>
      obtain ⟨-, rfl⟩ := ht
      exact hw.1
  case ticks =>
      cases ht
      exact hw
  case parent p =>
      cases v with
      | none => exact ht.elim
      | some q =>
          cases ht
          exact (hw.resolve_right fun hnone => Option.noConfusion rfl (heq_of_eq hnone.1)).1
  all_goals exact ht.elim

theorem Local.storeMon_maybe : (u.storeMon x v).maybe = u.mon.maybe := by
  cases x <;> rfl

theorem Local.storeMon_going : (u.storeMon x v).going = u.mon.going := by
  cases x <;> rfl

theorem Local.storeMon_mem (hw : u.Writes x v) :
    (u.storeMon x v).mem =
      if u.Owns x then Function.update u.mon.mem x (some v) else u.mon.mem := by
  cases x
  case sleepLocked k => exact (if_pos hw.1).symm
  case ticks => exact (if_pos hw).symm
  all_goals rfl

theorem Local.storeMon_sleeps {k : Nat} :
    (u.storeMon x v).sleeps k = true ↔ u.mon.sleeps k = true ∨ x = .sleepLocked k := by
  cases x
  case sleepLocked j =>
      simp only [Local.storeMon, Loc.sleepLocked.injEq]
      by_cases hk : k = j
      · simp [hk]
      · simp [hk, Ne.symm hk]
  all_goals simp [Local.storeMon]

theorem Local.storeMon_seen {q : Nat} (hq : (u.storeMon x v).seen q = true) :
    u.mon.seen q = true ∧ x ≠ .parent q := by
  cases x
  case parent pp =>
      simp only [Local.storeMon] at hq
      by_cases hpp : q = pp
      · rw [hpp, Function.update_self] at hq
        cases hq
      · rw [Function.update_of_ne hpp] at hq
        exact ⟨hq, fun heq => hpp (Loc.parent.inj heq).symm⟩
  all_goals exact ⟨hq, by simp⟩

theorem Local.storeMon_stale {ch : Chan} :
    (u.storeMon x v).stale ch = true ↔
      u.mon.stale ch = true ∨ Touches x v ch ∧ ∀ q, ch = .proc q → u.core.me ≠ .proc q := by
  have hupdate : ∀ ch', Function.update u.mon.stale ch' true ch = true ↔
      u.mon.stale ch = true ∨ ch = ch' := by
    intro ch'
    by_cases hch : ch = ch'
    · simp [hch]
    · simp [hch]
  cases x
  case sleepLocked k =>
      cases v with
      | true => simp [Local.storeMon, Touches]
      | false =>
          refine (hupdate _).trans (or_congr_right ⟨?_, fun h => h.1.2⟩)
          rintro rfl
          exact ⟨⟨rfl, rfl⟩, by simp⟩
  case ticks =>
      refine (hupdate _).trans (or_congr_right ⟨?_, And.left⟩)
      rintro rfl
      exact ⟨rfl, by simp⟩
  case parent p =>
      cases v with
      | none => simp [Local.storeMon, Touches]
      | some q =>
          simp only [Local.storeMon, Touches]
          by_cases hme : u.core.me = .proc q
          · rw [if_pos hme]
            refine ⟨.inl, ?_⟩
            rintro (hold | ⟨rfl, hnot⟩)
            · exact hold
            · exact absurd hme (hnot q rfl)
          · rw [if_neg hme, hupdate]
            refine or_congr_right ⟨?_, And.left⟩
            rintro rfl
            refine ⟨rfl, ?_⟩
            rintro r ⟨⟩
            exact hme
  all_goals simp [Local.storeMon, Touches]

end

/-- What a thread may write, no other thread counts on. -/
theorem MonInv.unshared (hm : MonInv s l) (h : Inv s (cores l)) {x : Loc} {v w : x.Val} {t : Thread}
    (hw : (l (s.cur c)).Writes x v) (hlive : (l t).core.live = true)
    (hmem : (l t).mon.mem x = some w) : t = s.cur c := by
  have hrun : s.Running (s.cur c) := ⟨c, rfl⟩
  obtain ⟨hown, hrun', -⟩ := hm.know t x w hlive hmem
  -- a vacant slot has no thread that could know something
  have hvacant : ∀ p, t = .proc p → (l (s.cur c)).Vacant p → False := by
    rintro p rfl hv
    obtain ⟨hnot, st, hst, hcase⟩ := h.not_running_of_vacant hv
    have hrest := h.resting p hnot
    obtain rfl | rfl | rfl := hcase
    · rw [hst] at hrest
      rw [show (l (.proc p)).core.live = false from hrest] at hlive
      cases hlive
    · rw [hm.fresh p hst hlive] at hmem
      cases hmem
    · rw [hst] at hrest
      rw [show (l (.proc p)).core.live = false from hrest] at hlive
      cases hlive
  have hlock : ∀ k, x.lock = some k → (l t).core.grip k ≠ .free →
      (l (s.cur c)).core.grip k ≠ .free → t = s.cur c := by
    intro k hk hg hg'
    exact h.same (hrun'.resolve_left (by simp [hk])) hrun hg hg'
  have hmine : ∀ p, (l t).core.me = .proc p → (l (s.cur c)).core.me = .proc p → t = s.cur c := by
    intro p hp hp'
    exact (h.me t).symm.trans (hp.trans (hp'.symm.trans (h.me _)))
  cases x
  case chan p => exact hlock _ rfl hown hw.1
  case killed p => exact hlock _ rfl hown hw
  case xstate p => exact hlock _ rfl hown hw
  case nextpid => exact hlock _ rfl hown hw
  case ticks => exact hlock _ rfl hown hw
  case sleepLocked k => exact hlock _ rfl hown hw.1
  case pid p => exact (hvacant p ((h.me t).symm.trans hown) hw).elim
  case parent p =>
      obtain ⟨hwait, -⟩ | ⟨-, hv⟩ := hw
      · exact hlock _ rfl hown.2 hwait
      · exact (hvacant p ((h.me t).symm.trans hown.1) hv).elim
  case sleepPid k => exact hm.one _ _ k hlive (h.live c) hown hw.2
  case data k => exact hm.one _ _ k hlive (h.live c) hown hw
  case ticks0 p => exact hmine p hown hw.1
  case tickN p => exact hmine p hown hw.1

theorem MonInv.asleep_setMem (h : Inv s (cores l)) {x : Loc} {v : x.Val} {q : Nat} {ch : Chan}
    (hw : (l (s.cur c)).Writes x v) : Asleep (s.setMem x v) q ch ↔ Asleep s q ch := by
  by_cases hx : x = .chan q
  · subst hx
    obtain ⟨-, st, hst, hne⟩ := hw
    have hawake : s.state q ≠ .sleeping := by
      rw [h.state c q st hst]
      exact hne
    constructor
    · rintro ⟨hst', -⟩
      exact absurd hst' hawake
    · rintro ⟨hst', -⟩
      exact absurd hst' hawake
  · have hmem : (s.setMem x v).mem (.chan q) = s.mem (.chan q) := setMem_of_ne (Ne.symm hx)
    rw [Asleep, hmem]
    exact Iff.rfl

theorem MonInv.owned_setMem (hm : MonInv s l) (h : Inv s (cores l)) {k : Nat} {b : Bool}
    {t : Thread} (hw : (l (s.cur c)).Writes (.sleepLocked k) b) (hlive : (l t).core.live = true)
    (hs : (l t).mon.sleeps k = true) : t = s.cur c := by
  cases b with
  | false => exact hm.one t _ k hlive (h.live c) hs hw.2
  | true =>
      obtain ⟨hg, hmem⟩ := hw
      have hoff : s.mem (.sleepLocked k) = false := (hm.know _ _ _ (h.live c) hmem).2.2
      obtain hon | ⟨hrt, hgt, -⟩ := hm.owned t k hlive hs
      · rw [hoff] at hon
        cases hon
      · exact h.same hrt ⟨c, rfl⟩ hgt hg

def storedBy (s : State) (l : Thread → Local) (c : Nat) (x : Loc) (v : x.Val) : Thread → Local :=
  Function.update l (s.cur c) ⟨(l (s.cur c)).core, (l (s.cur c)).storeMon x v⟩

/-- The thread on the CPU `c` may write `v` to `x`. -/
structure StoresTo (s : State) (l : Thread → Local) (c : Nat) (x : Loc) (v : x.Val) : Prop where
  inv : Inv s (cores l)
  mon : MonInv s l
  writes : (l (s.cur c)).Writes x v

namespace StoresTo

variable {x : Loc} {v : x.Val}

theorem self : storedBy s l c x v (s.cur c) =
    ⟨(l (s.cur c)).core, (l (s.cur c)).storeMon x v⟩ := Function.update_self _ _ _

theorem other {j : Thread} (hj : j ≠ s.cur c) : storedBy s l c x v j = l j :=
  Function.update_of_ne hj _ _

theorem core_eq (j : Thread) : (storedBy s l c x v j).core = (l j).core := by
  by_cases hj : j = s.cur c
  · rw [hj, self]
  · rw [other hj]

theorem maybe_eq (j : Thread) : (storedBy s l c x v j).mon.maybe = (l j).mon.maybe := by
  by_cases hj : j = s.cur c
  · rw [hj, self]
    exact Local.storeMon_maybe
  · rw [other hj]

theorem going_eq (j : Thread) : (storedBy s l c x v j).mon.going = (l j).mon.going := by
  by_cases hj : j = s.cur c
  · rw [hj, self]
    exact Local.storeMon_going
  · rw [other hj]

theorem sleeps_iff {j : Thread} {k : Nat} : (storedBy s l c x v j).mon.sleeps k = true ↔
    (l j).mon.sleeps k = true ∨ j = s.cur c ∧ x = .sleepLocked k := by
  by_cases hj : j = s.cur c
  · rw [hj, self]
    simp [Local.storeMon_sleeps]
  · simp [other hj, hj]

theorem stale_iff {ch : Chan} : (storedBy s l c x v (s.cur c)).mon.stale ch = true ↔
    (l (s.cur c)).mon.stale ch = true ∨
      Touches x v ch ∧ ∀ q, ch = .proc q → (l (s.cur c)).core.me ≠ .proc q := by
  rw [self]
  exact Local.storeMon_stale

theorem owns {j : Thread} {y : Loc} (hy : (l j).Owns y) : (storedBy s l c x v j).Owns y :=
  owns_congr (core_eq j) (fun _ hk => sleeps_iff.2 (.inl hk)) hy

theorem seen_down {p q : Nat} (hseen : (storedBy s l c x v (.proc p)).mon.seen q = true) :
    (l (.proc p)).mon.seen q = true ∧ (Thread.proc p = s.cur c → x ≠ .parent q) := by
  by_cases hj : Thread.proc p = s.cur c
  · rw [hj, self] at hseen
    rw [hj]
    exact ⟨(Local.storeMon_seen hseen).1, fun _ => (Local.storeMon_seen hseen).2⟩
  · rw [other hj] at hseen
    exact ⟨hseen, fun heq => absurd heq hj⟩

variable (hs : StoresTo s l c x v)

include hs

theorem mem_eq : (storedBy s l c x v (s.cur c)).mon.mem =
    if (l (s.cur c)).Owns x then Function.update (l (s.cur c)).mon.mem x (some v)
    else (l (s.cur c)).mon.mem := by
  rw [self]
  exact Local.storeMon_mem hs.writes

theorem pending_iff {q : Nat} {ch : Chan} :
    Pending (s.setMem x v) (storedBy s l c x v) q ch ↔ Pending s l q ch := by
  simp only [Pending, MonInv.asleep_setMem hs.inv hs.writes, core_eq, going_eq]

theorem locals {q : Nat} {ch : Chan} (hp : Pending s l q ch) : x ≠ .ticks0 q ∧ x ≠ .tickN q := by
  have hw := hs.writes
  have hawake : (l (s.cur c)).core.me = .proc q → (l (s.cur c)).core.grip (.proc q) = .free →
      False := by
    intro hme hfree
    have hq : s.cur c = .proc q := (hs.inv.me _).symm.trans hme
    have hrun : s.Running (.proc q) := ⟨c, hq⟩
    rw [hq] at hfree
    have hg := hs.mon.going_cases hp hrun
    obtain ⟨-, -, p, hpq, hpg⟩ := hs.mon.going _ ch (hs.inv.live_of_running hrun) hg
    rw [← Thread.proc.inj hpq] at hpg
    exact hpg hfree
  constructor
  · rintro rfl
    exact hawake hw.1 hw.2
  · rintro rfl
    exact hawake hw.1 hw.2

/-! One field of the invariant at a time. -/

theorem inv_know (j : Thread) (y : Loc) (w : y.Val)
    (hlive : (storedBy s l c x v j).core.live = true)
    (hv : (storedBy s l c x v j).mon.mem y = some w) :
    (storedBy s l c x v j).Owns y ∧ (y.lock = none ∨ s.Running j) ∧ (s.setMem x v).mem y = w := by
  rw [core_eq] at hlive
  by_cases hj : j = s.cur c
  · subst hj
    rw [hs.mem_eq] at hv
    by_cases hy : y = x
    · subst hy
      split at hv
      · rename_i hown
        rw [Function.update_self] at hv
        rw [setMem_self]
        exact ⟨owns hown, .inr ⟨c, rfl⟩, Option.some.inj hv⟩
      · rename_i hnot
        exact absurd (hs.mon.know _ y w hlive hv).1 hnot
    · have hv' : (l (s.cur c)).mon.mem y = some w := by
        split at hv
        · rwa [Function.update_of_ne hy] at hv
        · exact hv
      have hold := hs.mon.know _ y w hlive hv'
      rw [setMem_of_ne hy]
      exact ⟨owns hold.1, hold.2⟩
  · rw [other hj] at hv ⊢
    have hy : y ≠ x := by
      rintro rfl
      exact hj (hs.mon.unshared hs.inv hs.writes hlive hv)
    rw [setMem_of_ne hy]
    exact hs.mon.know j y w hlive hv

theorem inv_normal (j : Thread) (ch : Chan) (hlive : (storedBy s l c x v j).core.live = true)
    (hg : (storedBy s l c x v j).core.grip ch.lock = .free) :
    (storedBy s l c x v j).mon.stale ch = false ∧
      ∀ q, (storedBy s l c x v j).mon.maybe ch q = true := by
  rw [core_eq] at hlive hg
  rw [maybe_eq]
  have hold := hs.mon.normal j ch hlive hg
  refine ⟨?_, hold.2⟩
  by_cases hj : j = s.cur c
  · subst hj
    cases hstale : (storedBy s l c x v (s.cur c)).mon.stale ch with
    | false => rfl
    | true =>
        obtain hst | hst := stale_iff.1 hstale
        · rw [hold.1] at hst
          cases hst
        · exact absurd hg (hs.writes.touches hst.1)
  · rw [other hj]
    exact hold.1

theorem inv_unseen (j : Thread) (q : Nat) (hlive : (storedBy s l c x v j).core.live = true)
    (hg : (storedBy s l c x v j).core.grip .wait = .free) :
    (storedBy s l c x v j).mon.seen q = false := by
  rw [core_eq] at hlive hg
  by_cases hj : j = s.cur c
  · subst hj
    cases hseen : (storedBy s l c x v (s.cur c)).mon.seen q with
    | false => rfl
    | true =>
        rw [self] at hseen
        have hold := (Local.storeMon_seen hseen).1
        rw [hs.mon.unseen _ q hlive hg] at hold
        cases hold
  · rw [other hj]
    exact hs.mon.unseen j q hlive hg

theorem inv_dozing (q : Nat) (hq : s.Running (.proc q)) (hst : s.state q = .sleeping) :
    ∃ ch, (s.setMem x v).mem (.chan q) = some ch ∧
      (storedBy s l c x v (.proc q)).mon.going ch = true := by
  obtain ⟨ch, hch, hg⟩ := hs.mon.dozing q hq hst
  refine ⟨ch, ((MonInv.asleep_setMem hs.inv hs.writes).2 ⟨hst, hch⟩).2, ?_⟩
  rwa [going_eq]

theorem inv_owner (k : Nat) (hk : (s.setMem x v).mem (.sleepLocked k) = true) :
    ∃ j, (storedBy s l c x v j).core.live = true ∧ (storedBy s l c x v j).mon.sleeps k = true := by
  by_cases hx : x = .sleepLocked k
  · refine ⟨s.cur c, ?_, sleeps_iff.2 (.inr ⟨rfl, hx⟩)⟩
    rw [core_eq]
    exact hs.inv.live c
  · rw [setMem_of_ne (Ne.symm hx)] at hk
    obtain ⟨j, hlive, hj⟩ := hs.mon.owner k hk
    exact ⟨j, by rwa [core_eq], sleeps_iff.2 (.inl hj)⟩

/-- The writer of a sleep-lock's word is the one that holds it. -/
theorem eq_of_sleeps {k : Nat} (hx : x = .sleepLocked k) {j : Thread}
    (hlive : (l j).core.live = true) (hsleeps : (storedBy s l c x v j).mon.sleeps k = true) :
    j = s.cur c := by
  subst hx
  obtain hold | ⟨hj, -⟩ := sleeps_iff.1 hsleeps
  · exact hs.mon.owned_setMem hs.inv hs.writes hlive hold
  · exact hj

theorem inv_owned (j : Thread) (k : Nat) (hlive : (storedBy s l c x v j).core.live = true)
    (hsleeps : (storedBy s l c x v j).mon.sleeps k = true) :
    (s.setMem x v).mem (.sleepLocked k) = true ∨
      s.Running j ∧ (storedBy s l c x v j).core.grip (.sleep k) ≠ .free ∧
        (storedBy s l c x v j).mon.mem (.sleepLocked k) = some false := by
  rw [core_eq] at hlive
  by_cases hx : x = .sleepLocked k
  · have hj := hs.eq_of_sleeps hx hlive hsleeps
    subst hx hj
    rw [setMem_self]
    have hg := hs.writes.1
    cases v with
    | true => exact .inl rfl
    | false =>
        refine .inr ⟨⟨c, rfl⟩, by rwa [core_eq], ?_⟩
        have hown : (l (s.cur c)).Owns (.sleepLocked k) := hg
        rw [hs.mem_eq, if_pos hown, Function.update_self]
  · rw [setMem_of_ne (Ne.symm hx)]
    have hold := (sleeps_iff.1 hsleeps).resolve_right fun hand => hx hand.2
    obtain hon | ⟨hrj, hg, hv⟩ := hs.mon.owned j k hlive hold
    · exact .inl hon
    · refine .inr ⟨hrj, by rwa [core_eq], ?_⟩
      by_cases hj : j = s.cur c
      · subst hj
        rw [hs.mem_eq]
        split
        · rwa [Function.update_of_ne (Ne.symm hx)]
        · exact hv
      · rwa [other hj]

theorem inv_one (j j' : Thread) (k : Nat) (hlive : (storedBy s l c x v j).core.live = true)
    (hlive' : (storedBy s l c x v j').core.live = true)
    (hsleeps : (storedBy s l c x v j).mon.sleeps k = true)
    (hsleeps' : (storedBy s l c x v j').mon.sleeps k = true) : j = j' := by
  rw [core_eq] at hlive hlive'
  by_cases hx : x = .sleepLocked k
  · rw [hs.eq_of_sleeps hx hlive hsleeps, hs.eq_of_sleeps hx hlive' hsleeps']
  · have hold := (sleeps_iff.1 hsleeps).resolve_right fun hand => hx hand.2
    have hold' := (sleeps_iff.1 hsleeps').resolve_right fun hand => hx hand.2
    exact hs.mon.one j j' k hlive hlive' hold hold'

theorem inv_fresh (p : Nat) (hst : s.state p = .used)
    (hlive : (storedBy s l c x v (.proc p)).core.live = true) :
    (storedBy s l c x v (.proc p)).mon = Mon.fresh := by
  rw [core_eq] at hlive
  have hne : Thread.proc p ≠ s.cur c := by
    intro heq
    exact (hs.inv.state_of_running ⟨c, heq.symm⟩).2 hst
  rw [other hne]
  exact hs.mon.fresh p hst hlive

theorem inv_seen (p q : Nat) (hp : s.Running (.proc p))
    (hseen : (storedBy s l c x v (.proc p)).mon.seen q = true) :
    ¬ ((s.setMem x v).mem (.parent q) = some p ∧ s.state q = .zombie) := by
  intro hand
  have hold := seen_down hseen
  by_cases hx : x = .parent q
  · subst hx
    rw [setMem_self] at hand
    obtain ⟨hwait, -⟩ | ⟨hnone, -⟩ := hs.writes
    · have hne : (l (.proc p)).core.grip .wait ≠ .free := by
        intro hfree
        rw [hs.mon.unseen _ q (hs.inv.live_of_running hp) hfree] at hold
        cases hold.1
      exact hold.2 (hs.inv.same hp ⟨c, rfl⟩ hne hwait) rfl
    · rw [hnone] at hand
      cases hand.1
  · rw [setMem_of_ne (Ne.symm hx)] at hand
    exact hs.mon.seen p q hp hold.1 hand

theorem inv_monitor (q : Nat) (ch : Chan)
    (hp : Pending (s.setMem x v) (storedBy s l c x v) q ch)
    (hunheld : Unheld (s.setMem x v) (storedBy s l c x v) ch.lock) :
    Blocked (s.setMem x v) q ch := by
  rw [hs.pending_iff] at hp
  have hfree : Unheld s l ch.lock := by
    intro j hj
    have hfree := hunheld j hj
    rwa [core_eq] at hfree
  refine (hs.mon.monitor q ch hp hfree).setMem ?_ (hs.locals hp)
  intro htouch
  exact hs.writes.touches htouch (hfree _ ⟨c, rfl⟩)

theorem inv_watched (q : Nat) (ch : Chan) (j : Thread)
    (hp : Pending (s.setMem x v) (storedBy s l c x v) q ch) (hrj : s.Running j)
    (hg : (storedBy s l c x v j).core.grip ch.lock ≠ .free) :
    (storedBy s l c x v j).mon.maybe ch q = true ∧
      ((storedBy s l c x v j).mon.stale ch = false → Blocked (s.setMem x v) q ch) := by
  rw [hs.pending_iff] at hp
  rw [core_eq] at hg
  rw [maybe_eq]
  obtain ⟨hmay, hbl⟩ := hs.mon.watched q ch j hp hrj hg
  refine ⟨hmay, ?_⟩
  intro hstale
  by_cases hj : j = s.cur c
  · subst hj
    have hno : ¬ ((l (s.cur c)).mon.stale ch = true ∨
        Touches x v ch ∧ ∀ q, ch = .proc q → (l (s.cur c)).core.me ≠ .proc q) := by
      rw [← stale_iff, hstale]
      simp
    rw [not_or, Bool.not_eq_true] at hno
    refine (hbl hno.1).setMem ?_ (hs.locals hp)
    -- only a process itself sleeps on it, and this one is awake
    intro htouch
    apply hno.2 ⟨htouch, ?_⟩
    rintro p rfl hme
    obtain rfl := (hbl hno.1).1
    have hj : s.cur c = .proc q := (hs.inv.me _).symm.trans hme
    rw [hj] at hrj hg
    exact hg (hs.mon.going _ _ (hs.inv.live_of_running hrj) (hs.mon.going_cases hp hrj)).2.1
  · rw [other hj] at hstale
    refine (hbl hstale).setMem ?_ (hs.locals hp)
    intro htouch
    exact hj (hs.inv.same hrj ⟨c, rfl⟩ hg (hs.writes.touches htouch))

end StoresTo

theorem MonInv.act_store (hm : MonInv s l) (h : Inv s (cores l)) {x : Loc} {v : x.Val}
    (hw : (l (s.cur c)).Writes x v) :
    MonInv (s.setMem x v) (Function.update l (s.cur c)
      ⟨(l (s.cur c)).core, (l (s.cur c)).storeMon x v⟩) := by
  have hs : StoresTo s l c x v := ⟨h, hm, hw⟩
  change MonInv _ (storedBy s l c x v)
  constructor
  case know => exact hs.inv_know
  case normal => exact hs.inv_normal
  case unseen => exact hs.inv_unseen
  case going => simpa only [StoresTo.core_eq, StoresTo.going_eq, setMem_running] using hm.going
  case dozing => exact hs.inv_dozing
  case owner => exact hs.inv_owner
  case owned => exact hs.inv_owned
  case one => exact hs.inv_one
  case fresh => exact hs.inv_fresh
  case seen => exact hs.inv_seen
  case monitor => exact hs.inv_monitor
  case watched => exact hs.inv_watched

end SyscallSched.Xv6.Smp
