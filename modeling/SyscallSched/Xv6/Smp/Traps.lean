import SyscallSched.Xv6.Smp.SleepLocks

/-!
# Traps and the scheduler keep to the rules

The interrupt of a thread ends in the state that it began in, whatever the thread was
doing, and every system call ends with no lock held.
-/

namespace SyscallSched.Xv6.Smp

open SyscallSched.Foundation

variable {u v w z : Local} {p c : Nat}

/-! ## `sysproc.c` -/

theorem safe_sysSleepTurn {Q : Unit ⊕ Int → Local → Prop} (hv : v.Top p) {ticks₀ : BitVec 32}
    {n : Nat} (hticks₀ : v.mon.mem (.ticks0 p) = some ticks₀) (hn : v.mon.mem (.tickN p) = some n)
    (hz : Waiting .tick v z) (hagain : Q (.inl ()) (v.hold .tick))
    (hdone : ∀ r w, w.Top p → Q (.inr r) w) : Safe (sysSleepTurn p) Q z := by
  have hmez := hz.inside.me.trans hv.me
  have hheld : z.Owns .ticks := by
    change z.core.grip .tick ≠ .free
    simp [hz.inside.held]
  apply safe_bind
  refine safe_load (x := .ticks) hheld ?_
  intro ticks _
  have hz₁ := hz.load (x := .ticks) (a := ticks) hheld (by simp [Loc.lock])
  have hticks : (Local.mk z.core (z.loadMon .ticks ticks)).mon.mem .ticks = some ticks :=
    Local.loadMon_mem_self hheld
  generalize Local.mk z.core (z.loadMon .ticks ticks) = z₁ at hz₁ hticks ⊢
  have hmez₁ := hz₁.inside.me.trans hv.me
  have hticks₀z : z₁.mon.mem (.ticks0 p) = some ticks₀ := (hz₁.mem _ rfl).trans hticks₀
  have hnz : z₁.mon.mem (.tickN p) = some n := (hz₁.mem _ rfl).trans hn
  apply safe_bind
  refine safe_load (x := .ticks0 p) hmez₁ ?_
  intro a ha
  obtain rfl : a = ticks₀ := ha _ hticks₀z
  rw [Local.loadMon_eq hticks₀z (by simp [Loc.lock])]
  apply safe_bind
  refine safe_load (x := .tickN p) hmez₁ ?_
  intro m hm
  obtain rfl : m = n := hm _ hnz
  rw [Local.loadMon_eq hnz (by simp [Loc.lock])]
  split
  case isFalse =>
      refine safe_leave hv hz₁.inside (by simp) hz₁.child ?_ hz₁.quiet (hdone 0)
      rw [hz₁.sleeps]
      exact hv.sleeps
  case isTrue hless =>
      apply safe_bind
      refine safe_self hz₁.inside.steady hmez₁ ?_
      apply safe_bind
      refine safe_killed hz₁.inside.steady
        (hz₁.inside.below hv.below (by simp [Lock.rank])) fun stop w hlearned => ?_
      have hw := hz₁.learned hlearned
      split
      case isTrue =>
          refine safe_leave hv hw.inside (by simp) hw.child ?_ hw.quiet (hdone (-1))
          rw [hw.sleeps]
          exact hv.sleeps
      case isFalse =>
          apply safe_bind
          refine safe_sleep .ticks hv.toCalm hv.me hw.inside ?_ hw.mem hw.sleeps
            (fun ch _ => hw.quiet ch) ?_ hagain
          · rw [hw.child, hv.child]
          · rw [Local.blocked, hlearned.mem, hticks, hticks₀z, hnz]
            simpa using hless

theorem safe_sysSleep {n : Int} {Q : Int → Local → Prop} (hu : u.Top p)
    (hQ : ∀ n w, w.Top p → Q n w) : Safe (sysSleep n) Q u := by
  have hw : u.Writes (.tickN p) n.toNat := ⟨hu.me, hu.free _⟩
  have hown : u.Owns (.tickN p) := hu.me
  apply safe_bind
  apply safe_self hu.steady hu.me
  apply safe_bind
  refine safe_store hw ?_
  have hu₁ : Local.Top p ⟨u.core, u.storeMon (.tickN p) n.toNat⟩ :=
    ⟨⟨hu.steady.store hw, hu.on⟩, hu.me, hu.child, hu.sleeps⟩
  have hn₁ : (Local.mk u.core (u.storeMon (.tickN p) n.toNat)).mon.mem (.tickN p) =
      some n.toNat := Local.storeMon_mem_self hw hown
  generalize Local.mk u.core (u.storeMon (.tickN p) n.toNat) = u₁ at hu₁ hn₁ ⊢
  have hz : Waiting .tick u₁ (u₁.hold .tick) := Waiting.hold hu₁.toCalm hu₁.child
  have hheld : (u₁.hold .tick).Owns .ticks := by
    change (u₁.hold .tick).core.grip .tick ≠ .free
    simp [hz.inside.held]
  apply safe_bind
  apply safe_hold hu₁.below
  apply safe_bind
  refine safe_load (x := .ticks) hheld ?_
  intro ticks _
  have hz₁ := hz.load (x := .ticks) (a := ticks) hheld (by simp [Loc.lock])
  generalize Local.mk (u₁.hold .tick).core ((u₁.hold .tick).loadMon .ticks ticks) = z at hz₁ ⊢
  have hmez := hz₁.inside.me.trans hu₁.me
  have hwz : z.Writes (.ticks0 p) ticks :=
    ⟨hmez, (hz₁.inside.grip_of_ne (by simp)).trans (hu₁.free _)⟩
  have hwu : u₁.Writes (.ticks0 p) ticks := ⟨hu₁.me, hu₁.free _⟩
  have hownz : z.Owns (.ticks0 p) := hmez
  have hownu : u₁.Owns (.ticks0 p) := hu₁.me
  apply safe_bind
  refine safe_store hwz ?_
  -- as if the process had known `ticks0` from the start
  have hu₂ : Local.Top p ⟨u₁.core, u₁.storeMon (.ticks0 p) ticks⟩ :=
    ⟨⟨hu₁.steady.store hwu, hu₁.on⟩, hu₁.me, hu₁.child, hu₁.sleeps⟩
  have hz₂ : Waiting .tick ⟨u₁.core, u₁.storeMon (.ticks0 p) ticks⟩
      ⟨z.core, z.storeMon (.ticks0 p) ticks⟩ := by
    constructor
    case inside =>
        exact ⟨hz₁.inside.steady.store hwz, hz₁.inside.core, hz₁.inside.state, hz₁.inside.idle⟩
    case child => exact hz₁.child
    case mem =>
        intro x hx
        by_cases hx₀ : x = .ticks0 p
        · subst hx₀
          exact (Local.storeMon_mem_self hwz hownz).trans (Local.storeMon_mem_self hwu hownu).symm
        · exact (Local.storeMon_mem_of_ne hwz hx₀).trans
            ((hz₁.mem x hx).trans (Local.storeMon_mem_of_ne hwu hx₀).symm)
    case sleeps => exact hz₁.sleeps
    case quiet => exact hz₁.quiet
  have hticks₂ : (Local.mk u₁.core (u₁.storeMon (.ticks0 p) ticks)).mon.mem (.ticks0 p) =
      some ticks := Local.storeMon_mem_self hwu hownu
  have hn₂ : (Local.mk u₁.core (u₁.storeMon (.ticks0 p) ticks)).mon.mem (.tickN p) =
      some n.toNat := (Local.storeMon_mem_of_ne hwu (by simp)).trans hn₁
  apply Routine.wp_loop fun _ w => Waiting .tick ⟨u₁.core, u₁.storeMon (.ticks0 p) ticks⟩ w
  · exact hz₂
  · intro _ w hw
    refine safe_sysSleepTurn hu₂ hticks₂ hn₂ hw ?_ fun r w' hw' => safe_pure (hQ r w' hw')
    exact Waiting.hold hu₂.toCalm hu₂.child

theorem safe_sysUptime {Q : Int → Local → Prop} (hu : u.Top p) (hQ : ∀ n w, w.Top p → Q n w) :
    Safe sysUptime Q u := by
  have hz : Waiting .tick u (u.hold .tick) := Waiting.hold hu.toCalm hu.child
  have hheld : (u.hold .tick).Owns .ticks := by
    change (u.hold .tick).core.grip .tick ≠ .free
    simp [hz.inside.held]
  apply safe_bind
  apply safe_hold hu.below
  apply safe_bind
  refine safe_load (x := .ticks) hheld ?_
  intro ticks _
  have hz₁ := hz.load (x := .ticks) (a := ticks) hheld (by simp [Loc.lock])
  refine safe_leave hu hz₁.inside (by simp) hz₁.child ?_ hz₁.quiet (hQ _)
  rw [hz₁.sleeps]
  exact hu.sleeps

theorem safe_sysGetpid {Q : Int → Local → Prop} (hu : u.Top p) (hQ : ∀ n w, w.Top p → Q n w) :
    Safe sysGetpid Q u := by
  apply safe_bind
  apply safe_self hu.steady hu.me
  apply safe_bind
  refine safe_load (x := .pid p) (.inl hu.me) ?_
  intro pid _
  apply safe_pure
  exact hQ pid _ ⟨⟨hu.steady.load (x := .pid p) (.inl hu.me), hu.on⟩, hu.me, hu.child, hu.sleeps⟩

/-! What is done under no lock changes nothing that a thread counts on. -/

theorem safe_peek {x : Loc} {Q : x.Val → Local → Prop} (hQ : ∀ v, Q v u) :
    Safe (op (.peek x)) Q u :=
  safe_op trivial trivial fun v _ _ _ => hQ v

theorem safe_peekState {Q : ProcState → Local → Prop} (hQ : ∀ st, Q st u) :
    Safe (op (.peekState p)) Q u :=
  safe_op trivial trivial fun st _ _ _ => hQ st

theorem safe_setPriorityFrom {pid priority : Int} {ps : List Nat} {Q : Int → Local → Prop}
    (hQ : ∀ n, Q n u) : Safe (setPriorityFrom pid priority ps) Q u := by
  induction ps with
  | nil => exact safe_pure (hQ (-1))
  | cons q ps ih =>
      apply safe_bind
      refine safe_peek fun n => ?_
      split
      case isTrue =>
          apply safe_bind
          exact safe_op trivial trivial fun _ _ _ _ => safe_pure (hQ 0)
      case isFalse => exact ih

theorem safe_sysSetpriority {pid priority : Int} {Q : Int → Local → Prop} (hQ : ∀ n, Q n u) :
    Safe (sysSetpriority pid priority) Q u := by
  unfold sysSetpriority
  split
  case isTrue => exact safe_pure (hQ (-1))
  case isFalse => exact safe_setPriorityFrom hQ

theorem safe_syscall {call : Call} {Q : Int → Local → Prop} (hcall : Plain call) (hu : u.Top p)
    (hQ : ∀ n w, w.Top p → Q n w) : Safe (syscall call) Q u := by
  cases call with
  | fork => exact safe_fork hu hQ
  | sfork => exact absurd rfl hcall
  | exit n =>
      apply safe_bind
      exact safe_exit hu.steady hu.noff hu.me hu.child hu.sleeps
  | wait addr => exact safe_wait hu hQ
  | kill pid => exact safe_kill hu hQ
  | sleep n => exact safe_sysSleep hu hQ
  | uptime => exact safe_sysUptime hu hQ
  | getpid => exact safe_sysGetpid hu hQ
  | setpriority pid priority => exact safe_sysSetpriority fun n => hQ n u hu
  | io => exact safe_sysIo hu hQ

/-! ## Interrupts -/

theorem safe_clockintr {Q : Unit → Local → Prop} (hu : u.Steady) (hzero : u.core.noff = 0)
    (hsie : u.core.sie = false) (hQ : Q () u) : Safe clockintr Q u := by
  obtain ⟨hfree, hcproc, -⟩ := hu.top hzero
  apply safe_bind
  refine safe_op hsie trivial fun id _ _ _ => ?_
  change Safe (if id = 0 then _ else pure ()) Q u
  split
  case isFalse => exact safe_pure hQ
  case isTrue =>
      have hz := Inside.hold hu (hfree .tick)
      have hheld : (u.hold .tick).Owns .ticks := by
        change (u.hold .tick).core.grip .tick ≠ .free
        simp [hz.held]
      have hquiet : ∀ ch, (u.hold .tick).mon.stale ch = false := fun ch => (hu.quiet ch (hfree _)).1
      apply safe_bind
      apply safe_hold (Local.Below.of_free hfree)
      apply safe_bind
      refine safe_load (x := .ticks) hheld ?_
      intro ticks _
      have hz₁ := hz.of_core (hz.steady.load (x := .ticks) (v := ticks) hheld) rfl
      have hw : (Local.mk (u.hold .tick).core ((u.hold .tick).loadMon .ticks ticks)).Writes
          .ticks (ticks + 1) := hheld
      apply safe_bind
      refine safe_store hw ?_
      have hz₂ := hz₁.of_core (hz₁.steady.store hw) rfl
      apply safe_bind
      refine safe_wakeup hz₂.steady
        (fun q => hz₂.below (Local.Below.of_free hfree) (by simp [Lock.rank])) hcproc ?_
      intro w hlearned hwoken
      have hw₃ := hz₂.of_core hlearned.steady (by rw [hlearned.core])
      refine safe_back hu hw₃ (hfree _) (fun q hq => by cases hq) ?_ ?_
      · intro ch _ hst q hq hme
        rw [hlearned.stale] at hst
        rw [hlearned.core] at hme
        obtain hold | ⟨rfl, -⟩ := Local.storeMon_stale (x := .ticks).1 hst
        · rw [Local.loadMon_stale, hquiet] at hold
          cases hold
        · exact hwoken .ticks rfl hheld q hq hme
      rw [hw₃.back_eq hu hfree (by rw [hlearned.core]; rfl)]
      · exact hQ
      · intro x hx
        have hne : x ≠ .ticks := by
          rintro rfl
          cases hx
        rw [hlearned.mem]
        exact (Local.storeMon_mem_of_ne hw hne).trans (Local.loadMon_mem_of_ne hne)
      · rw [hlearned.sleeps]
        exact Local.loadMon_sleeps
      · exact fun j hj => by cases hj.1

theorem safe_procdump {Q : Unit → Local → Prop} (hQ : Q () u) : Safe procdump Q u := by
  apply Routine.wp_forM rules_monotone fun _ w => w = u
  case hstart => rfl
  case hturn =>
      rintro p ps w rfl
      apply safe_bind
      refine safe_peekState fun st => ?_
      split
      case isTrue =>
          apply safe_bind
          refine safe_peekState fun _ => ?_
          apply safe_bind
          exact safe_peek fun _ => safe_pure rfl
      case isFalse => exact safe_pure rfl
  case hend =>
      rintro w rfl
      exact hQ

theorem safe_devintr {cause : Cause} {Q : Nat → Local → Prop} (hu : u.Steady)
    (hzero : u.core.noff = 0) (hsie : u.core.sie = false)
    (hQ : ∀ which, (which = 0 → cause = .unknown) → Q which u) : Safe (devintr cause) Q u := by
  cases cause with
  | timer =>
      apply safe_bind
      exact safe_clockintr hu hzero hsie (safe_pure (hQ 2 (by simp)))
  | device =>
      have hend : Safe (pure 1) Q u := safe_pure (hQ 1 (by simp))
      apply safe_bind
      refine safe_op trivial trivial fun dump _ _ _ => ?_
      cases dump with
      | true =>
          apply safe_bind
          exact safe_procdump hend
      | false => exact hend
  | unknown => exact safe_pure (hQ 0 fun _ => rfl)

def Local.trapped (u : Local) : Local :=
  ⟨{ u.core with sie := false, prev := some (true, true) }, u.mon⟩

theorem Local.Calm.trapped (hu : u.Calm) : u.trapped.Steady :=
  hu.steady.setSstatus hu.noff (hu.steady.top hu.noff).2.2 fun hsie => Bool.noConfusion hsie

theorem safe_kerneltrap {cause : Cause} {Q : Unit → Local → Prop} (hcause : cause ≠ .unknown)
    (hu : u.Calm) (hQ : Q () u.trapped) : Safe (kerneltrap cause) Q u.trapped := by
  have hzero : u.trapped.core.noff = 0 := hu.noff
  obtain ⟨-, hcproc, -⟩ := hu.trapped.top hzero
  apply safe_bind
  refine safe_op trivial trivial fun sstatus hsstatus _ _ => ?_
  obtain ⟨hsie, hprev⟩ := hsstatus
  have hbits := hprev (true, true) rfl
  simp only [Prod.mk.injEq] at hbits
  obtain ⟨hspie, hspp⟩ := hbits
  apply safe_bind
  apply safe_panicIf (by simp [hspp])
  apply safe_bind
  apply safe_intrGet
  apply safe_bind
  apply safe_panicIf rfl
  apply safe_bind
  refine safe_devintr hu.trapped hzero rfl fun which hwhich => ?_
  apply safe_bind
  apply safe_panicIf (decide_eq_false fun hnone => hcause (hwhich hnone))
  have hrestore : ∀ w : Local, w.resumed = u.trapped.resumed → w.core.sie = false →
      Safe (op (.setSstatus sstatus)) Q w := by
    intro w hw hoff
    refine safe_op ⟨hoff, hsie⟩ trivial fun _ _ _ _ => ?_
    have heq : w.next (.setSstatus sstatus) () = u.trapped := by
      have hparts : w.next (.setSstatus sstatus) () =
          ⟨{ w.resumed.core with prev := some (sstatus.spie, sstatus.spp) }, w.resumed.mon⟩ := rfl
      rw [hparts, hw, hspie, hspp]
      rfl
    rw [heq]
    exact hQ
  split
  case isFalse => exact hrestore _ rfl rfl
  case isTrue =>
      apply safe_bind
      apply safe_myproc hu.trapped
      split
      case isFalse => exact hrestore _ rfl rfl
      case isTrue hsome =>
          apply safe_bind
          cases hme : u.core.me with
          | cpu c =>
              have hnone : u.trapped.core.myproc = none := (Core.myproc_of_cpu hme).trans hcproc
              exact absurd hnone hsome
          | proc p => exact safe_yield hu.trapped hme hzero (hrestore _ rfl rfl)

/-- The interrupted thread goes on as if nothing had been. -/
theorem safe_kernelvec {cause : Cause} {Q : Unit → Local → Prop} (hcause : cause ≠ .unknown)
    (hu : u.Calm) (hQ : Q () u) : Safe (kernelvec cause) Q u.trapped := by
  obtain ⟨hfree, hcproc, hintena⟩ := hu.steady.top hu.noff
  apply safe_bind
  refine safe_kerneltrap hcause hu ?_
  refine safe_op ⟨⟨hu.noff, hfree⟩, hcproc, rfl, rfl⟩ trivial fun _ _ _ _ => ?_
  have heq : u.trapped.next .sret () = u := by
    have hprev := hu.steady.prev hu.on
    have hon := hu.on
    obtain ⟨⟨me, live, noff, intena, sie, prev, grip, cproc, state, idle, child⟩, mon⟩ := u
    simp only at hprev hintena hon
    rw [hprev, hintena, hon]
    rfl
  rw [heq]
  exact hQ

/-! ## From user mode and back -/

structure Local.Inner (p : Nat) (u : Local) : Prop where
  steady : u.Steady
  noff : u.core.noff = 0
  me : u.core.me = .proc p
  child : u.core.child = none
  sleeps : ∀ j, u.mon.sleeps j = false

theorem Local.Serving.inner (hu : u.Top p) : u.Inner p :=
  ⟨hu.steady, hu.noff, hu.me, hu.child, hu.sleeps⟩

theorem Local.Inner.free (hu : u.Inner p) (k : Lock) : u.core.grip k = .free :=
  (hu.steady.top hu.noff).1 k

structure Local.Leaving (p : Nat) (u : Local) : Prop extends Local.Inner p u where
  off : u.core.sie = false
  user : u.core.prev = some (true, false)

theorem safe_usertrapret {Q : Unit → Local → Prop} (hu : u.Inner p)
    (hQ : ∀ w, w.Leaving p → Q () w) : Safe usertrapret Q u := by
  apply safe_bind
  apply safe_self hu.steady hu.me
  apply safe_bind
  apply safe_intrOff
  apply safe_bind
  refine safe_op trivial trivial fun x hx _ _ => ?_
  refine safe_op ⟨rfl, hx.1⟩ trivial fun _ _ _ _ => ?_
  apply hQ
  have hsteady : Local.Steady ⟨{ u.core with sie := false, prev := some (true, false) }, u.mon⟩ :=
    hu.steady.setSstatus hu.noff (hu.steady.top hu.noff).2.2 fun hsie => Bool.noConfusion hsie
  exact ⟨⟨hsteady, hu.noff, hu.me, hu.child, hu.sleeps⟩, rfl, rfl⟩

/-- The check whether `p` was killed, and what it does then. -/
theorem safe_killed_inner {Q : Bool → Local → Prop} (hu : u.Inner p) (hQ : ∀ b, Q b u) :
    Safe (killed p) Q u := by
  refine safe_killed hu.steady (Local.Below.of_free hu.free) fun b w hw => ?_
  rw [hw.eq_of_free hu.steady hu.free]
  exact hQ b

theorem safe_exit_inner {status : Int} {Q : Unit → Local → Prop} (hu : u.Inner p) :
    Safe (exit status) Q u :=
  safe_exit hu.steady hu.noff hu.me hu.child hu.sleeps

theorem safe_trapCause {cause : Trap} {Q : Nat → Local → Prop}
    (hcause : ∀ call, cause = .syscall call → Plain call) (hu : u.Leaving p)
    (hQ : ∀ which w, w.Inner p → Q which w) : Safe (trapCause p cause) Q u := by
  obtain ⟨hfree, hcproc, -⟩ := hu.steady.top hu.noff
  cases cause with
  | syscall call =>
      have hcall : Safe (do
          op .intrOn
          let _ ← syscall call
          pure 0 : SmpM Nat) Q u := by
        apply safe_bind
        refine safe_intrOn ⟨hu.noff, hfree⟩ hcproc ?_
        have hsteady : (u.regs u.core.noff none true none).Steady :=
          hu.steady.setSstatus hu.noff rfl fun _ => rfl
        apply safe_bind
        refine safe_syscall (hcause call rfl) ⟨⟨hsteady, rfl⟩, hu.me, hu.child, hu.sleeps⟩
          fun n w hw => ?_
        exact safe_pure (hQ 0 w hw.inner)
      apply safe_bind
      refine safe_killed_inner hu.toInner fun k => ?_
      split
      case isTrue =>
          apply safe_bind
          exact safe_exit_inner hu.toInner
      case isFalse => exact hcall
  | other cause =>
      apply safe_bind
      refine safe_devintr hu.steady hu.noff hu.off fun which _ => ?_
      split
      case isTrue =>
          apply safe_bind
          refine safe_setkilled hu.steady (Local.Below.of_free hfree) fun w hw => ?_
          rw [hw.eq_of_free hu.steady hfree]
          exact safe_pure (hQ which u hu.toInner)
      case isFalse => exact safe_pure (hQ which u hu.toInner)

theorem safe_usertrap {cause : Trap} {Q : Unit → Local → Prop}
    (hcause : ∀ call, cause = .syscall call → Plain call) (hu : u.Leaving p)
    (hQ : ∀ w, w.Leaving p → Q () w) : Safe (usertrap cause) Q u := by
  apply safe_bind
  refine safe_op trivial trivial fun sstatus hsstatus _ _ => ?_
  have hbits := hsstatus.2 (true, false) hu.user
  simp only [Prod.mk.injEq] at hbits
  apply safe_bind
  apply safe_panicIf hbits.2
  apply safe_bind
  apply safe_self hu.steady hu.me
  apply safe_bind
  refine safe_trapCause hcause hu fun which w hw => ?_
  have hend : Safe (if which = 2 then do
      yield
      usertrapret
    else usertrapret) Q w := by
    split
    case isTrue =>
        apply safe_bind
        refine safe_yield hw.steady hw.me hw.noff ?_
        exact safe_usertrapret ⟨hw.steady.resumed, hw.noff, hw.me, hw.child, hw.sleeps⟩ hQ
    case isFalse => exact safe_usertrapret hw hQ
  apply safe_bind
  refine safe_killed_inner hw fun k => ?_
  cases k with
  | true =>
      apply safe_bind
      exact safe_exit_inner hw
  | false => exact hend

theorem safe_userLoop {Q : Unit → Local → Prop} (hu : u.Leaving p) : Safe userLoop Q u := by
  apply Routine.wp_forever rules_monotone (fun w => w.Leaving p) hu
  intro w hw
  apply safe_bind
  refine safe_op ⟨⟨hw.noff, hw.free⟩, hw.off, true, hw.user⟩ trivial fun cause hcause _ _ => ?_
  exact safe_usertrap hcause hw fun w' hw' => hw'

/-! ## After a switch -/

def Local.withSie (u : Local) (b : Bool) : Local := ⟨{ u.core with sie := b }, u.mon⟩

theorem Local.Steady.withSie {b : Bool} (hu : u.Steady) (hzero : u.core.noff = 0)
    (hprev : u.core.prev = none) : (u.withSie b).Steady :=
  hu.setSstatus hzero (hu.top hzero).2.2 fun _ => hprev

/-- A thread that a switch has brought back does not know whether interrupts were on
before its lock was taken. -/
theorem safe_back_switched {Q : Unit → Local → Prop} (hu : u.Steady) (hzero : u.core.noff = 0)
    (hprev : u.core.prev = none) (hset : z.Settled p) (hnoff : z.core.noff = 1)
    (hz : ∀ b, Inside (.proc p) (u.withSie b) (z.withIntena (some b)))
    (hQ : ∀ b, Q () ((u.withSie b).back z (.proc p))) : Safe (release (.proc p)) Q z := by
  have hheld : z.core.grip (.proc p) = .held := (hz true).held
  have hgrip : ∀ k, k ≠ .proc p → z.core.grip k = .free := by
    intro k hk
    exact ((hz true).grip_of_ne hk).trans ((hu.top hzero).1 k)
  have hcproc : z.core.cproc = none := (hz true).cproc.trans (hu.top hzero).2.1
  refine safe_release hheld (hz true).sie (by simp [hnoff]) ?_ ?_ (fun _ => ⟨hgrip, hcproc⟩) ?_
  · rintro q ⟨⟩
    exact hset
  · exact fun ch hch => absurd hch (Chan.lock_ne_proc ch p)
  · intro b _
    have heq : (z.unlocked (.proc p)).popped b =
        ((z.withIntena (some b)).unlocked (.proc p)).popped b := by
      have hmon : (z.withIntena (some b)).unlockMon (.proc p) = z.unlockMon (.proc p) :=
        Local.unlockMon_congr rfl rfl rfl fun _ => Iff.rfl
      have hone : (z.unlocked (.proc p)).core.noff = 1 := hnoff
      have hone' : ((z.withIntena (some b)).unlocked (.proc p)).core.noff = 1 := hnoff
      rw [Local.popped, if_pos hone, Local.popped, if_pos hone', Local.unlocked, Local.unlocked,
        hmon]
      rfl
    have hmon : (z.withIntena (some b)).unlockMon (.proc p) = z.unlockMon (.proc p) :=
      Local.unlockMon_congr rfl rfl rfl fun _ => Iff.rfl
    rw [heq, (hz b).back_core (hu.withSie hzero hprev) ((hu.top hzero).1 _)]
    · have hback : (u.withSie b).back (z.withIntena (some b)) (.proc p) =
          (u.withSie b).back z (.proc p) := by
        rw [Local.back, hmon]
        rfl
      rw [hback]
      exact hQ b
    · rintro b' ⟨⟩
      rfl

def Local.bare (p : Nat) : Local :=
  ⟨{ Core.fresh p with noff := 0, grip := fun _ => .free, state := fun _ => none }, Mon.fresh⟩

theorem Local.steady_bare : (Local.bare p).Steady where
  top := fun _ => ⟨fun _ => rfl, rfl, rfl⟩
  off := fun hne => absurd rfl hne
  prev := fun _ => rfl
  unknown := fun _ _ => ⟨rfl, rfl⟩
  mem := fun _ _ _ _ => rfl
  quiet := fun _ _ => ⟨rfl, fun _ => rfl⟩
  unseen := fun _ _ => rfl
  unspared := fun _ _ => rfl
  going := fun _ hch => Bool.noConfusion hch

theorem Local.steady_fresh {intena : Option Bool} :
    Local.Steady ⟨{ Core.fresh p with intena := intena }, Mon.fresh⟩ where
  top := fun hzero => Nat.noConfusion hzero
  off := fun _ => rfl
  prev := fun _ => rfl
  unknown := by
    intro q hq
    have hne : q ≠ p := by
      rintro rfl
      simp [Core.fresh] at hq
    exact ⟨by simp [Core.fresh, hne], rfl⟩
  mem := fun _ _ _ _ => rfl
  quiet := fun _ _ => ⟨rfl, fun _ => rfl⟩
  unseen := fun _ _ => rfl
  unspared := fun _ _ => rfl
  going := fun _ hch => Bool.noConfusion hch

theorem safe_forkret {Q : Unit → Local → Prop} : Safe forkret Q ⟨Core.fresh p, Mon.fresh⟩ := by
  have hset : Local.Settled ⟨Core.fresh p, Mon.fresh⟩ p :=
    ⟨fun _ => by simp [Core.fresh], fun hidle => Bool.noConfusion hidle⟩
  have hz : ∀ b, Inside (.proc p) ((Local.bare p).withSie b)
      (Local.withIntena ⟨Core.fresh p, Mon.fresh⟩ (some b)) := by
    intro b
    refine ⟨Local.steady_fresh, rfl, ?_, fun _ _ => rfl⟩
    intro q hq
    simp [Local.withIntena, Core.fresh, Local.bare, Local.withSie, Inside.ne_of_ne hq]
  apply safe_bind
  refine safe_self Local.steady_fresh rfl ?_
  apply safe_bind
  refine safe_back_switched Local.steady_bare rfl rfl hset rfl hz fun b => ?_
  have hsteady := (hz b).back_steady (Local.steady_bare.withSie rfl rfl) rfl
  have hmon : (Local.withIntena ⟨Core.fresh p, Mon.fresh⟩ (some b)).unlockMon (.proc p) =
      Local.unlockMon ⟨Core.fresh p, Mon.fresh⟩ (.proc p) :=
    Local.unlockMon_congr rfl rfl rfl fun _ => Iff.rfl
  rw [Local.back, hmon] at hsteady
  apply safe_bind
  refine safe_usertrapret ⟨hsteady, rfl, rfl, rfl, ?_⟩ fun w hw => safe_userLoop hw
  exact fun j => rfl

/-! ## The scheduler -/

structure Local.Idling (c : Nat) (u : Local) : Prop where
  steady : u.Steady
  noff : u.core.noff = 0
  me : u.core.me = .cpu c

def Local.returned (z : Local) (p : Nat) : Local :=
  ⟨{ z.core with
      intena := none
      prev := none
      cproc := none
      state := Function.update z.core.state p none
      idle := Function.update z.core.idle p false },
    { z.mon with mem := z.forget (.proc p) }⟩

theorem Inside.returned {b : Bool} (hu : u.Idling c) (hz : Inside (.proc p) u z) :
    Inside (.proc p) (u.resumed.withSie b) ((z.returned p).withIntena (some b)) := by
  have hheld : z.core.grip (.proc p) ≠ .free := by simp [hz.held]
  constructor
  case steady =>
      constructor
      case top =>
          intro hzero
          replace hzero : z.core.noff = 0 := hzero
          rw [hz.noff] at hzero
          cases hzero
      case off => exact hz.steady.off
      case prev => exact fun _ => rfl
      case unknown =>
          intro q hq
          have hne : q ≠ p := by
            rintro rfl
            exact hheld hq
          simpa [Local.returned, Local.withIntena, hne] using hz.steady.unknown q hq
      case mem =>
          intro x k hx hk
          cases hv : ((z.returned p).withIntena (some b)).mon.mem x with
          | none => rfl
          | some v =>
              have hold := (Local.forget_some hv).1
              rw [hz.steady.mem x k hx hk] at hold
              cases hold
      case quiet => exact hz.steady.quiet
      case unseen => exact hz.steady.unseen
      case unspared => exact hz.steady.unspared
      case going => exact hz.steady.going
  case core =>
      have hcproc := (hu.steady.top hu.noff).2.1
      simp only [Local.withIntena, Local.returned]
      rw [hz.core]
      simp [Local.hold, Local.pushed, Local.regs, Local.resumed, Local.withSie, Core.locked,
        hu.noff, hcproc]
  case state =>
      intro q hq
      exact (Function.update_of_ne (Inside.ne_of_ne hq) _ _).trans (hz.state q hq)
  case idle =>
      intro q hq
      exact (Function.update_of_ne (Inside.ne_of_ne hq) _ _).trans (hz.idle q hq)

theorem safe_scan {found : Bool} {ps : List Nat} {Q : Bool → Local → Prop} (hu : u.Idling c)
    (hQ : ∀ b w, w.Idling c → Q b w) : Safe (scan found ps) Q u := by
  obtain ⟨hfree, hcproc, -⟩ := hu.steady.top hu.noff
  induction ps generalizing u found with
  | nil => exact hQ found u hu
  | cons p ps ih =>
      have hz := Inside.hold hu.steady (hfree (.proc p))
      have hset := hu.steady.settled_hold (hfree (.proc p))
      have hme : (u.hold (.proc p)).core.me ≠ .proc p := by
        rw [hz.me, hu.me]
        simp
      apply safe_bind
      apply safe_hold (Local.Below.of_free hfree)
      apply safe_bind
      refine safe_getState hz.held ?_
      intro st hst _
      have hz₁ := hz.getState st
      split
      case isFalse =>
          apply safe_bind
          refine safe_back_proc hu.steady hz₁ (hfree _) (hset.getState hst) ?_
          rw [hz₁.back_eq hu.steady hfree rfl (fun _ _ => rfl) rfl Local.not_leaves]
          exact ih hu hfree hcproc
      case isTrue hrunnable =>
          subst hrunnable
          have hidle₁ : ((u.hold (.proc p)).next (.state p) .runnable).core.idle p = true := by
            simp [Local.next, Core.next, hme]
          have hmoves : ((u.hold (.proc p)).next (.state p) .runnable).core.Moves p .running := by
            unfold Core.Moves
            rw [if_neg (show ((u.hold (.proc p)).next (.state p) .runnable).core.me ≠ .proc p
              from hme)]
            exact ⟨hidle₁, Function.update_self _ _ _, c, hu.me⟩
          apply safe_bind
          refine safe_setState hz₁.held hmoves (fun heq => absurd heq hme) ?_
          have hz₂ := hz₁.setState .running fun heq => absurd heq hme
          have hidle₂ : (((u.hold (.proc p)).next (.state p) .runnable).next
              (.setState p .running) ()).core.idle p = true := hidle₁
          have hstate₂ : (((u.hold (.proc p)).next (.state p) .runnable).next
              (.setState p .running) ()).core.state p = some .running := Function.update_self _ _ _
          generalize ((u.hold (.proc p)).next (.state p) .runnable).next
            (.setState p .running) () = z at hz₂ hidle₂ hstate₂ ⊢
          have hcpu : ∃ c, z.core.me = .cpu c := ⟨c, hz₂.me.trans hu.me⟩
          have hnoff : z.core.noff = 1 := by rw [hz₂.noff, hu.noff]
          have honly : z.core.Only p :=
            ⟨hz₂.held, fun k hk => (hz₂.grip_of_ne hk).trans (hfree k)⟩
          apply safe_bind
          refine safe_op ⟨hz₂.sie, hcpu⟩ trivial fun _ _ _ _ => ?_
          apply safe_bind
          refine safe_op ⟨hcpu, hnoff, hz₂.sie, honly, rfl, hidle₂, hstate₂⟩ trivial
            fun _ _ _ _ => ?_
          apply safe_bind
          refine safe_op ⟨hz₂.sie, hcpu⟩ trivial fun _ _ _ _ => ?_
          -- back from `p`
          change Safe (release (.proc p) >>= _) Q (z.returned p)
          have hset₃ : (z.returned p).Settled p := by
            refine ⟨fun heq => ?_, fun hidle => ?_⟩
            · have hmez : u.core.me = .proc p := hz₂.me.symm.trans heq
              rw [hu.me] at hmez
              cases hmez
            · have hfalse : (z.returned p).core.idle p = false := Function.update_self _ _ _
              cases hfalse.symm.trans hidle
          apply safe_bind
          refine safe_back_switched hu.steady.resumed hu.noff rfl hset₃ hnoff
            (fun b => hz₂.returned hu) fun b => ?_
          have hmon : ((z.returned p).withIntena (some b)).unlockMon (.proc p) =
              (z.returned p).unlockMon (.proc p) :=
            Local.unlockMon_congr rfl rfl rfl fun _ => Iff.rfl
          have hsteady := (hz₂.returned (b := b) hu).back_steady
            (hu.steady.resumed.withSie hu.noff rfl) (hfree _)
          rw [Local.back, hmon] at hsteady
          exact ih ⟨hsteady, hu.noff, hu.me⟩ hfree hcproc

theorem safe_schedulerTurn {Q : Unit → Local → Prop} (hu : u.Idling c)
    (hQ : ∀ w, w.Idling c → Q () w) : Safe schedulerTurn Q u := by
  have hon : ∀ (w : Local) (P : Unit → Local → Prop), w.Idling c →
      (∀ w', w'.Idling c → P () w') → Safe (op .intrOn) P w := by
    intro w P hw hP
    obtain ⟨hfree, hcproc, -⟩ := hw.steady.top hw.noff
    refine safe_intrOn ⟨hw.noff, hfree⟩ hcproc (hP _ ⟨?_, hw.noff, hw.me⟩)
    exact hw.steady.setSstatus hw.noff rfl fun _ => rfl
  apply safe_bind
  refine hon u _ hu fun w hw => ?_
  apply safe_bind
  refine safe_scan hw fun found w' hw' => ?_
  split
  case isTrue =>
      apply safe_bind
      refine hon w' _ hw' fun w'' hw'' => ?_
      exact safe_op trivial trivial fun _ _ _ _ => hQ w'' hw''
  case isFalse => exact safe_pure (hQ w' hw')

theorem safe_scheduler {Q : Unit → Local → Prop} (hu : u.Idling c) (hsie : u.core.sie = false) :
    Safe scheduler Q u := by
  have hcproc := (hu.steady.top hu.noff).2.1
  apply safe_bind
  refine safe_op ⟨hsie, c, hu.me⟩ trivial fun _ _ _ _ => ?_
  have hsame : u.next (.setCproc none) () = u := by
    obtain ⟨⟨me, live, noff, intena, sie, prev, grip, cproc, state, idle, child⟩, mon⟩ := u
    simp only at hcproc
    rw [hcproc]
    rfl
  rw [hsame]
  apply Routine.wp_forever rules_monotone (fun w => w.Idling c) hu
  exact fun w hw => safe_schedulerTurn hw fun w' hw' => hw'

end SyscallSched.Xv6.Smp
