import SyscallSched.Xv6.Smp.Kernel
import SyscallSched.Xv6.Smp.Run

/-!
# What holds in every state of the kernel

The results are about any number of CPUs, any schedule of them, interrupts at any step
that has them on, any system calls but `sfork` and any answers of the user memory.
-/

namespace SyscallSched.Xv6.Smp

open SyscallSched.Foundation

variable {c c' : Threads State Thread Op Op.Res} {a b p q : Nat}

def At (c : Threads State Thread Op Op.Res) (a : Nat) (o : Op) : Prop :=
  ∃ next, c.code (c.shared.cur a) = .act o next

theorem at_of_nextOp {o : Op} (h : nextOp c a = some o) : At c a o := by
  unfold nextOp at h
  cases hcode : c.code (c.shared.cpu a).cur with
  | ret u => simp [hcode] at h
  | act o' next =>
      simp only [hcode, Option.some.injEq] at h
      subst h
      exact ⟨next, hcode⟩
  | loop body s next => simp [hcode] at h

/-! Runs of one CPU and a run of two, computed. -/

theorem solo_exit : nextOp (solo (.exit 0) 107) 0 ≠ some (.panic .initExiting) ∧
    nextOp (solo (.exit 0) 108) 0 = some (.panic .initExiting) := by decide +kernel

theorem solo_sleep : nextOp (solo (.sleep 3) 108) 0 = some (.store (.tickN 0) 3) ∧
    (solo (.sleep 3) 225).shared.state 0 = .sleeping ∧
    (solo (.sleep 3) 225).shared.mem (.chan 0) = some .ticks ∧
    ((solo (.sleep 3) 225).shared.lock .tick).locked = false := by decide +kernel

theorem solo_fork : nextOp (solo .fork 16) 0 = some (.swtchTo 0) ∧
    nextOp (solo .fork 57) 0 = some .user ∧
    (solo .fork 57).shared.cur 0 = .proc 0 ∧
    ((solo .fork 57).shared.lock (.proc 0)).locked = false ∧
    ((solo .fork 109).shared.cpu 0).sie = true ∧
    nextOp (solo .fork 163) 0 = some (.setState 1 .used) := by decide +kernel

theorem solo_schedules : (take (solo .fork 14) (.go 0 {})).isSome = true ∧
    (run (solo .fork 14) [.go 0 {}]).shared.state 0 ≠ (solo .fork 14).shared.state 0 := by
  decide +kernel

/-- The CPU 0 has forked and is about to count a tick in its timer interrupt. The CPU 1
runs the child, which waits for the ticks in `uptime`. -/
def duet : Threads State Thread Op Op.Res :=
  run booted (turns 0 .fork 264 ++ List.replicate 27 (.go 0 {}) ++ turns 1 .uptime 125)

theorem reachable_duet : Reachable duet := by
  apply reachable_run .init
  intro e he
  simp only [List.mem_append, or_assoc] at he
  obtain he | he | he := he
  · exact asks_of_mem_turns (by decide) e he
  · rw [List.eq_of_mem_replicate he]
    rintro k ⟨⟩
  · exact asks_of_mem_turns (by decide) e he

theorem duet_runs : duet.shared.cur 0 = .proc 0 ∧ duet.shared.cur 1 = .proc 1 ∧
    (duet.shared.lock (.proc 1)).locked = false ∧ (duet.shared.lock .tick).cpu = some 0 ∧
    nextOp duet 0 = some (.store .ticks 1) ∧ nextOp duet 1 = some (.swap .tick) := by
  decide +kernel

theorem nextOp_of_at {o : Op} (h : At c a o) : nextOp c a = some o := by
  obtain ⟨next, hcode⟩ := h
  unfold nextOp
  rw [hcode]

/-- What the threads know in a reachable state. -/
structure Knows (c : Threads State Thread Op Op.Res) (l : Thread → Local) : Prop where
  inv : Inv c.shared (cores l)
  mon : MonInv c.shared l
  parents : Parents c.shared l
  core : ∀ a o, At c a o → (l (c.shared.cur a)).core.Pre o
  pre : ∀ a o, At c a o → (l (c.shared.cur a)).Pre o
  goes : ∀ a, (c.code (c.shared.cur a)).wp rules (fun _ _ => False) (l (c.shared.cur a))

theorem knows_of_reachable (h : Reachable c) : ∃ l, Knows c l := by
  obtain ⟨l, ⟨hinv, hmon, hparents⟩, hcode⟩ := good_of_reachable h
  have hgoes : ∀ a, (c.code (c.shared.cur a)).wp rules (fun _ _ => False)
      (l (c.shared.cur a)) := fun a => hcode _ (hinv.live a)
  refine ⟨l, hinv, hmon, hparents, ?_, ?_, hgoes⟩
  · rintro a o ⟨next, hnext⟩
    have hrule := hgoes a
    rw [hnext] at hrule
    exact hrule.1
  · rintro a o ⟨next, hnext⟩
    have hrule := hgoes a
    rw [hnext] at hrule
    exact hrule.2.1

theorem Knows.free {l : Thread → Local} (h : Knows c l) {k : Lock}
    (hk : (c.shared.lock k).locked = false) (a : Nat) :
    (l (c.shared.cur a)).core.grip k = .free := by
  by_contra hne
  rw [(h.inv.locked k).2 ⟨a, hne⟩] at hk
  cases hk

theorem Knows.held {l : Thread → Local} (h : Knows c l) {k : Lock}
    (hk : (l (c.shared.cur a)).core.grip k = .held) :
    (c.shared.lock k).locked = true ∧ (c.shared.lock k).cpu = some a :=
  ⟨(h.inv.locked k).2 ⟨a, by simp [cores, hk]⟩, (h.inv.lockCpu k a).2 hk⟩

theorem Knows.cpu {l : Thread → Local} (h : Knows c l) {k : Lock}
    (hk : (c.shared.lock k).cpu = some a) : (l (c.shared.cur a)).core.grip k = .held :=
  (h.inv.lockCpu k a).1 hk

/-! ## Panics and progress -/

/-- The only check that ever fails is the one against the exit of the first process. -/
theorem panic_eq_initExiting (h : Reachable c) {m : Panic} (hat : At c a (.panic m)) :
    m = .initExiting := by
  obtain ⟨l, hl⟩ := knows_of_reachable h
  exact hl.core a _ hat

theorem panic_eq_initExiting_solo :
    ∃ m, At (solo (.exit 0) 108) 0 (.panic m) ∧ m = .initExiting := by
  have hat : At (solo (.exit 0) 108) 0 (.panic .initExiting) := at_of_nextOp solo_exit.2
  exact ⟨_, hat, panic_eq_initExiting (reachable_solo (by decide)) hat⟩

/-- After an `sfork` the CPU holds the lock of the child, and panics when it takes that
lock again. -/
theorem sfork_panics : ∃ c, Threads.Reachable (machine fun _ => True) booted c ∧
    At c 0 (.panic .acquire) := by
  refine ⟨run booted (turns 0 .sfork 234 ++ List.replicate 54 (.go 0 {})), ?_, ?_⟩
  · apply reachable_run .init
    intro e he
    obtain he | he := List.mem_append.1 he
    · exact asks_of_mem_turns trivial e he
    · rw [List.eq_of_mem_replicate he]
      exact fun _ _ => trivial
  · apply at_of_nextOp
    decide +kernel

/-- The thread on the CPU `a` can do its next operation, or its next turn of a loop. -/
inductive Goes (c : Threads State Thread Op Op.Res) (a : Nat) : Prop where
  | act {o : Op} {next : o.Res → SmpM Unit} {r : o.Res} {s : State}
      (hcode : c.code (c.shared.cur a) = .act o next) (hdoes : Does a c.shared o r s)
  | turn {S R : Type} {body : S → SmpM (S ⊕ R)} {s : S} {next : R → SmpM Unit}
      (hcode : c.code (c.shared.cur a) = .loop body s next)

theorem does_of_ne_panic {s : State} {o : Op} (ho : ∀ m, o ≠ .panic m) :
    ∃ r s', Does a s o r s' := by
  cases o
  case user => exact ⟨.other .timer, _, rfl⟩
  case attempt => exact ⟨true, _, rfl⟩
  case ioStep => exact ⟨.done, _, rfl⟩
  case panic m => exact absurd rfl (ho m)
  all_goals first | exact ⟨_, _, rfl, rfl⟩ | exact ⟨(), _, rfl⟩

/-- No CPU is ever stuck: a thread that a CPU runs has not ended and has a context. -/
theorem goes_of_reachable (h : Reachable c) (a : Nat) (hat : ¬ At c a (.panic .initExiting)) :
    Goes c a := by
  obtain ⟨l, hl⟩ := knows_of_reachable h
  have hgoes := hl.goes a
  cases hcode : c.code (c.shared.cur a) with
  | ret u =>
      rw [hcode] at hgoes
      exact hgoes.elim
  | act o next =>
      have ho : ∀ m, o ≠ .panic m := by
        rintro m rfl
        have hm := hl.core a _ ⟨next, hcode⟩
        cases hm
        exact hat ⟨next, hcode⟩
      obtain ⟨r, s', hdoes⟩ := does_of_ne_panic (s := c.shared) ho
      exact .act hcode hdoes
  | loop body s next => exact .turn hcode

theorem goes_of_reachable_solo : Goes (solo (.exit 0) 107) 0 := by
  refine goes_of_reachable (reachable_solo (by decide)) 0 fun hat => ?_
  exact solo_exit.1 (nextOp_of_at hat)

/-! ## Processes and CPUs -/

/-- `p->state` says that `p` is on a CPU, whenever `p->lock` is free. -/
theorem running_iff (h : Reachable c) (hfree : (c.shared.lock (.proc p)).locked = false) :
    c.shared.state p = .running ↔ ∃ a, c.shared.cur a = .proc p := by
  obtain ⟨l, hl⟩ := knows_of_reachable h
  have hgrip := fun a => hl.free hfree a
  constructor
  · intro hst
    by_contra hnot
    obtain ⟨a, hheld, -⟩ := hl.inv.picked p hst hnot
    exact hheld (hgrip a)
  · rintro ⟨a, ha⟩
    have hown := hl.inv.own p ⟨a, ha⟩
    have hfree' := hgrip a
    rw [ha] at hfree'
    rwa [if_pos hfree'] at hown

theorem running_iff_duet : duet.shared.state 1 = .running ↔ ∃ a, duet.shared.cur a = .proc 1 :=
  running_iff reachable_duet duet_runs.2.2.1

/-- No process is on two CPUs, and each CPU knows its own. -/
theorem one_cpu (h : Reachable c) (ha : c.shared.cur a = .proc p) (hb : c.shared.cur b = .proc p) :
    a = b ∧ (c.shared.cpu a).proc = some p := by
  obtain ⟨l, hl⟩ := knows_of_reachable h
  refine ⟨hl.inv.once a b p ha hb, ?_⟩
  obtain hcpu | ⟨q, hq, haway⟩ := hl.inv.cur a
  · rw [ha] at hcpu
    cases hcpu
  · rw [ha] at hq
    cases hq
    rw [(hl.inv.sched a).2, haway.cproc]

theorem one_cpu_duet : (duet.shared.cpu 1).proc = some 1 ∧ duet.shared.cur 0 ≠ .proc 1 :=
  have hone := duet_runs.2.1
  ⟨(one_cpu reachable_duet hone hone).2,
    fun hzero => absurd (one_cpu reachable_duet hzero hone).1 (by decide)⟩

def Edge (own : Bool) : ProcState → ProcState → Prop
  | .running, st => own = true ∧ (st = .runnable ∨ st = .sleeping ∨ st = .zombie)
  | .unused, st => own = false ∧ st = .used
  | .used, st => own = false ∧ (st = .unused ∨ st = .runnable)
  | .sleeping, st => own = false ∧ st = .runnable
  | .runnable, st => own = false ∧ st = .running
  | .zombie, st => own = false ∧ st = .unused

theorem edge_of_at {l : Thread → Local} (hl : Knows c l) {st : ProcState}
    (hat : At c a (.setState p st)) :
    Edge (decide (c.shared.cur a = .proc p)) (c.shared.state p) st := by
  obtain ⟨-, hmoves⟩ := hl.core a _ hat
  have hme : (l (c.shared.cur a)).core.me = c.shared.cur a := hl.inv.me _
  have hstate : ∀ st', (l (c.shared.cur a)).core.state p = some st' → c.shared.state p = st' :=
    fun st' => hl.inv.state a p st'
  have hchild : ∀ b, (l (c.shared.cur a)).core.child = some (p, b) → c.shared.state p = .used :=
    fun b hb => (hl.inv.child _ p b (hl.inv.live a) hb).1
  unfold Core.Moves at hmoves
  rw [hme] at hmoves
  by_cases hown : c.shared.cur a = .proc p
  · rw [if_pos hown] at hmoves
    rw [hstate _ hmoves.1]
    exact ⟨by simp [hown], hmoves.2⟩
  · rw [if_neg hown] at hmoves
    have hfalse : decide (c.shared.cur a = .proc p) = false := decide_eq_false hown
    rw [hfalse]
    cases st with
    | unused =>
        obtain hzombie | ⟨b, hb⟩ := hmoves
        · rw [hstate _ hzombie.2]
          exact ⟨rfl, rfl⟩
        · rw [hchild b hb]
          exact ⟨rfl, .inl rfl⟩
    | used =>
        rw [hstate _ hmoves.2.1]
        exact ⟨rfl, rfl⟩
    | sleeping => exact hmoves.elim
    | runnable =>
        obtain hsleeping | hb := hmoves
        · rw [hstate _ hsleeping.2]
          exact ⟨rfl, rfl⟩
        · rw [hchild _ hb]
          exact ⟨rfl, .inr rfl⟩
    | running =>
        rw [hstate _ hmoves.2.1]
        exact ⟨rfl, rfl⟩
    | zombie => exact hmoves.elim

/-- `p->state` changes along the edges only, and under `p->lock`, held by the CPU that
changes it. -/
theorem edge_of_step (h : Reachable c) (hstep : Threads.Step (machine Plain) c c')
    (hne : c'.shared.state p ≠ c.shared.state p) :
    ∃ a st next, c.code (c.shared.cur a) = .act (.setState p st) next ∧
      c' = { shared := c.shared.setState p st
             code := Function.update c.code (c.shared.cur a) (next ()) } ∧
      (c.shared.lock (.proc p)).locked = true ∧ (c.shared.lock (.proc p)).cpu = some a ∧
      Edge (decide (c.shared.cur a = .proc p)) (c.shared.state p) (c'.shared.state p) := by
  obtain ⟨l, hl⟩ := knows_of_reachable h
  cases hstep with
  | @act t o next r s' hcode hact =>
      obtain ⟨⟨a, rfl, hdoes⟩, -⟩ := hact
      obtain hsame | ⟨q, st, rfl, rfl⟩ := does_state hdoes
      · exact absurd (congrFun hsame p) hne
      · have hq : q = p := by
          by_contra hqp
          exact hne (Function.update_of_ne (Ne.symm hqp) _ _)
        subst hq
        have hat : At c a (.setState q st) := ⟨next, hcode⟩
        obtain ⟨hlocked, hcpu⟩ := hl.held (hl.core a _ hat).1
        refine ⟨a, st, next, hcode, rfl, hlocked, hcpu, ?_⟩
        have hnew : (c.shared.setState q st).state q = st := Function.update_self _ _ _
        rw [hnew]
        exact edge_of_at hl hat
  | turn => exact absurd rfl hne
  | interrupt hint =>
      cases hint
      exact absurd rfl hne

theorem edge_of_step_solo : ∃ a st next,
    (solo .fork 14).code ((solo .fork 14).shared.cur a) = .act (.setState 0 st) next ∧
      run (solo .fork 14) [.go 0 {}] =
        { shared := (solo .fork 14).shared.setState 0 st
          code := Function.update (solo .fork 14).code ((solo .fork 14).shared.cur a) (next ()) } ∧
      ((solo .fork 14).shared.lock (.proc 0)).locked = true ∧
      ((solo .fork 14).shared.lock (.proc 0)).cpu = some a ∧
      Edge (decide ((solo .fork 14).shared.cur a = .proc 0)) ((solo .fork 14).shared.state 0)
        ((run (solo .fork 14) [.go 0 {}]).shared.state 0) :=
  edge_of_step (reachable_solo (by decide)) (step_run (fun _ => nofun) solo_schedules.1)
    solo_schedules.2

/-- What `allocproc` and `freeproc` do to a slot. -/
def Fills (p : Nat) : Op → Prop
  | .setState q st => q = p ∧ (st = .unused ∨ st = .used)
  | .store (.pid q) _ => q = p
  | .setContext q => q = p
  | _ => False

/-- A slot is filled or freed only when no CPU runs it, and under its lock, held by the
CPU that does so. -/
theorem not_running_of_fills (h : Reachable c) {o : Op} (hat : At c a o) (ho : Fills p o) :
    (∀ b, c.shared.cur b ≠ .proc p) ∧ (c.shared.lock (.proc p)).locked = true ∧
      (c.shared.lock (.proc p)).cpu = some a := by
  obtain ⟨l, hl⟩ := knows_of_reachable h
  have hcore := hl.core a o hat
  have hpre := hl.pre a o hat
  cases o
  case setState q st =>
      obtain ⟨rfl, hst⟩ := ho
      obtain ⟨hheld, hmoves⟩ := hcore
      refine ⟨fun b hb => ?_, hl.held hheld⟩
      have hidle : (l (c.shared.cur a)).core.idle q ≠ true := fun hidle =>
        hl.inv.idle a q hidle ⟨b, hb⟩
      have hchild : ∀ b', (l (c.shared.cur a)).core.child ≠ some (q, b') := fun b' hb' =>
        hl.inv.not_running_of_child (hl.inv.live a) hb' ⟨b, hb⟩
      unfold Core.Moves at hmoves
      split at hmoves
      · obtain rfl | rfl := hst <;> simp at hmoves
      · obtain rfl | rfl := hst
        · obtain hzombie | ⟨b', hb'⟩ := hmoves
          · exact hidle hzombie.1
          · exact hchild b' hb'
        · exact hidle hmoves.1
  case store x v =>
      cases x
      case pid q =>
          cases ho
          have hvacant : (l (c.shared.cur a)).Vacant p := hpre
          refine ⟨fun b hb => ?_, hl.held hvacant.2.1⟩
          exact (hl.inv.not_running_of_vacant hvacant).1 ⟨b, hb⟩
      all_goals exact ho.elim
  case setContext q =>
      cases ho
      refine ⟨fun b hb => ?_, hl.held hcore.1⟩
      exact hl.inv.not_running_of_child (hl.inv.live a) hcore.2 ⟨b, hb⟩
  all_goals exact ho.elim

theorem not_running_of_fills_solo : (∀ b, (solo .fork 163).shared.cur b ≠ .proc 1) ∧
    ((solo .fork 163).shared.lock (.proc 1)).locked = true ∧
    ((solo .fork 163).shared.lock (.proc 1)).cpu = some 0 :=
  not_running_of_fills (o := .setState 1 .used) (reachable_solo (by decide))
    (at_of_nextOp solo_fork.2.2.2.2.2) ⟨rfl, .inr rfl⟩

/-- The parent of a process has not exited, and neither has the first process. -/
theorem parent_lives (h : Reachable c) :
    (∀ p q, c.shared.Parent p q → c.shared.Lives q) ∧ c.shared.Lives initproc := by
  obtain ⟨l, hl⟩ := knows_of_reachable h
  exact ⟨hl.parents.lives, hl.parents.first⟩

theorem parent_lives_duet : (∀ p q, duet.shared.Parent p q → duet.shared.Lives q) ∧
    duet.shared.Lives initproc :=
  parent_lives reachable_duet

/-- No process is its own ancestor. -/
theorem not_ancestor_self (h : Reachable c) (p : Nat) :
    ¬ Relation.TransGen c.shared.Parent p p := by
  obtain ⟨l, hl⟩ := knows_of_reachable h
  exact hl.parents.acyclic p

theorem not_ancestor_self_duet : ¬ Relation.TransGen duet.shared.Parent 1 1 :=
  not_ancestor_self reachable_duet 1

/-! ## Locks -/

/-- With interrupts on a CPU holds no spinlock: an interrupt never waits for a lock of its
own CPU. -/
theorem unlocked_of_sie (h : Reachable c) (hsie : (c.shared.cpu a).sie = true) :
    (c.shared.cpu a).noff = 0 ∧ ∀ k, (c.shared.lock k).cpu ≠ some a := by
  obtain ⟨l, hl⟩ := knows_of_reachable h
  have htied := hl.inv.tied a
  have hopen := htied.on (htied.sie ▸ hsie)
  refine ⟨htied.noff.trans hopen.free.1, ?_⟩
  intro k hk
  have hfree := hopen.free.2 k
  rw [hl.cpu hk] at hfree
  cases hfree

theorem unlocked_of_sie_solo : ((solo .fork 109).shared.cpu 0).noff = 0 ∧
    ∀ k, ((solo .fork 109).shared.lock k).cpu ≠ some 0 :=
  unlocked_of_sie (reachable_solo (by decide)) solo_fork.2.2.2.2.1

/-- A CPU changes its thread with the lock of the one process alone, which no other CPU
runs. -/
theorem lock_of_switch (h : Reachable c) {o : Op}
    (hat : At c a o) (ho : o = .swtchTo p ∨ o = .swtchBack ∧ c.shared.cur a = .proc p) :
    (∀ k, (c.shared.lock k).cpu = some a ↔ k = .proc p) ∧ (c.shared.cpu a).noff = 1 ∧
      (c.shared.cpu a).sie = false ∧ ∀ b, c.shared.cur b = .proc p → b = a := by
  obtain ⟨l, hl⟩ := knows_of_reachable h
  have hcore := hl.core a o hat
  have htied := hl.inv.tied a
  have honly : (l (c.shared.cur a)).core.Only p → ∀ k, (c.shared.lock k).cpu = some a ↔
      k = .proc p := by
    intro honly k
    refine (hl.inv.lockCpu k a).trans ⟨?_, ?_⟩
    · intro hheld
      by_contra hk
      have hfree := honly.2 k hk
      rw [hheld] at hfree
      cases hfree
    · rintro rfl
      exact honly.1
  obtain rfl | ⟨rfl, hcur⟩ := ho
  · obtain ⟨-, hnoff, hsie, hon, -, hidle, -⟩ := hcore
    refine ⟨honly hon, htied.noff.trans hnoff, htied.sie.trans hsie, ?_⟩
    exact fun b hb => absurd ⟨b, hb⟩ (hl.inv.idle a p hidle)
  · obtain ⟨q, hq, hnoff, hsie, hon, -⟩ := hcore
    have hqp : q = p := by
      have hme := (hl.inv.me (c.shared.cur a)).symm.trans hq
      rw [hcur] at hme
      exact (Thread.proc.inj hme).symm
    subst hqp
    refine ⟨honly hon, htied.noff.trans hnoff, htied.sie.trans hsie, ?_⟩
    exact fun b hb => hl.inv.once b a q hb hcur

theorem lock_of_switch_solo :
    (∀ k, ((solo .fork 16).shared.lock k).cpu = some 0 ↔ k = .proc 0) ∧
      ((solo .fork 16).shared.cpu 0).noff = 1 ∧ ((solo .fork 16).shared.cpu 0).sie = false ∧
      ∀ b, (solo .fork 16).shared.cur b = .proc 0 → b = 0 :=
  lock_of_switch (o := .swtchTo 0) (reachable_solo (by decide)) (at_of_nextOp solo_fork.1)
    (.inl rfl)

/-- A process leaves for user mode with no lock, and `sret` will lead there. -/
theorem unlocked_of_user (h : Reachable c) (hat : At c a .user) :
    (c.shared.cpu a).noff = 0 ∧ (c.shared.cpu a).sie = false ∧ (c.shared.cpu a).spp = false ∧
      ∀ k, (c.shared.lock k).cpu ≠ some a := by
  obtain ⟨l, hl⟩ := knows_of_reachable h
  obtain ⟨⟨hnoff, hfree⟩, hsie, b, hprev⟩ := hl.core a _ hat
  have htied := hl.inv.tied a
  refine ⟨htied.noff.trans hnoff, htied.sie.trans hsie, congrArg Prod.snd (htied.prev _ hprev), ?_⟩
  intro k hk
  have hheld := hl.cpu hk
  rw [hfree k] at hheld
  cases hheld

theorem unlocked_of_user_solo : ((solo .fork 57).shared.cpu 0).noff = 0 ∧
    ((solo .fork 57).shared.cpu 0).sie = false ∧ ((solo .fork 57).shared.cpu 0).spp = false ∧
      ∀ k, ((solo .fork 57).shared.lock k).cpu ≠ some 0 :=
  unlocked_of_user (reachable_solo (by decide)) (at_of_nextOp solo_fork.2.1)

def Waits (c : Threads State Thread Op Op.Res) (holder : Lock → Option Nat) (a b : Nat) : Prop :=
  ∃ k, At c a (.swap k) ∧ holder k = some b

theorem waits_rank {l : Thread → Local} (hl : Knows c l) {holder : Lock → Option Nat}
    (hholder : ∀ k b, holder k = some b → (l (c.shared.cur b)).core.grip k ≠ .free)
    (hwaits : Relation.TransGen (Waits c holder) a b) :
    ∃ k k', At c a (.swap k) ∧ holder k' = some b ∧ k.rank ≤ k'.rank := by
  induction hwaits with
  | single hab =>
      obtain ⟨k, hk, hb⟩ := hab
      exact ⟨k, k, hk, hb, Nat.le_refl _⟩
  | tail _ hbd ih =>
      obtain ⟨k, k', hk, hb, hle⟩ := ih
      obtain ⟨k'', hk'', hd⟩ := hbd
      have hlt := (hl.core _ _ hk'').2.2 k' (hholder k' _ hb)
      exact ⟨k, k'', hk, hd, Nat.le_trans hle (Nat.le_of_lt hlt)⟩

open Classical in
/-- The CPUs never wait for each other in a circle. -/
theorem no_deadlock (h : Reachable c) : ∃ holder : Lock → Option Nat,
    (∀ k, (c.shared.lock k).locked = true ↔ ∃ b, holder k = some b) ∧
    (∀ k b, (c.shared.lock k).cpu = some b → holder k = some b) ∧
    ∀ a, ¬ Relation.TransGen (Waits c holder) a a := by
  obtain ⟨l, hl⟩ := knows_of_reachable h
  let holder : Lock → Option Nat := fun k =>
    if hk : ∃ b, (l (c.shared.cur b)).core.grip k ≠ .free then some hk.choose else none
  have hholder : ∀ k b, holder k = some b ↔ (l (c.shared.cur b)).core.grip k ≠ .free := by
    intro k b
    by_cases hk : ∃ b, (l (c.shared.cur b)).core.grip k ≠ .free
    · have hsome : holder k = some hk.choose := dif_pos hk
      rw [hsome, Option.some.injEq]
      constructor
      · rintro rfl
        exact hk.choose_spec
      · exact fun hb => hl.inv.holder k _ _ hk.choose_spec hb
    · have hnone : holder k = none := dif_neg hk
      rw [hnone]
      exact ⟨fun heq => (by cases heq), fun hb => absurd ⟨b, hb⟩ hk⟩
  refine ⟨holder, ?_, ?_, ?_⟩
  · intro k
    simp only [hholder]
    exact hl.inv.locked k
  · intro k b hb
    rw [hholder, hl.cpu hb]
    simp
  · intro a hcircle
    obtain ⟨k, k', hk, ha, hle⟩ := waits_rank hl (fun k b => (hholder k b).1) hcircle
    have hlt := (hl.core a _ hk).2.2 k' ((hholder k' a).1 ha)
    exact absurd hlt (Nat.not_lt.2 hle)

/-- The CPU 1 waits for the CPU 0, which does not wait for it. -/
theorem no_deadlock_duet : ∃ holder : Lock → Option Nat, Waits duet holder 1 0 ∧
    ¬ Relation.TransGen (Waits duet holder) 0 1 := by
  obtain ⟨holder, -, hcpu, hcircle⟩ := no_deadlock reachable_duet
  obtain ⟨-, -, -, htick, -, hswap⟩ := duet_runs
  have hwaits : Waits duet holder 1 0 := ⟨.tick, at_of_nextOp hswap, hcpu .tick 0 htick⟩
  exact ⟨holder, hwaits, fun hback => hcircle 0 (hback.tail hwaits)⟩

/-! ## Shared memory -/

/-- What the threads share. -/
inductive Cell where
  | mem (x : Loc)
  | state (p : Nat)
  | priority (p : Nat)

/-- What an operation accesses, and whether it writes there. -/
def Accesses : Op → Option (Cell × Bool)
  | .load x => some (.mem x, false)
  | .store x _ => some (.mem x, true)
  | .peek x => some (.mem x, false)
  | .peekState p => some (.state p, false)
  | .state p => some (.state p, false)
  | .setState p _ => some (.state p, true)
  | .setPriority p _ => some (.priority p, true)
  | _ => none

/-- What is done under no lock: `sys_setpriority` and `procdump` read the table and set
priorities, and `freeproc` clears the parent of a slot without `wait_lock` when it is
called by `allocproc` or `fork`. -/
def Unguarded (s : State) (a : Nat) : Op → Prop
  | .peek _ => True
  | .peekState _ => True
  | .setPriority _ _ => True
  | .store (.parent _) none => (s.lock .wait).cpu ≠ some a
  | _ => False

theorem Knows.reads_of_store {l : Thread → Local} (hl : Knows c l) {x : Loc} {v : x.Val}
    (hat : At c a (.store x v)) (hguarded : ¬ Unguarded c.shared a (.store x v)) :
    (l (c.shared.cur a)).Reads x := by
  have hw : (l (c.shared.cur a)).Writes x v := hl.pre a _ hat
  cases x
  case chan p => exact hw.1
  case parent p =>
      obtain ⟨hwait, -⟩ | ⟨rfl, -⟩ := hw
      · exact hwait
      · have hcpu : (c.shared.lock .wait).cpu = some a := by
          by_contra hne
          exact hguarded hne
        simp [Local.Reads, hl.cpu hcpu]
  case pid p => exact .inr (by simp [hw.2.1])
  case sleepLocked k => exact hw.1
  case sleepPid k => exact hw.1
  case ticks0 p => exact hw.1
  case tickN p => exact hw.1
  all_goals exact hw

/-- A location that one CPU may read and another may write is the same CPU's. -/
theorem Knows.eq_of_store {l : Thread → Local} (hl : Knows c l) {x : Loc} {v : x.Val}
    (hat : At c a (.store x v)) (hguarded : ¬ Unguarded c.shared a (.store x v))
    (hreads : (l (c.shared.cur b)).Reads x) : a = b := by
  have hw : (l (c.shared.cur a)).Writes x v := hl.pre a _ hat
  have hreads' := hl.reads_of_store hat hguarded
  have hlock : ∀ k, (l (c.shared.cur a)).core.grip k ≠ .free →
      (l (c.shared.cur b)).core.grip k ≠ .free → a = b := fun k => hl.inv.holder k a b
  have hme : ∀ t, (l (c.shared.cur a)).core.me = t → (l (c.shared.cur b)).core.me = t → a = b := by
    intro t hta htb
    apply hl.inv.cur_inj
    exact (hl.inv.me _).symm.trans (hta.trans (htb.symm.trans (hl.inv.me _)))
  have hsleeps : ∀ k, (l (c.shared.cur a)).mon.sleeps k = true →
      (l (c.shared.cur b)).mon.sleeps k = true → a = b := fun k hka hkb =>
    hl.inv.cur_inj (hl.mon.one _ _ k (hl.inv.live a) (hl.inv.live b) hka hkb)
  cases x
  case pid p =>
      obtain hself | hheld := hreads
      · exact absurd ⟨b, (hl.inv.me _).symm.trans hself⟩ (hl.inv.not_running_of_vacant hw).1
      · exact hlock _ (by simp [hw.2.1]) hheld
  case data k => exact hsleeps k hreads' hreads
  case ticks0 p => exact hme _ hreads' hreads
  case tickN p => exact hme _ hreads' hreads
  all_goals exact hlock _ hreads' hreads

/-- No wakeup is lost: what a process sleeps for has not happened, whenever the lock of
its channel is free. -/
theorem blocked_of_asleep (h : Reachable c) {ch : Chan} (hq : Asleep c.shared q ch)
    (hfree : (c.shared.lock ch.lock).locked = false) : Blocked c.shared q ch := by
  obtain ⟨l, hl⟩ := knows_of_reachable h
  apply hl.mon.monitor q ch (.inl hq)
  rintro t ⟨a, rfl⟩
  exact hl.free hfree a

theorem blocked_of_asleep_solo : Blocked (solo (.sleep 3) 225).shared 0 .ticks := by
  obtain ⟨-, hstate, hchan, hlock⟩ := solo_sleep
  generalize hc : solo (.sleep 3) 225 = c at hstate hchan hlock ⊢
  have h : Reachable c := hc ▸ reachable_solo (by decide)
  exact blocked_of_asleep h ⟨hstate, hchan⟩ hlock

end SyscallSched.Xv6.Smp
