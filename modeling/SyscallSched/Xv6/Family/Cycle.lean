import SyscallSched.Xv6.Family.Refine

/-!
# The life cycle of processes over runs

Every step of the kernel is a step of the abstract process table, so its
invariant holds in every state that a run reaches.
-/

namespace SyscallSched.Xv6

open SyscallSched.Foundation
open Family

section

variable [Image] {s s' : Sys} {p : Nat} {tame : Bool}

/-- A `kill` that is made names no unused slot. -/
def Sys.Aimed (s : Sys) : Nat × Act → Prop
  | (p, .kill pid) => s.kernel.live p → s.phase p = .idle →
      pid ≠ 0 ∨ ∀ q < nproc, (s.kernel.proc q).state ≠ .unused
  | _ => True

omit [Image] in
theorem stage_eq_unused {q : ProcState} : q.stage = .unused ↔ q = .unused := by
  cases q <;> simp [ProcState.stage]

omit [Image] in
theorem live_stage (h : s.kernel.live p) : (s.life.table.entry p).stage = .alive := by
  cases h.2 with
  | inl hstate => simp [Sys.life, Kernel.table, Proc.entry, ProcState.stage, hstate]
  | inr hstate => simp [Sys.life, Kernel.table, Proc.entry, ProcState.stage, hstate]

theorem step_forked {k' : Kernel} {r : Option Nat} (hlive : s.kernel.live p)
    (hidle : s.phase p = .idle) (h : forkCopy p s.kernel = .ok (r, k')) :
    Step nproc tame s.life (s.forked p (r, k')).life := by
  have htaken := forkCopy_taken h
  cases r with
  | none =>
      cases htaken with
      | inl hsame =>
          have hlife : (s.forked p (none, k')).life = s.life := by
            simp [Sys.forked, Sys.life, hsame]
          rw [hlife]
          exact Step.stay tame s.life
      | inr hfailed =>
          obtain ⟨np, hnp, hunused, htable⟩ := hfailed
          have hlife : (s.forked p (none, k')).life = s.life.allocFailed np := by
            simp [Sys.forked, Sys.life, Life.allocFailed, htable]
          rw [hlife]
          exact Step.allocFailed tame s.life np hnp (stage_eq_unused.mpr hunused)
  | some np =>
      obtain ⟨hnp, hunused, htable⟩ := htaken
      have hlife : (s.forked p (some np, k')).life = s.life.copied p np := by
        simp [Sys.forked, Sys.life, Sys.setPhase, Life.copied, Life.setPhase, htable]
      rw [hlife]
      exact Step.copied tame s.life p np (live_stage hlive) hidle hnp
        (stage_eq_unused.mpr hunused)

theorem step_exited {status : Int} {a : Unit} {k' : Kernel} (hlive : s.kernel.live p)
    (hidle : s.phase p = .idle) (h : exit p status s.kernel = .ok (a, k')) :
    Step nproc tame s.life { s with
      kernel := k', exits := s.exits ++ [((s.kernel.proc p).pid, status)] : Sys }.life := by
  obtain ⟨hinit, htable⟩ := exit_table h
  have hlife : { s with
      kernel := k', exits := s.exits ++ [((s.kernel.proc p).pid, status)] : Sys }.life =
      s.life.exited nproc p status := by
    simp [Sys.life, Life.exited, htable]
    rfl
  rw [hlife]
  exact Step.exited tame s.life p status (live_stage hlive) hidle hinit

theorem step_waited {addr : Nat} {r : Option Int} {k' : Kernel} (hlive : s.kernel.live p)
    (h : wait p addr s.kernel = .ok (r, k')) :
    Step nproc tame s.life (s.waited p (r, k')).life := by
  cases wait_waited hlive h with
  | inl hreaped =>
      obtain ⟨c, hzombie, rfl, htable, -⟩ := hreaped
      obtain ⟨-, hparent, hstate⟩ := zombieChild_some hzombie
      have hlife : (s.waited p (some ((s.kernel.proc c).pid : Int), k')).life =
          s.life.reaped p c := by
        simp [Sys.waited, hzombie, Sys.life, Life.reaped, htable]
        exact ⟨rfl, rfl, rfl⟩
      rw [hlife]
      apply Step.reaped tame s.life p c
      · simp [Sys.life, Kernel.table, Proc.entry, ProcState.stage, hstate]
      · exact hparent
  | inr hsame =>
      obtain ⟨hr, htable⟩ := hsame
      have hlife : (s.waited p (r, k')).life = s.life := by
        cases hr with
        | inl hnone => simp [Sys.waited, Sys.life, hnone, htable]
        | inr hminus =>
            subst hminus
            simp only [Sys.waited]
            cases s.kernel.zombieChild p with
            | none => simp [Sys.life, htable]
            | some c => simp [Sys.life, htable]
      rw [hlife]
      exact Step.stay tame s.life

omit [Image] in
theorem step_killed {pid r : Int} {k' : Kernel} (hinv : Family.Inv nproc s.life)
    (htame : tame = true → pid ≠ 0 ∨ ∀ q < nproc, (s.kernel.proc q).state ≠ .unused)
    (h : kill pid s.kernel = .ok (r, k')) :
    Step nproc tame s.life { s with kernel := k' : Sys }.life := by
  rw [kill_run] at h
  cases hfound : s.kernel.withPid pid with
  | none =>
      rw [hfound] at h
      cases h
      exact Step.stay tame s.life
  | some c =>
      rw [hfound] at h
      cases h
      obtain ⟨hc, hpid⟩ := withPid_some hfound
      have hlife : { s with kernel := s.kernel.setProc c Proc.strike : Sys }.life =
          s.life.killed c := by
        simp [Sys.life, Life.killed, strike_table]
      rw [hlife]
      apply Step.killed tame s.life c
      intro hunused
      have hzero : (s.kernel.proc c).pid = 0 := (hinv.cleared c hunused).1
      cases tame with
      | false => rfl
      | true =>
          cases htame rfl with
          | inl hne => exact absurd (by rw [← hpid, hzero]; rfl) hne
          | inr hfull => exact absurd (stage_eq_unused.mp hunused) (hfull c hc)

omit [Image] in
theorem step_setkilled {a : Unit} {k' : Kernel} (hlive : s.kernel.live p)
    (h : setkilled p s.kernel = .ok (a, k')) :
    Step nproc tame s.life { s with kernel := k' : Sys }.life := by
  have hlife : { s with kernel := k' : Sys }.life = s.life.killed p := by
    cases h
    simp only [Sys.life, Life.killed, table_setProc]
    rfl
  rw [hlife]
  apply Step.killed tame s.life p
  intro hunused
  rw [live_stage hlive] at hunused
  cases hunused

theorem Sys.step_sim {e : Nat × Act} (hinv : Family.Inv nproc s.life)
    (htame : tame = true → s.Aimed e) (hstep : s.step e = .ok s') :
    Step nproc tame s.life s'.life := by
  obtain ⟨p, act⟩ := e
  rw [Sys.step] at hstep
  by_cases hlive : s.kernel.live p
  · rw [if_pos hlive] at hstep
    dsimp only at hstep
    cases hphase : s.phase p with
    | idle =>
        rw [hphase] at hstep
        cases act with
        | fork =>
            obtain ⟨⟨r, k'⟩, hrun, hend⟩ := except_bind_ok hstep
            cases hend
            exact step_forked hlive hphase hrun
        | forkAdopt =>
            cases hstep
            exact Step.stay tame s.life
        | forkStart =>
            cases hstep
            exact Step.stay tame s.life
        | exit status =>
            obtain ⟨⟨_, k'⟩, hrun, hend⟩ := except_bind_ok hstep
            cases hend
            exact step_exited hlive hphase hrun
        | wait addr =>
            obtain ⟨⟨r, k'⟩, hrun, hend⟩ := except_bind_ok hstep
            cases hend
            exact step_waited hlive hrun
        | kill pid =>
            obtain ⟨⟨r, k'⟩, hrun, hend⟩ := except_bind_ok hstep
            cases hend
            exact step_killed hinv (fun ht => htame ht hlive hphase) hrun
        | setkilled =>
            obtain ⟨⟨_, k'⟩, hrun, hend⟩ := except_bind_ok hstep
            cases hend
            exact step_setkilled hlive hrun
    | copied np =>
        rw [hphase] at hstep
        cases act with
        | forkAdopt =>
            cases hstep
            have hlife : (s.adopted p np (s.kernel.setProc np fun nq =>
                { nq with parent := some p })).life = s.life.adopted p np := by
              simp only [Sys.adopted, Sys.life, Sys.setPhase, Life.adopted, Life.setPhase,
                table_setProc]
              rfl
            rw [hlife]
            exact Step.adopted tame s.life p np hphase
        | _ =>
            cases hstep
            exact Step.stay tame s.life
    | adopted np =>
        rw [hphase] at hstep
        cases act with
        | forkStart =>
            cases hstep
            have hlife : ({ s with kernel := s.kernel.setProc np fun nq =>
                { nq with state := .runnable } : Sys }.setPhase p .idle).life =
                s.life.started p np := by
              simp only [Sys.life, Sys.setPhase, Life.started, Life.setPhase, table_setProc]
              rfl
            rw [hlife]
            exact Step.started tame s.life p np hphase
        | _ =>
            cases hstep
            exact Step.stay tame s.life
  · rw [if_neg hlive] at hstep
    cases hstep
    exact Step.stay tame s.life

/-! ## Runs -/

def Sys.AimedRun : Sys → List (Nat × Act) → Prop
  | _, [] => True
  | s, e :: es => s.Aimed e ∧ ∀ s', s.step e = .ok s' → Sys.AimedRun s' es

theorem Sys.run_inv {es : List (Nat × Act)} (hinv : Family.Inv nproc s.life)
    (hrun : s.run es = .ok s') : Family.Inv nproc s'.life := by
  induction es generalizing s with
  | nil =>
      cases hrun
      exact hinv
  | cons e es ih =>
      rw [Sys.run, List.foldlM_cons] at hrun
      obtain ⟨s₁, hstep, hrest⟩ := except_bind_ok hrun
      have hsim : Step nproc false s.life s₁.life := Sys.step_sim hinv (by simp) hstep
      exact ih (hinv.step hsim) hrest

theorem Sys.run_unmarked {es : List (Nat × Act)} (hinv : Family.Inv nproc s.life)
    (hclear : Unmarked s.life) (haimed : s.AimedRun es) (hrun : s.run es = .ok s') :
    Unmarked s'.life := by
  induction es generalizing s with
  | nil =>
      cases hrun
      exact hclear
  | cons e es ih =>
      rw [Sys.run, List.foldlM_cons] at hrun
      obtain ⟨s₁, hstep, hrest⟩ := except_bind_ok hrun
      have hsim : Step nproc true s.life s₁.life :=
        Sys.step_sim hinv (fun _ => haimed.1) hstep
      exact ih (hinv.step hsim) (hclear.step hsim) (haimed.2 s₁ hstep) hrest

variable {k k' : Kernel} {root : Nat}

omit [Image] in
theorem Kernel.Fresh.entry (h : k.Fresh) (p : Nat) : k.table.entry p = {} := by
  simp [Kernel.table, h.procs p, Proc.entry, ProcState.stage]

theorem userinit_entry {a : Unit} (hfresh : k.Fresh) (h : userinit root k = .ok (a, k')) :
    ∃ i < nproc, k'.initproc = some i ∧ k'.nextpid = 2 ∧
      ∀ p, k'.table.entry p = if p = i then { stage := .alive, pid := 1 } else {} := by
  obtain ⟨i, hi, -, htable⟩ := userinit_table h
  refine ⟨i, hi, congrArg Table.init htable, ?_, ?_⟩
  · have hnext : k'.nextpid = k.nextpid + 1 := congrArg Table.nextpid htable
    rw [hnext, hfresh.nextpid]
  · intro p
    rw [htable]
    by_cases hp : p = i
    · have hnext : k.table.nextpid = 1 := hfresh.nextpid
      simp [Table.start, Table.take, hp, hfresh.entry, hnext]
    · simp [Table.start, Table.take, Table.set, hp, hfresh.entry]

theorem userinit_inv {a : Unit} (hfresh : k.Fresh) (h : userinit root k = .ok (a, k')) :
    Family.Inv nproc (Sys.life { kernel := k' }) ∧ Unmarked (Sys.life { kernel := k' }) := by
  obtain ⟨i, hi, hinit, hnext, hentry⟩ := userinit_entry hfresh h
  have hentry' : ∀ p, (Sys.life { kernel := k' }).table.entry p =
      if p = i then { stage := .alive, pid := 1 } else {} := hentry
  have hinit' : (Sys.life { kernel := k' }).table.init = some i := hinit
  have hnext' : (Sys.life { kernel := k' }).table.nextpid = 2 := hnext
  have hphase : ∀ p, ((Sys.life { kernel := k' }).phase p).child = none := fun _ => rfl
  constructor
  case left =>
      constructor
      case counted =>
          have hzero : (Sys.life { kernel := k' }).zombies nproc = 0 := by
            simp only [Life.zombies, List.countP_eq_zero]
            grind
          rw [hzero]
          rfl
      all_goals grind [Sys.life]
  case right =>
      intro p
      grind

/-- What holds of the processes in every state: their pids differ, each has a
parent that lives, every exit is reported at most once and to the parent, and
the zombies are the exits that are not reported yet. -/
structure Sys.LifeCycle (s : Sys) : Prop where
  distinct : ∀ p < nproc, ∀ q < nproc, p ≠ q → (s.kernel.proc p).state ≠ .unused →
    (s.kernel.proc q).state ≠ .unused → (s.kernel.proc p).pid ≠ (s.kernel.proc q).pid
  parents : ∀ p < nproc, (s.kernel.proc p).state ≠ .unused → s.kernel.initproc ≠ some p →
    (∀ q, (s.phase q).child ≠ some p) → ∃ q < nproc, (s.kernel.proc p).parent = some q ∧
      (s.kernel.proc q).state ≠ .unused ∧ (s.kernel.proc q).state ≠ .zombie
  exitsOnce : (s.exits.map Prod.fst).Nodup
  reapsOnce : (s.reaps.map Reap.pid).Nodup
  reaps : ∀ r ∈ s.reaps, (r.pid, r.status) ∈ s.exits ∧
    (s.creator r.pid = r.caller ∨ s.kernel.initproc = some r.slot)
  /-- the next report of `wait` -/
  reports : ∀ p addr pid k', s.kernel.live p →
    wait p addr s.kernel = .ok (some pid, k') → 0 ≤ pid →
    ∃ c < nproc, (s.kernel.proc c).parent = some p ∧ pid = (s.kernel.proc c).pid ∧
      ((s.kernel.proc c).pid, (s.kernel.proc c).xstate) ∈ s.exits ∧
      (s.kernel.proc c).pid ∉ s.reaps.map Reap.pid ∧
      ∃ u v, reportStatus (s.kernel.proc p).pagetable addr (s.kernel.proc c).xstate u =
        .ok (true, v)
  zombies : (sysCountZombies s.kernel : Int) = s.exits.length - s.reaps.length

omit [Image] in
theorem stage_eq_zombie {q : ProcState} : q.stage = .zombie ↔ q = .zombie := by
  cases q <;> simp [ProcState.stage]

omit [Image] in
theorem sysCountZombies_eq : sysCountZombies s.kernel = s.life.zombies nproc := by
  apply List.countP_congr
  intro p _
  simp [Sys.life, Kernel.table, Proc.entry, stage_eq_zombie]

omit [Image] in
theorem parent_alive (h : Family.Inv nproc s.life) (hstate : (s.kernel.proc p).state ≠ .unused)
    (hinit : s.kernel.initproc ≠ some p) (hdone : ∀ q, (s.phase q).child ≠ some p) :
    ∃ q < nproc, (s.kernel.proc p).parent = some q ∧
      (s.kernel.proc q).state ≠ .unused ∧ (s.kernel.proc q).state ≠ .zombie := by
  have hstage : (s.life.table.entry p).stage = .alive ∨
      (s.life.table.entry p).stage = .zombie := by
    cases hp : (s.life.table.entry p).stage with
    | unused => exact absurd (stage_eq_unused.mp hp) hstate
    | creating =>
        obtain ⟨q, hq⟩ := h.creating p hp
        exact absurd hq (hdone q)
    | alive => exact Or.inl rfl
    | zombie => exact Or.inr rfl
  obtain ⟨q, hq⟩ := Option.ne_none_iff_exists'.mp (h.raised p hstage hinit)
  have halive := h.parents p q hq
  refine ⟨q, h.bounded q (by simp [halive]), hq, ?_, ?_⟩
  · intro hunused
    rw [← stage_eq_unused] at hunused
    exact absurd (halive.symm.trans hunused) (by decide)
  · intro hzombie
    rw [← stage_eq_zombie] at hzombie
    exact absurd (halive.symm.trans hzombie) (by decide)

theorem bootRun_ok {es : List (Nat × Act)} (h : bootRun k root es = .ok s) :
    ∃ k', userinit root k = .ok ((), k') ∧ Sys.run { kernel := k' } es = .ok s := by
  obtain ⟨⟨_, k'⟩, hinit, hrun⟩ := except_bind_ok h
  exact ⟨k', hinit, hrun⟩

theorem bootRun_inv {es : List (Nat × Act)} (hfresh : k.Fresh)
    (hrun : bootRun k root es = .ok s) : Family.Inv nproc s.life := by
  obtain ⟨k', hinit, hsteps⟩ := bootRun_ok hrun
  exact Sys.run_inv (userinit_inv hfresh hinit).1 hsteps

theorem life_cycle {es : List (Nat × Act)} (hfresh : k.Fresh)
    (hrun : bootRun k root es = .ok s) : s.LifeCycle := by
  have h := bootRun_inv hfresh hrun
  constructor
  case distinct =>
      intro p _ q _ hne hp _ hpid
      exact hne (h.distinct p q (fun hu => hp (stage_eq_unused.mp hu)) hpid)
  case parents => exact fun p _ hstate hinit hdone => parent_alive h hstate hinit hdone
  case exitsOnce => exact h.exitedOnce
  case reapsOnce => exact h.reapedOnce
  case reaps => exact fun r hr => ⟨h.reapedExit r hr, h.reapedBy r hr⟩
  case reports =>
      intro p addr pid k' hlive hwait hpid
      cases wait_waited hlive hwait with
      | inl hreaped =>
          obtain ⟨c, hzombie, hr, -, hreport⟩ := hreaped
          obtain ⟨hc, hparent, hstate⟩ := zombieChild_some hzombie
          obtain ⟨hexit, hunreaped⟩ := h.zombie c (stage_eq_zombie.mpr hstate)
          exact ⟨c, hc, hparent, Option.some.inj hr, hexit, hunreaped, hreport⟩
      | inr hsame =>
          exfalso
          cases hsame.1 with
          | inl hnone => cases hnone
          | inr hminus =>
              cases hminus
              exact absurd hpid (by decide)
  case zombies =>
      have hcount : s.life.zombies nproc + s.reaps.length = s.exits.length := h.counted
      rw [sysCountZombies_eq]
      omega

end

attribute [local instance] builtImage in
/-- The first child exits with status 7, and `init` waits for it. -/
theorem life_cycle_of_first_child : ∃ s, bootRun builtKernel 0
      [(0, .fork), (0, .forkAdopt), (0, .forkStart), (1, .exit 7), (0, .wait 0)] = .ok s ∧
    s.exits = [(2, 7)] ∧ s.reaps.map Reap.pid = [2] ∧ s.LifeCycle := by
  have hvalues : (do
      let s ← bootRun builtKernel 0
        [(0, .fork), (0, .forkAdopt), (0, .forkStart), (1, .exit 7), (0, .wait 0)]
      pure (s.exits, s.reaps.map Reap.pid)) = Except.ok ([(2, 7)], [2]) := by
    decide +kernel
  obtain ⟨s, hrun, hvalues⟩ := except_bind_ok hvalues
  injection hvalues with hvalues
  injection hvalues with hexits hreaps
  exact ⟨s, hrun, hexits, hreaps, life_cycle ⟨fun _ => rfl, rfl⟩ hrun⟩

end SyscallSched.Xv6

/-!
## What `kill` reaches

`kill` looks for the pid alone.  An unused slot has the pid 0, and keeps the
mark that `kill(0)` leaves in it until a process is created there.
-/

namespace SyscallSched.Xv6

open SyscallSched.Foundation
open Family

section

variable [Image] {k k' : Kernel} {s : Sys} {p root : Nat} {pid : Int}

def Kernel.OnlySlot (k k' : Kernel) (p : Nat) : Prop := k' = k.setProc p fun _ => k'.proc p

/-- `kill` returns 0 and changes the slot of the process with that pid, or there
is no such process, and it returns -1 and changes nothing. -/
def KillsExactly (k : Kernel) (pid : Int) : Prop :=
  (∃ p < nproc, (k.proc p).state ≠ .unused ∧ ((k.proc p).pid : Int) = pid ∧
      ∃ k', kill pid k = .ok (0, k') ∧ k.OnlySlot k' p) ∨
    ((∀ p < nproc, (k.proc p).state ≠ .unused → ((k.proc p).pid : Int) ≠ pid) ∧
      kill pid k = .ok (-1, k))

omit [Image] in
theorem onlySlot_setProc (f : Proc → Proc) : k.OnlySlot (k.setProc p f) p := by
  simp only [Kernel.OnlySlot, Kernel.setProc, Kernel.mapProc, if_true]
  congr 1
  funext q
  by_cases hq : q = p <;> simp [hq]

omit [Image] in
theorem withPid_none (h : k.withPid pid = none) : ∀ p < nproc, ((k.proc p).pid : Int) ≠ pid := by
  intro p hp
  have hnot := List.find?_eq_none.mp h p (List.mem_range.mpr hp)
  simpa using hnot

omit [Image] in
theorem killsExactly_iff (h : Family.Inv nproc s.life) : KillsExactly s.kernel pid ↔
    pid ≠ 0 ∨ ∀ q < nproc, (s.kernel.proc q).state ≠ .unused := by
  have hunused : ∀ q, (s.kernel.proc q).state = .unused → (s.kernel.proc q).pid = 0 :=
    fun q hq => (h.cleared q (stage_eq_unused.mpr hq)).1
  have hused : ∀ q, (s.kernel.proc q).state ≠ .unused → 0 < (s.kernel.proc q).pid :=
    fun q hq => (h.numbered q fun hs => hq (stage_eq_unused.mp hs)).1
  rw [KillsExactly, kill_run]
  cases hfound : s.kernel.withPid pid with
  | none =>
      have hnone := withPid_none hfound
      constructor
      · intro _
        by_cases hpid : pid = 0
        · right
          intro q hq hstate
          apply hnone q hq
          rw [hunused q hstate, hpid]
          rfl
        · exact Or.inl hpid
      · intro _
        exact Or.inr ⟨fun q hq _ => hnone q hq, rfl⟩
  | some c =>
      obtain ⟨hc, hcpid⟩ := withPid_some hfound
      constructor
      · intro hexact
        by_cases hpid : pid = 0
        · exfalso
          cases hexact with
          | inl hhit =>
              obtain ⟨q, -, hstate, hqpid, -⟩ := hhit
              have hpos := hused q hstate
              omega
          | inr hmiss =>
              have hreturn := hmiss.2
              injection hreturn with hpair
              injection hpair with hzero _
              exact absurd hzero (by decide)
        · exact Or.inl hpid
      · intro hcond
        have hstate : (s.kernel.proc c).state ≠ .unused := by
          intro hstate
          cases hcond with
          | inl hpid =>
              apply hpid
              rw [← hcpid, hunused c hstate]
              rfl
          | inr hfull => exact hfull c hc hstate
        exact Or.inl ⟨c, hc, hstate, hcpid, _, rfl, onlySlot_setProc Proc.strike⟩

/-- In every state of a run, `kill` is exact unless it is `kill(0)` with a slot
unused.  Where no step was such a `kill`, no unused slot is marked, and neither
is the process that a `fork` creates next. -/
theorem kill_exact_of_aimed {es : List (Nat × Act)} {k₁ : Kernel} (hfresh : k.Fresh)
    (hinit : userinit root k = .ok ((), k₁)) (hrun : Sys.run { kernel := k₁ } es = .ok s) :
    (∀ pid : Int, KillsExactly s.kernel pid ↔
      pid ≠ 0 ∨ ∀ q < nproc, (s.kernel.proc q).state ≠ .unused) ∧
    (Sys.AimedRun { kernel := k₁ } es →
      (∀ q < nproc, (s.kernel.proc q).state = .unused → (s.kernel.proc q).killed = false) ∧
      ∀ p np k', forkCopy p s.kernel = .ok (some np, k') → (k'.proc np).killed = false) := by
  have hinv := Sys.run_inv (userinit_inv hfresh hinit).1 hrun
  refine ⟨fun pid => killsExactly_iff hinv, ?_⟩
  intro haimed
  have hclear := Sys.run_unmarked (userinit_inv hfresh hinit).1 (userinit_inv hfresh hinit).2
    haimed hrun
  have hunmarked : ∀ q, (s.kernel.proc q).state = .unused → (s.kernel.proc q).killed = false :=
    fun q hq => hclear q (stage_eq_unused.mpr hq)
  refine ⟨fun q _ => hunmarked q, ?_⟩
  intro p np k' hfork
  obtain ⟨-, hstate, htable⟩ := forkCopy_taken hfork
  have hentry : (k'.proc np).entry = (s.kernel.table.take np).entry np :=
    congrArg (fun t : Table => t.entry np) htable
  have hkilled : (k'.proc np).killed = ((s.kernel.table.take np).entry np).killed :=
    congrArg Entry.killed hentry
  rw [hkilled, ← hunmarked np hstate]
  simp [Table.take, Kernel.table, Proc.entry]

end

attribute [local instance] builtImage in
theorem kill_exact_after_kill_one : ∃ k₁ s, userinit 0 builtKernel = .ok ((), k₁) ∧
    Sys.run { kernel := k₁ } [(0, .kill 1)] = .ok s ∧ (s.kernel.proc 0).killed = true ∧
    (∀ pid : Int, pid ≠ 0 → KillsExactly s.kernel pid) ∧
    ∀ q < nproc, (s.kernel.proc q).state = .unused → (s.kernel.proc q).killed = false := by
  have hvalues : (do
      let r ← userinit 0 builtKernel
      let s ← Sys.run { kernel := r.2 } [(0, .kill 1)]
      pure (s.kernel.proc 0).killed) = Except.ok true := by
    decide +kernel
  obtain ⟨⟨_, k₁⟩, hinit, hvalues⟩ := except_bind_ok hvalues
  obtain ⟨s, hrun, hvalues⟩ := except_bind_ok hvalues
  injection hvalues with hkilled
  have hexact := kill_exact_of_aimed ⟨fun _ => rfl, rfl⟩ hinit hrun
  have haimed : Sys.AimedRun { kernel := k₁ } [(0, .kill 1)] :=
    ⟨fun _ _ => Or.inl (by decide), fun _ _ => trivial⟩
  exact ⟨k₁, s, hinit, hrun, hkilled, fun pid hpid => (hexact.1 pid).mpr (Or.inl hpid),
    (hexact.2 haimed).1⟩

attribute [local instance] builtImage in
/-- `init` calls `kill(0)` right after the boot, and then `fork`. -/
theorem kill_zero_marks_child : ∃ s₀ s, bootRun builtKernel 0 [] = .ok s₀ ∧
    ¬ KillsExactly s₀.kernel 0 ∧
    bootRun builtKernel 0 [(0, .kill 0), (0, .fork), (0, .forkAdopt), (0, .forkStart)] = .ok s ∧
    (s.kernel.proc 1).pid = 2 ∧ (s.kernel.proc 1).killed = true := by
  have hvalues : (do
      let s₀ ← bootRun builtKernel 0 []
      let s ← bootRun builtKernel 0
        [(0, .kill 0), (0, .fork), (0, .forkAdopt), (0, .forkStart)]
      pure ((s₀.kernel.proc 1).state, (s.kernel.proc 1).pid, (s.kernel.proc 1).killed)) =
      Except.ok (.unused, 2, true) := by
    decide +kernel
  obtain ⟨s₀, hstart, hvalues⟩ := except_bind_ok hvalues
  obtain ⟨s, hrun, hvalues⟩ := except_bind_ok hvalues
  injection hvalues with hvalues
  injection hvalues with hstate hvalues
  injection hvalues with hpid hkilled
  refine ⟨s₀, s, hstart, ?_, hrun, hpid, hkilled⟩
  rw [killsExactly_iff (bootRun_inv ⟨fun _ => rfl, rfl⟩ hstart)]
  rintro (hzero | hfull)
  · exact hzero rfl
  · exact hfull 1 (by decide) hstate

end SyscallSched.Xv6
