import SyscallSched.Xv6.Lock.Erase
import SyscallSched.Xv6.Safety

/-!
# Lock balance over runs

The calls of processes on any CPU, in any order.  Between two calls no CPU holds
a lock, as long as no `sfork` succeeds: `sfork` returns with the lock of the
child held.
-/

namespace SyscallSched.Xv6.Lock

open SyscallSched.Foundation

/-- The calls, and with them `exec` and `exit`, whose locks are not modelled. -/
inductive Request where
  | fork
  | sfork
  | wait (woken : Bool) (addr : Nat)
  | kill (pid : Int)
  | growproc (n : Int)
  | setkilled (q : Nat)
  | killed (q : Nat)
  | exec (path : List Nat) (found : Option (Nat × List Nat)) (argv : List (List Nat))
  | exit (status : Int)

section

variable [Image]

def Request.plain (p : Nat) : Request → KernelM Unit
  | .fork => do let _ ← Xv6.fork p
  | .sfork => do let _ ← Xv6.sfork p
  | .wait _ addr => do let _ ← Xv6.wait p addr
  | .kill pid => do let _ ← Xv6.kill pid
  | .growproc n => do let _ ← Xv6.growproc p n
  | .setkilled q => Xv6.setkilled q
  | .killed q => do let _ ← Xv6.killed q
  | .exec path found argv => do let _ ← Xv6.exec p path found argv
  | .exit status => Xv6.exit p status

def Request.locked (p : Nat) : Request → LockM Unit
  | .fork => do let _ ← Lock.fork p
  | .sfork => do let _ ← Lock.sfork p
  | .wait woken addr => do let _ ← Lock.wait woken p addr
  | .kill pid => do let _ ← Lock.kill pid
  | .growproc n => do let _ ← Lock.growproc p n
  | .setkilled q => Lock.setkilled q
  | .killed q => do let _ ← Lock.killed q
  | .exec path found argv => inKernel do let _ ← Xv6.exec p path found argv
  | .exit status => inKernel (Xv6.exit p status)

structure Cpu.Idle (c : Cpu) : Prop where
  noff : c.noff = 0
  held : ∀ l, c.held l = false

/-- The call returns with the locks and the depth of entry, and a `yield` after
it comes through `sched`. -/
def ReturnsBalanced (k : Kernel) (c : Cpu) (p : Nat) (r : Request) : Prop :=
  ∃ k' c', r.locked p ⟨k, c⟩ = .ok ((), ⟨k', c'⟩) ∧
    c'.noff = c.noff ∧ c'.held = c.held ∧ c'.intr = c.intr ∧
    ∃ m', yield p ⟨k', c'⟩ = .ok ((), m')

/-- The call is an `sfork` that finds a slot and four free pages. -/
def Shares (k : Kernel) (r : Request) : Prop := r = .sfork ∧ k.canAlloc

section

variable {k k' : Kernel} {c c' : Cpu} {p q : Nat} {r : Request} {pool : Multiset Nat}

omit [Image] in
theorem Cpu.Idle.ready (h : c.Idle) : Ready c [] := by
  refine ⟨?_, fun l _ => h.held l⟩
  intro hpos
  rw [h.noff] at hpos
  exact absurd hpos (Nat.lt_irrefl 0)

omit [Image] in
theorem Cpu.Idle.congr (h : c.Idle) (hc : c'.marked = c.marked) : c'.Idle :=
  ⟨(noff_congr hc).trans h.noff, fun l => by rw [held_congr hc]; exact h.held l⟩

theorem kill_inv {pid : Int} (h : Inv pool k) :
    Total (Xv6.kill pid) k fun _ k' => Inv pool k' := by
  have hkeep : ∀ p i, Keeps (k.proc i) ((k.setProc p Proc.strike).proc i) := by
    intro p i
    by_cases hi : i = p
    · subst hi
      by_cases hs : (k.proc i).state = .sleeping <;>
        constructor <;> simp [Kernel.setProc, Kernel.mapProc, Proc.strike, hs]
    · simp only [Kernel.setProc, Kernel.mapProc, if_neg hi]
      exact Keeps.refl _
  cases hfound : k.withPid pid with
  | none =>
      apply Total.of_eq (a := -1) (t := k)
      · rw [kill_run, hfound]
      · exact h
  | some p =>
      apply Total.of_eq (a := 0) (t := k.setProc p Proc.strike)
      · rw [kill_run, hfound]
      · exact h.keep_mem (hkeep p) rfl

theorem setkilled_inv (h : Inv pool k) :
    Total (Xv6.setkilled q) k fun _ k' => Inv pool k' := by
  apply Total.of_eq (a := ()) rfl
  refine h.keep_mem ?_ rfl
  intro i
  by_cases hi : i = q
  · subst hi
    constructor <;> simp [Kernel.setProc, Kernel.mapProc]
  · simp only [Kernel.setProc, Kernel.mapProc, if_neg hi]
    exact Keeps.refl _

/-- Without locks, a call that shares nothing returns. -/
theorem plain_inv (h : Inv pool k) (hl : k.live p) (hno : ¬ Shares k r)
    (hinit : ∀ status, r = .exit status → k.initproc ≠ some p) :
    Total (r.plain p) k fun _ k' => Inv pool k' := by
  cases r with
  | fork => exact Total.discard (fork_inv h hl)
  | sfork => exact Total.discard (sfork_refused_inv h fun hcan => hno ⟨rfl, hcan⟩)
  | wait woken addr => exact Total.discard (wait_inv h hl)
  | kill pid => exact Total.discard (kill_inv h)
  | growproc n => exact Total.discard (growproc_inv h hl n)
  | setkilled q => exact setkilled_inv h
  | killed q => exact Total.of_eq (a := ()) (t := k) rfl h
  | exec path found argv => exact Total.discard (exec_inv h hl)
  | exit status => exact exit_inv h hl (hinit status rfl)

/-- `allocproc` finds a slot exactly when there are one and four free pages. -/
theorem allocproc_found {found : Option Nat} (h : Inv pool k)
    (hrun : Xv6.allocproc k = .ok (found, k')) : found.isSome ↔ k.canAlloc := by
  obtain ⟨found', k₁, hrun', hspec⟩ := allocproc_spec h
  rw [hrun] at hrun'
  cases hrun'
  cases found with
  | none => simp [hspec.2]
  | some np => simp [hspec.2]

omit [Image] in
theorem Balanced.discard {α : Type} {F : LockM α} {f : KernelM α} {held : List Name}
    (h : Balanced F f k held) :
    Balanced (F >>= fun _ => pure ()) (f >>= fun _ => pure ()) k held :=
  h.bind fun _ _ _ => Balanced.of_pure ()

theorem erases_request (h : Inv pool k) (hc : c.Idle) (hno : ¬ Shares k r) :
    Erases (r.locked p) (r.plain p) k c fun _ => c := by
  have hready := hc.ready
  have hnone : ∀ l : Name, l ∉ ([] : List Name) := fun l => List.not_mem_nil
  cases r with
  | fork =>
      have hlocks : Forkable [] := by simp [Forkable]
      exact (balanced_fork hlocks).discard c hready
  | sfork =>
      intro _ k' hrun
      obtain ⟨pid, k₁, hsfork, hend⟩ := bind_ok hrun
      cases hend
      obtain ⟨found, k₂, c', halloc, hlocked, hc'⟩ :=
        sfork_run hready (fun _ => hnone _) (hnone _) (hnone _) hsfork
      have hfail : found = none := by
        cases found with
        | none => rfl
        | some np => exact absurd ⟨rfl, (allocproc_found h halloc).mp rfl⟩ hno
      rw [hfail] at hc'
      refine ⟨c', ?_, hc'⟩
      rw [Request.locked, Total.run_bind hlocked]
      rfl
  | wait woken addr =>
      apply (erases_wait hready (fun _ => hnone _) (hnone _) (hnone _) hc.noff).bind
      intro _ k₁ c₁ _ hc₁
      exact Erases.of_pure hc₁
  | kill pid => exact (balanced_kill fun _ => hnone _).discard c hready
  | growproc n => exact (balanced_growproc (hnone _)).discard c hready
  | setkilled q => exact balanced_setkilled (hnone _) c hready
  | killed q => exact (balanced_killed (hnone _)).discard c hready
  | exec path found argv => exact Erases.of_kernel _
  | exit status => exact Erases.of_kernel _

theorem returnsBalanced_of_not_shares (h : Inv pool k) (hl : k.live p) (hc : c.Idle)
    (hno : ¬ Shares k r) (hinit : ∀ status, r = .exit status → k.initproc ≠ some p) :
    ReturnsBalanced k c p r := by
  obtain ⟨_, k', hrun, -⟩ := plain_inv h hl hno hinit
  obtain ⟨c', hlocked, hc'⟩ := erases_request h hc hno () k' hrun
  have hready := (hc.congr hc').ready
  refine ⟨k', c', hlocked, noff_congr hc', held_congr hc', intr_congr hc', _,
    yield_run hready List.not_mem_nil (hc.congr hc').noff⟩

theorem not_returnsBalanced_of_shares (h : Inv pool k) (hl : k.live p) (hc : c.Idle)
    (hshares : Shares k r) : ¬ ReturnsBalanced k c p r := by
  obtain ⟨rfl, hcan⟩ := hshares
  rintro ⟨k', c', hlocked, hnoff, -⟩
  obtain ⟨pid, k₁, hsfork, -⟩ := sfork_allocated h hl hcan
  obtain ⟨found, k₂, c₁, halloc, hrun, hc₁⟩ :=
    sfork_run hc.ready (fun _ => List.not_mem_nil) List.not_mem_nil List.not_mem_nil hsfork
  obtain ⟨np, rfl⟩ := Option.isSome_iff_exists.mp ((allocproc_found h halloc).mpr hcan)
  rw [Request.locked, Total.run_bind hrun] at hlocked
  cases hlocked
  have hmore : c'.noff = c.noff + 1 := noff_congr hc₁
  omega

theorem returnsBalanced_iff (h : Inv pool k) (hl : k.live p) (hc : c.Idle)
    (hinit : ∀ status, r = .exit status → k.initproc ≠ some p) :
    ReturnsBalanced k c p r ↔ ¬ Shares k r :=
  ⟨fun hret hshares => not_returnsBalanced_of_shares h hl hc hshares hret,
    fun hno => returnsBalanced_of_not_shares h hl hc hno hinit⟩

end

/-! ## Runs -/

structure Smp where
  kernel : Kernel
  cpu : Nat → Cpu := fun _ => {}

/-- The process `e.2.1` makes the call `e.2.2` on the CPU `e.1`. -/
def Smp.step (m : Smp) (e : Nat × Nat × Request) : Except LockPanic Smp :=
  if m.kernel.live e.2.1 then
    match e.2.2.locked e.2.1 ⟨m.kernel, m.cpu e.1⟩ with
    | .error panic => .error panic
    | .ok (_, m') => .ok { kernel := m'.kernel, cpu := Function.update m.cpu e.1 m'.cpu }
  else
    .ok m

def Smp.run (m : Smp) (es : List (Nat × Nat × Request)) : Except LockPanic Smp :=
  es.foldlM Smp.step m

/-- No call of the run is an `sfork` that succeeds. -/
def Smp.NeverShares : Smp → List (Nat × Nat × Request) → Prop
  | _, [] => True
  | m, e :: es => (m.kernel.live e.2.1 → ¬ Shares m.kernel e.2.2) ∧
      ∀ m', m.step e = .ok m' → Smp.NeverShares m' es

section

variable {m m' : Smp} {pool : Multiset Nat}

/-- A step that shares nothing returns, unless `init` exits. -/
theorem Smp.step_idle {e : Nat × Nat × Request} (h : Inv pool m.kernel)
    (hcpu : ∀ i, (m.cpu i).Idle) (hno : m.kernel.live e.2.1 → ¬ Shares m.kernel e.2.2) :
    m.step e = .error (.kernel .initExiting) ∨
      ∃ m', m.step e = .ok m' ∧ Inv pool m'.kernel ∧ ∀ i, (m'.cpu i).Idle := by
  obtain ⟨i, p, r⟩ := e
  rw [Smp.step]
  by_cases hl : m.kernel.live p
  · rw [if_pos hl]
    by_cases hexit : ∃ status, r = .exit status ∧ m.kernel.initproc = some p
    · left
      obtain ⟨status, rfl, hinit⟩ := hexit
      have hpanic : Xv6.exit p status m.kernel = .error .initExiting := by
        rw [Xv6.exit, Total.run_bind (a := m.kernel) (t := m.kernel) rfl, if_pos hinit]
        rfl
      simp [Request.locked, inKernel, hpanic]
    · right
      obtain ⟨_, k', hrun, hinv⟩ := plain_inv h hl (hno hl) fun status hr hinit =>
        hexit ⟨status, hr, hinit⟩
      obtain ⟨c', hlocked, hc'⟩ := erases_request h (hcpu i) (hno hl) () k' hrun
      simp only [hlocked]
      refine ⟨_, rfl, hinv, ?_⟩
      intro j
      by_cases hj : j = i
      · simp only [hj, Function.update_self]
        exact (hcpu i).congr hc'
      · simp only [Function.update_of_ne hj]
        exact hcpu j
  · rw [if_neg hl]
    exact Or.inr ⟨m, rfl, h, hcpu⟩

theorem Smp.run_idle {es : List (Nat × Nat × Request)} (h : Inv pool m.kernel)
    (hcpu : ∀ i, (m.cpu i).Idle) (hno : m.NeverShares es) :
    m.run es = .error (.kernel .initExiting) ∨
      ∃ m', m.run es = .ok m' ∧ Inv pool m'.kernel ∧ ∀ i, (m'.cpu i).Idle := by
  induction es generalizing m with
  | nil => exact Or.inr ⟨m, rfl, h, hcpu⟩
  | cons e es ih =>
      rw [Smp.run, List.foldlM_cons]
      cases Smp.step_idle h hcpu hno.1 with
      | inl hpanic =>
          rw [hpanic]
          exact Or.inl rfl
      | inr hok =>
          obtain ⟨m₁, hstep, hinv, hidle⟩ := hok
          rw [hstep]
          exact ih hinv hidle (hno.2 m₁ hstep)

/-- The calls whose locks are modelled. -/
def Request.Locking : Request → Prop
  | .exec _ _ _ | .exit _ => False
  | _ => True

/-- In a run in which no `sfork` succeeds, no lock operation and no `sched`
panics, no CPU holds a lock between calls, and the next call returns balanced
unless it is an `sfork` that succeeds. -/
theorem returnsBalanced_iff_not_shares (b : Boot) {k₀ : Kernel}
    {es : List (Nat × Nat × Request)} (hboot : userinit b.root b.kernel = .ok ((), k₀))
    (hno : Smp.NeverShares { kernel := k₀ } es) :
    Smp.run { kernel := k₀ } es = .error (.kernel .initExiting) ∨
      ∃ m, Smp.run { kernel := k₀ } es = .ok m ∧ (∀ i, (m.cpu i).Idle) ∧
        ∀ i p r, m.kernel.live p → r.Locking →
          (ReturnsBalanced m.kernel (m.cpu i) p r ↔ ¬ Shares m.kernel r) := by
  obtain ⟨_, k₁, hrun, hinv, -⟩ := userinit_spec b
  rw [hboot] at hrun
  cases hrun
  have hidle : ∀ i, ((fun _ => {} : Nat → Cpu) i).Idle := fun _ => ⟨rfl, fun _ => rfl⟩
  cases Smp.run_idle (m := { kernel := k₀ }) hinv hidle hno with
  | inl hpanic => exact Or.inl hpanic
  | inr hok =>
      obtain ⟨m, hrun, hinv', hcpu⟩ := hok
      refine Or.inr ⟨m, hrun, hcpu, ?_⟩
      intro i p r hl hlocking
      apply returnsBalanced_iff hinv' hl (hcpu i)
      rintro status rfl
      exact absurd hlocking id

end

end

attribute [local instance] builtImage in
theorem first_fork_returns_balanced : ∃ k₀ m, userinit 0 builtKernel = .ok ((), k₀) ∧
    Smp.run { kernel := k₀ } [(3, 0, .fork)] = .ok m ∧ (m.cpu 3).Idle ∧
    ReturnsBalanced m.kernel (m.cpu 3) 0 (.kill 2) := by
  have hvalues : ((userinit 0 builtKernel).toOption.bind fun r =>
      (Smp.run { kernel := r.2 } [(3, 0, .fork)]).toOption.map fun m =>
        decide (m.kernel.live 0)) = some true := by
    decide +kernel
  cases hboot : userinit 0 builtKernel with
  | error e => simp [hboot, Except.toOption] at hvalues
  | ok start =>
      obtain ⟨_, k₀⟩ := start
      simp only [hboot, Except.toOption, Option.bind_some] at hvalues
      have hno : Smp.NeverShares { kernel := k₀ } [(3, 0, .fork)] := by
        refine ⟨?_, fun _ _ => trivial⟩
        rintro - ⟨hsfork, -⟩
        cases hsfork
      cases returnsBalanced_iff_not_shares builtBoot hboot hno with
      | inl hpanic => simp [hpanic] at hvalues
      | inr hok =>
          obtain ⟨m, hrun, hidle, hcalls⟩ := hok
          simp only [hrun, Option.map_some, Option.some.injEq, decide_eq_true_eq] at hvalues
          refine ⟨k₀, m, rfl, hrun, hidle 3, (hcalls 3 0 (.kill 2) hvalues trivial).mpr ?_⟩
          rintro ⟨hsfork, -⟩
          cases hsfork

attribute [local instance] builtImage in
/-- Right after the boot, `init` calls `sfork` and then yields. -/
theorem first_sfork_keeps_lock : ∃ k₀ m', userinit 0 builtKernel = .ok ((), k₀) ∧
    Lock.sfork 0 ⟨k₀, {}⟩ = .ok (2, m') ∧ m'.cpu.noff = 1 ∧ m'.cpu.held (.proc 1) = true ∧
    yield 0 m' = .error .schedLocks ∧ ¬ ReturnsBalanced k₀ {} 0 .sfork := by
  have hvalues : ((userinit 0 builtKernel).toOption.bind fun r =>
      (Lock.sfork 0 ⟨r.2, {}⟩).toOption.map fun s =>
        (s.1, s.2.cpu.noff, s.2.cpu.held (.proc 1), s.2.cpu.held (.proc 0), s.2.cpu.intr)) =
      some (2, 1, true, false, false) := by
    decide +kernel
  cases hboot : userinit 0 builtKernel with
  | error e => simp [hboot, Except.toOption] at hvalues
  | ok start =>
      obtain ⟨_, k₀⟩ := start
      simp only [hboot, Except.toOption, Option.bind_some] at hvalues
      cases hsfork : Lock.sfork 0 ⟨k₀, {}⟩ with
      | error e => simp [hsfork] at hvalues
      | ok result =>
          obtain ⟨pid, m'⟩ := result
          simp only [hsfork, Option.map_some, Option.some.injEq, Prod.mk.injEq] at hvalues
          obtain ⟨rfl, hnoff, hchild, hself, hintr⟩ := hvalues
          refine ⟨k₀, m', rfl, hsfork, hnoff, hchild, ?_, ?_⟩
          · exact yield_panics (fun _ => hintr) hself (by omega)
          · rintro ⟨k', c', hlocked, hsame, -⟩
            rw [Request.locked, Total.run_bind hsfork] at hlocked
            cases hlocked
            exact absurd (hnoff.symm.trans hsame) (by decide)

end SyscallSched.Xv6.Lock
