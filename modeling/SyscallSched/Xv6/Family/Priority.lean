import SyscallSched.Xv6.Family.Cycle

/-!
# What `setpriority` reaches

`sys_setpriority` looks for the pid alone, as `kill` does, so the pid 0 finds an unused slot.
No other function mentions `priority`: a process starts with the value that the last store
into its slot has left, whoever it was meant for.
-/

namespace SyscallSched.Xv6

open SyscallSched.Foundation
open Family

/-- The system beside the member `priority` of every slot. -/
structure Prioritized where
  sys : Sys
  priority : Nat → Int := fun _ => 0
  /-- every store `p->priority = priority`: the slot and the value, oldest first -/
  stores : List (Nat × Int) := []

def sysSetpriority (pid priority : Int) (s : Prioritized) : Int × Prioritized :=
  if pid < 0 ∨ priority < 0 then (-1, s)
  else
    match (List.range nproc).find? fun p => ((s.sys.kernel.proc p).pid : Int) = pid with
    | some p =>
        (0, { s with
          priority := Function.update s.priority p priority
          stores := s.stores ++ [(p, priority)] })
    | none => (-1, s)

inductive PriorityAct where
  | call (a : Act)
  | sfork
  | setpriority (pid priority : Int)

def PriorityAct.sets : PriorityAct → Bool
  | .setpriority _ _ => true
  | .call _ | .sfork => false

def lastStore (stores : List (Nat × Int)) (p : Nat) : Option Int :=
  ((stores.filter fun w => w.1 = p).getLast?).map Prod.snd

def withoutSets (es : List (Nat × PriorityAct)) : List (Nat × PriorityAct) :=
  es.filter fun e => !e.2.sets

section

variable [Image]

/-- `sfork` by the process `p`, which becomes the creator of the new pid. -/
def Sys.shared (s : Sys) (p : Nat) : Except Panic Sys := do
  let (pid, kernel) ← sfork p s.kernel
  pure { s with
    kernel
    creator := fun c => if (c : Int) = pid then (s.kernel.proc p).pid else s.creator c }

def Prioritized.act (s : Prioritized) (p : Nat) : PriorityAct → Except Panic Prioritized
  | .call a => do
      let sys ← s.sys.step (p, a)
      pure { s with sys }
  | .sfork =>
      if s.sys.kernel.live p ∧ s.sys.phase p = .idle then do
        let sys ← s.sys.shared p
        pure { s with sys }
      else pure s
  | .setpriority pid priority =>
      if s.sys.kernel.live p ∧ s.sys.phase p = .idle then
        pure (sysSetpriority pid priority s).2
      else pure s

def Prioritized.run (s : Prioritized) (es : List (Nat × PriorityAct)) :
    Except Panic Prioritized :=
  es.foldlM (fun s e => s.act e.1 e.2) s

structure Prioritized.Forks (s s' : Prioritized) (p np : Nat) : Prop where
  step : s.act p (.call .fork) = .ok s'
  idle : s.sys.phase p = .idle
  copied : s'.sys.phase p = .copied np

end

/-- `setpriority` returns 0 and changes the priority of the slot of the process with that
pid, or an argument is negative or there is no such process, and it returns -1 and changes
nothing. -/
def SetsExactly (s : Prioritized) (pid priority : Int) : Prop :=
  (∃ p < nproc, (s.sys.kernel.proc p).state ≠ .unused ∧ ((s.sys.kernel.proc p).pid : Int) = pid ∧
      0 ≤ pid ∧ 0 ≤ priority ∧ ∃ s', sysSetpriority pid priority s = (0, s') ∧ s'.sys = s.sys ∧
        s'.priority = Function.update s.priority p priority) ∨
    ((pid < 0 ∨ priority < 0 ∨ ∀ p < nproc, (s.sys.kernel.proc p).state ≠ .unused →
      ((s.sys.kernel.proc p).pid : Int) ≠ pid) ∧ sysSetpriority pid priority s = (-1, s))

/-! ## One call -/

section

variable {s s' : Prioritized} {p : Nat} {pid priority : Int}

theorem sysSetpriority_run (s : Prioritized) (hpid : 0 ≤ pid) (hpriority : 0 ≤ priority) :
    sysSetpriority pid priority s = match s.sys.kernel.withPid pid with
      | some p => (0, { s with
          priority := Function.update s.priority p priority
          stores := s.stores ++ [(p, priority)] })
      | none => (-1, s) := by
  rw [sysSetpriority, if_neg (by omega)]
  rfl

theorem sysSetpriority_sys (pid priority : Int) (s : Prioritized) :
    (sysSetpriority pid priority s).2.sys = s.sys := by
  rw [sysSetpriority]
  split
  · rfl
  · split <;> rfl

theorem setsExactly_iff (h : Family.Inv nproc s.sys.life) : SetsExactly s pid priority ↔
    ¬ (pid = 0 ∧ 0 ≤ priority ∧ ∃ q < nproc, (s.sys.kernel.proc q).state = .unused) := by
  have hunused : ∀ q, (s.sys.kernel.proc q).state = .unused → (s.sys.kernel.proc q).pid = 0 :=
    fun q hq => (h.cleared q (stage_eq_unused.mpr hq)).1
  have hused : ∀ q, (s.sys.kernel.proc q).state ≠ .unused → 0 < (s.sys.kernel.proc q).pid :=
    fun q hq => (h.numbered q fun hs => hq (stage_eq_unused.mp hs)).1
  cases hnegative : decide (pid < 0 ∨ priority < 0) with
  | true =>
      have hneg := of_decide_eq_true hnegative
      have hreturn : sysSetpriority pid priority s = (-1, s) := by
        rw [sysSetpriority, if_pos hneg]
      have hexact : SetsExactly s pid priority := by
        refine .inr ⟨?_, hreturn⟩
        exact hneg.imp id .inl
      refine iff_of_true hexact ?_
      rintro ⟨hzero, hpriority, _⟩
      omega
  | false =>
      have hneg := of_decide_eq_false hnegative
      have hpid : 0 ≤ pid := by omega
      have hpriority : 0 ≤ priority := by omega
      have hrun := sysSetpriority_run s hpid hpriority
      rw [SetsExactly, hrun]
      cases hfound : s.sys.kernel.withPid pid with
      | none =>
          have hnone := withPid_none hfound
          refine iff_of_true (.inr ⟨.inr (.inr fun q hq _ => hnone q hq), rfl⟩) ?_
          rintro ⟨hzero, _, q, hq, hstate⟩
          apply hnone q hq
          rw [hunused q hstate, hzero]
          rfl
      | some c =>
          obtain ⟨hc, hcpid⟩ := withPid_some hfound
          constructor
          · rintro (⟨q, _, hstate, hqpid, _⟩ | ⟨_, hreturn⟩)
            · rintro ⟨hzero, _⟩
              have hpos := hused q hstate
              omega
            · have hzero : (0 : Int) = -1 := congrArg Prod.fst hreturn
              omega
          · intro hcond
            have hstate : (s.sys.kernel.proc c).state ≠ .unused := by
              intro hstate
              apply hcond
              rw [← hcpid, hunused c hstate]
              exact ⟨rfl, by omega, c, hc, hstate⟩
            exact .inl ⟨c, hc, hstate, hcpid, hpid, hpriority, _, rfl, rfl, rfl⟩

end

/-! ## One step -/

section

variable [Image] {s s' : Prioritized} {p np : Nat} {a : PriorityAct}

omit [Image] in
theorem adopt_start (t : Table) (p np : Nat) : (t.adopt p np).start np =
    t.set np { t.entry np with parent := some p, stage := .alive } := by
  simp only [Table.adopt, Table.start, Table.set_entry_self]
  simp only [Table.set, Table.mk.injEq, and_true]
  funext q
  split <;> rfl

/-- `sfork` does in one step to the table what `fork` does in three. -/
theorem sfork_taken {k k' : Kernel} {pid : Int} (h : sfork p k = .ok (pid, k')) :
    (pid = -1 ∧ Taken k k' none) ∨ ∃ np < nproc, (k.proc np).state = .unused ∧
      pid = k.nextpid ∧ k'.table = ((k.table.take np).adopt p np).start np := by
  obtain ⟨found, k₁, halloc, hrest⟩ := bind_ok h
  have htaken := allocproc_taken halloc
  cases found with
  | none =>
      cases hrest
      exact .inl ⟨rfl, htaken⟩
  | some np =>
      obtain ⟨hnp, hunused, htable⟩ := htaken
      have hentry : (k₁.proc np).entry = (k.table.take np).entry np :=
        congrArg (fun table : Table => table.entry np) htable
      have hpid : (k₁.proc np).pid = k.nextpid := by
        have hnew := congrArg Entry.pid hentry
        simpa [Proc.entry, Table.take, Kernel.table] using hnew
      cases hrest
      refine .inr ⟨np, hnp, hunused, ?_, ?_⟩
      · simp [Kernel.setProc, Kernel.mapProc, hpid]
      · rw [table_setProc, htable, adopt_start, ← hentry]
        rfl

theorem shared_inv {t t' : Sys} (h : Family.Inv nproc t.life) (hlive : t.kernel.live p)
    (hidle : t.phase p = .idle) (hrun : t.shared p = .ok t') : Family.Inv nproc t'.life := by
  obtain ⟨⟨pid, k'⟩, hsfork, hend⟩ := except_bind_ok hrun
  cases hend
  rcases sfork_taken hsfork with ⟨rfl, hfailed⟩ | ⟨np, hnp, hunused, hpid, htable⟩
  · have hcreator : (fun c : Nat => if (c : Int) = -1 then (t.kernel.proc p).pid
        else t.creator c) = t.creator := by
      funext c
      rw [if_neg (by omega)]
    rw [Sys.life, hcreator]
    rcases hfailed with hsame | ⟨np, _, hunused, htable⟩
    · rw [hsame]
      exact h
    · rw [htable]
      exact h.allocFailed (stage_eq_unused.mpr hunused)
  · have hstage : (t.life.table.entry np).stage = .unused := stage_eq_unused.mpr hunused
    have halive := live_stage hlive
    have hother : p ≠ np := by
      rintro rfl
      rw [hstage] at halive
      cases halive
    have hcopied := h.copied halive hidle hnp hstage
    have hphase : (t.life.copied p np).phase p = .copied np := by
      simp [Life.copied, Life.setPhase]
    have hphase' : ((t.life.copied p np).adopted p np).phase p = .adopted np := by
      simp [Life.adopted, Life.setPhase]
    have hstarted := (hcopied.adopted_step hphase).started hphase'
    have hlife : ({ t with
        kernel := k'
        creator := fun c =>
          if (c : Int) = pid then (t.kernel.proc p).pid else t.creator c } : Sys).life =
        ((t.life.copied p np).adopted p np).started p np := by
      simp only [Sys.life, htable, hpid, Life.started, Life.adopted, Life.copied, Life.setPhase,
        Life.mk.injEq, and_true, true_and]
      constructor
      · funext q
        by_cases hq : q = p
        · rw [hq, if_pos rfl, hidle]
        · simp [hq]
      · funext c
        simp [Table.take, Table.set, Kernel.table, Proc.entry, hother]
    rw [hlife]
    exact hstarted

theorem Prioritized.act_inv (h : Family.Inv nproc s.sys.life) (hstep : s.act p a = .ok s') :
    Family.Inv nproc s'.sys.life := by
  cases a with
  | call a =>
      obtain ⟨t, hcall, hend⟩ := except_bind_ok hstep
      cases hend
      have hsim : Step nproc false s.sys.life t.life := Sys.step_sim h (by simp) hcall
      exact h.step hsim
  | sfork =>
      rw [Prioritized.act] at hstep
      split at hstep
      · rename_i hcan
        obtain ⟨t, hshared, hend⟩ := except_bind_ok hstep
        cases hend
        exact shared_inv h hcan.1 hcan.2 hshared
      · cases hstep
        exact h
  | setpriority pid priority =>
      rw [Prioritized.act] at hstep
      split at hstep
      · cases hstep
        rw [sysSetpriority_sys]
        exact h
      · cases hstep
        exact h

def Prioritized.Stored (s : Prioritized) : Prop :=
  ∀ p, s.priority p = (lastStore s.stores p).getD 0

omit [Image] in
theorem lastStore_append (stores : List (Nat × Int)) (p q : Nat) (v : Int) :
    lastStore (stores ++ [(p, v)]) q = if q = p then some v else lastStore stores q := by
  cases hpq : decide (q = p) with
  | true => simp [lastStore, of_decide_eq_true hpq]
  | false =>
      have hne : p ≠ q := fun heq => of_decide_eq_false hpq heq.symm
      simp [lastStore, hne, Ne.symm hne]

omit [Image] in
theorem stored_sysSetpriority (h : s.Stored) (pid priority : Int) :
    (sysSetpriority pid priority s).2.Stored := by
  rw [sysSetpriority]
  split
  · exact h
  · split
    case h_1 c _ =>
      intro q
      rw [lastStore_append]
      cases hq : decide (q = c) with
      | true => simp [of_decide_eq_true hq]
      | false =>
          have hne := of_decide_eq_false hq
          simp [hne, h q]
    case h_2 => exact h

theorem Prioritized.act_stored (h : s.Stored) (hstep : s.act p a = .ok s') : s'.Stored := by
  cases a with
  | call a =>
      obtain ⟨t, _, hend⟩ := except_bind_ok hstep
      cases hend
      exact h
  | sfork =>
      rw [Prioritized.act] at hstep
      split at hstep
      · obtain ⟨t, _, hend⟩ := except_bind_ok hstep
        cases hend
        exact h
      · cases hstep
        exact h
  | setpriority pid priority =>
      rw [Prioritized.act] at hstep
      split at hstep
      · cases hstep
        exact stored_sysSetpriority h pid priority
      · cases hstep
        exact h

/-- No call but `setpriority` reads or writes a priority. -/
theorem Prioritized.act_frame (s₀ : Prioritized) (hsys : s₀.sys = s.sys) (ha : a.sets = false)
    (hstep : s.act p a = .ok s') :
    s'.priority = s.priority ∧ s'.stores = s.stores ∧
      s₀.act p a = .ok { s₀ with sys := s'.sys } := by
  cases a with
  | call a =>
      obtain ⟨t, hcall, hend⟩ := except_bind_ok hstep
      cases hend
      refine ⟨rfl, rfl, ?_⟩
      rw [Prioritized.act, hsys, hcall]
      rfl
  | sfork =>
      rw [Prioritized.act] at hstep ⊢
      rw [hsys]
      split at hstep
      · rename_i hcan
        obtain ⟨t, hshared, hend⟩ := except_bind_ok hstep
        cases hend
        refine ⟨rfl, rfl, ?_⟩
        rw [if_pos hcan, hshared]
        rfl
      · rename_i hcannot
        cases hstep
        rw [if_neg hcannot, ← hsys]
        exact ⟨rfl, rfl, rfl⟩
  | setpriority pid priority => cases ha

end

/-! ## Runs -/

section

variable [Image] {s s' : Prioritized} {k k₁ : Kernel} {root : Nat}
  {es : List (Nat × PriorityAct)}

theorem Prioritized.run_inv (h : Family.Inv nproc s.sys.life) (hstored : s.Stored)
    (hrun : s.run es = .ok s') : Family.Inv nproc s'.sys.life ∧ s'.Stored := by
  induction es generalizing s with
  | nil =>
      cases hrun
      exact ⟨h, hstored⟩
  | cons e es ih =>
      rw [Prioritized.run, List.foldlM_cons] at hrun
      obtain ⟨s₁, hstep, hrest⟩ := except_bind_ok hrun
      exact ih (act_inv h hstep) (act_stored hstored hstep) hrest

theorem Prioritized.run_append (es es' : List (Nat × PriorityAct)) :
    s.run (es ++ es') = (s.run es).bind fun t => t.run es' := by
  rw [Prioritized.run, List.foldlM_append]
  rfl

/-- The same run without the calls of `setpriority` goes through the same states but for the
priorities, which stay as they were. -/
theorem Prioritized.run_withoutSets (s₀ : Prioritized) (hsys : s₀.sys = s.sys)
    (hrun : s.run es = .ok s') : s₀.run (withoutSets es) = .ok { s₀ with sys := s'.sys } := by
  induction es generalizing s s₀ with
  | nil =>
      cases hrun
      rw [← hsys]
      rfl
  | cons e es ih =>
      rw [Prioritized.run, List.foldlM_cons] at hrun
      obtain ⟨s₁, hstep, hrest⟩ := except_bind_ok hrun
      cases hsets : e.2.sets with
      | false =>
          have hkept : withoutSets (e :: es) = e :: withoutSets es := by
            simp [withoutSets, hsets]
          obtain ⟨_, _, hact⟩ := act_frame s₀ hsys hsets hstep
          rw [hkept, Prioritized.run, List.foldlM_cons, hact]
          exact ih (s := s₁) { s₀ with sys := s₁.sys } rfl hrest
      | true =>
          have hdropped : withoutSets (e :: es) = withoutSets es := by
            simp [withoutSets, hsets]
          obtain ⟨p, a⟩ := e
          cases a with
          | call a => cases hsets
          | sfork => cases hsets
          | setpriority pid priority =>
              have hsame : s₁.sys = s.sys := by
                rw [Prioritized.act] at hstep
                split at hstep
                · cases hstep
                  exact sysSetpriority_sys pid priority s
                · cases hstep
                  rfl
              rw [hdropped]
              exact ih s₀ (hsys.trans hsame.symm) hrest

/-- In every state of a run, `setpriority` is exact unless it is `setpriority(0, ..)` with a
slot unused.  A process that `fork` creates starts with the priority that it has in the run
without the calls of `setpriority` if and only if the last store into its slot, if there was
one, left 0. -/
theorem setpriority_exact_iff (hfresh : k.Fresh) (hinit : userinit root k = .ok ((), k₁))
    (hrun : Prioritized.run { sys := { kernel := k₁ } } es = .ok s) :
    (∀ pid priority, SetsExactly s pid priority ↔
      ¬ (pid = 0 ∧ 0 ≤ priority ∧ ∃ q < nproc, (s.sys.kernel.proc q).state = .unused)) ∧
    ∀ s' p np, s.Forks s' p np → ∃ s₀ : Prioritized,
      Prioritized.run { sys := { kernel := k₁ } } (withoutSets es ++ [(p, .call .fork)]) =
        .ok s₀ ∧ s₀.sys = s'.sys ∧
      (s'.priority np = s₀.priority np ↔ ∀ v, lastStore s.stores np = some v → v = 0) := by
  obtain ⟨hinv, hstored⟩ := Prioritized.run_inv (s := { sys := { kernel := k₁ } })
    (userinit_inv hfresh hinit).1 (fun _ => rfl) hrun
  refine ⟨fun pid priority => setsExactly_iff hinv, ?_⟩
  intro s' p np hfork
  have hquiet := Prioritized.run_withoutSets { sys := { kernel := k₁ } } rfl hrun
  obtain ⟨hpriority, _, hact⟩ :=
    Prioritized.act_frame (s := s) { sys := s.sys } rfl rfl hfork.step
  refine ⟨{ sys := s'.sys }, ?_, rfl, ?_⟩
  · rw [Prioritized.run_append, hquiet]
    change Prioritized.run _ [(p, PriorityAct.call .fork)] = _
    rw [Prioritized.run, List.foldlM_cons, hact]
    rfl
  · rw [hpriority, hstored np]
    cases hlast : lastStore s.stores np with
    | none => simp
    | some v => simp

end

attribute [local instance] builtImage in
theorem setpriority_exact_after_own : ∃ k₁ s s' s₀, userinit 0 builtKernel = .ok ((), k₁) ∧
    Prioritized.run { sys := { kernel := k₁ } } [(0, .setpriority 1 7)] = .ok s ∧
    s.priority 0 = 7 ∧ SetsExactly s 1 9 ∧ s.Forks s' 0 1 ∧
    Prioritized.run { sys := { kernel := k₁ } } [(0, .call .fork)] = .ok s₀ ∧
    s'.priority 1 = s₀.priority 1 := by
  have hvalues : (do
      let r ← userinit 0 builtKernel
      let s ← Prioritized.run { sys := { kernel := r.2 } } [(0, .setpriority 1 7)]
      let s' ← s.act 0 (.call .fork)
      pure (s.priority 0, lastStore s.stores 1, s.sys.phase 0, s'.sys.phase 0)) =
      Except.ok (7, none, .idle, .copied 1) := by
    decide +kernel
  obtain ⟨⟨_, k₁⟩, hinit, hvalues⟩ := except_bind_ok hvalues
  obtain ⟨s, hrun, hvalues⟩ := except_bind_ok hvalues
  obtain ⟨s', hstep, hvalues⟩ := except_bind_ok hvalues
  injection hvalues with hvalues
  injection hvalues with hpriority hvalues
  injection hvalues with hlast hvalues
  injection hvalues with hidle hcopied
  obtain ⟨hexact, hstarts⟩ := setpriority_exact_iff ⟨fun _ => rfl, rfl⟩ hinit hrun
  have hforks : s.Forks s' 0 1 := ⟨hstep, hidle, hcopied⟩
  obtain ⟨s₀, hquiet, _, hiff⟩ := hstarts s' 0 1 hforks
  refine ⟨k₁, s, s', s₀, hinit, hrun, hpriority, (hexact 1 9).mpr (by simp), hforks, hquiet,
    hiff.mpr ?_⟩
  intro v hv
  rw [hlast] at hv
  cases hv

/-- `init` forks, gives its child a priority, waits for it and forks again. -/
def reusedSlot : List (Nat × PriorityAct) :=
  [(0, .call .fork), (0, .call .forkAdopt), (0, .call .forkStart), (0, .setpriority 2 5),
    (1, .call (.exit 0)), (0, .call (.wait 0))]

attribute [local instance] builtImage in
/-- The second child starts with the priority of the first one; and right after the boot
`setpriority(0, 9)` finds an unused slot. -/
theorem setpriority_leaks : ∃ k₁ s s' s₀, userinit 0 builtKernel = .ok ((), k₁) ∧
    ¬ SetsExactly { sys := { kernel := k₁ } } 0 9 ∧
    Prioritized.run { sys := { kernel := k₁ } } reusedSlot = .ok s ∧ s.Forks s' 0 1 ∧
    (s'.sys.kernel.proc 1).pid = 3 ∧ s'.priority 1 = 5 ∧
    Prioritized.run { sys := { kernel := k₁ } } (withoutSets reusedSlot ++ [(0, .call .fork)]) =
      .ok s₀ ∧ (s₀.sys.kernel.proc 1).pid = 3 ∧ s₀.priority 1 = 0 := by
  have hvalues : (do
      let r ← userinit 0 builtKernel
      let s ← Prioritized.run { sys := { kernel := r.2 } } reusedSlot
      let s' ← s.act 0 (.call .fork)
      let s₀ ← Prioritized.run { sys := { kernel := r.2 } }
        (withoutSets reusedSlot ++ [(0, .call .fork)])
      pure ((r.2.proc 1).state, (s.sys.phase 0, s'.sys.phase 0),
        ((s'.sys.kernel.proc 1).pid, s'.priority 1),
        ((s₀.sys.kernel.proc 1).pid, s₀.priority 1))) =
      Except.ok (.unused, (.idle, .copied 1), (3, 5), (3, 0)) := by
    decide +kernel
  obtain ⟨⟨_, k₁⟩, hinit, hvalues⟩ := except_bind_ok hvalues
  obtain ⟨s, hrun, hvalues⟩ := except_bind_ok hvalues
  obtain ⟨s', hstep, hvalues⟩ := except_bind_ok hvalues
  obtain ⟨s₀, hquiet, hvalues⟩ := except_bind_ok hvalues
  injection hvalues with hvalues
  simp only [Prod.mk.injEq] at hvalues
  obtain ⟨hunused, ⟨hidle, hcopied⟩, ⟨hpid, hpriority⟩, hpid₀, hpriority₀⟩ := hvalues
  refine ⟨k₁, s, s', s₀, hinit, ?_, hrun, ⟨hstep, hidle, hcopied⟩, hpid, hpriority, hquiet,
    hpid₀, hpriority₀⟩
  rw [setsExactly_iff (userinit_inv ⟨fun _ => rfl, rfl⟩ hinit).1]
  intro hnot
  exact hnot ⟨rfl, by decide, 1, by decide, hunused⟩

end SyscallSched.Xv6
