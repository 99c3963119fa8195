import SyscallSched.Xv6.Fs.Crash

/-!
# Crash atomicity

Between any two events the home blocks on disk are the committed ones, the
header on disk is empty, and the pinned buffers hold the changes of the
transaction in progress.
-/

namespace SyscallSched.Xv6.Fs

open SyscallSched.Foundation

structure Consistent (l : Log) (m : Machine) : Prop where
  start : m.store.log.start = l.start
  size : m.store.log.size = l.size
  idle : m.store.log.committing = false
  clean : (m.store.disk l.start).word 0 = 0
  home : ∀ b, l.Home b → m.store.disk b = m.committed b
  named : ∀ b ∈ m.store.log.lh, l.Home b ∧ b < 2 ^ 32
  fit : m.store.log.lh.length < l.size
  small : m.store.log.lh.length ≤ logSize
  logged : ∀ b, b ∈ m.store.log.lh ↔ b ∈ m.logged.map Prod.fst
  seen : ∀ b ∈ m.store.log.lh, m.store.view b = applyWrites m.logged m.committed b
  pinned : ∀ b ∈ m.store.log.lh, 0 < m.store.refcnt b

variable {l l' : Log} {m m' : Machine} {s s' : Store} {b : Nat} {data : Block}

theorem Consistent.start_state {disk : Nat → Block} (hsize : 0 < l.size)
    (hclean : (disk l.start).word 0 = 0) : Consistent l (Machine.start l disk) := by
  constructor
  case clean => exact hclean
  case fit => exact hsize
  all_goals simp [Machine.start, boot]

/-! ## Operations -/

theorem Consistent.beginOp (h : Consistent l m) (hstep : m.step .beginOp = .ok m') :
    Consistent l m' := by
  obtain ⟨⟨admitted, store⟩, hrun, hend⟩ := except_bind_ok hstep
  rw [beginOp_run] at hrun
  cases hend
  by_cases hadmits : m.store.log.Admits
  · rw [if_pos hadmits] at hrun
    cases hrun
    exact ⟨h.start, h.size, h.idle, h.clean, h.home, h.named, h.fit, h.small, h.logged,
      h.seen, h.pinned⟩
  · rw [if_neg hadmits] at hrun
    cases hrun
    exact h

structure Changed (b : Nat) (data : Block) (s s' : Store) : Prop where
  room : ¬ s.log.Full
  disk : s'.disk = s.disk
  view : s'.view = Function.update s.view b data
  log : s'.log = { s.log with lh := if b ∈ s.log.lh then s.log.lh else s.log.lh ++ [b] }
  others : ∀ c ≠ b, s'.refcnt c = s.refcnt c
  kept : s.refcnt b ≤ s'.refcnt b
  pinned : b ∉ s.log.lh → 0 < s'.refcnt b

theorem changeBlock_ok (h : changeBlock b data s = .ok ((), s')) : Changed b data s s' := by
  rw [changeBlock, Total.run_bind bread_run, Total.run_bind setData_run] at h
  generalize hs₁ : Store.setBuf _ b data _ = s₁ at h
  have hview₁ : s₁.view = Function.update s.view b data := by simp [← hs₁]
  have hrefcnt₁ : s₁.refcnt = Function.update s.refcnt b (s.refcnt b + 1) := by simp [← hs₁]
  have hlog₁ : s₁.log = s.log := by simp [← hs₁]
  have hdisk₁ : s₁.disk = s.disk := by simp [← hs₁]
  obtain ⟨_, t, hlogged, hend⟩ := bind_ok h
  obtain ⟨hdisk, hview, hlog, hrefcnt⟩ := logWrite_effect hlogged
  have hroom := (logWrite_ok hlogged).1
  rw [hlog₁] at hlog hrefcnt hroom
  rw [brelse_run] at hend
  cases hend
  by_cases hb : b ∈ s.log.lh
  · constructor
    case room => exact hroom
    all_goals simp +contextual [hdisk, hdisk₁, hview, hview₁, hlog, hrefcnt, hrefcnt₁, hb]
  · constructor
    case room => exact hroom
    all_goals simp +contextual [hdisk, hdisk₁, hview, hview₁, hlog, hrefcnt, hrefcnt₁, hb]

theorem Consistent.change (h : Consistent l m) (hok : (Event.change b data).Ok l)
    (hstep : m.step (.change b data) = .ok m') : Consistent l m' := by
  obtain ⟨⟨_, store⟩, hrun, hend⟩ := except_bind_ok hstep
  cases hend
  have hc := changeBlock_ok hrun
  have hroom := hc.room
  rw [Log.Full, not_or] at hroom
  have hlh : store.log.lh =
      if b ∈ m.store.log.lh then m.store.log.lh else m.store.log.lh ++ [b] := by rw [hc.log]
  have hmem : ∀ c, c ∈ store.log.lh ↔ c ∈ m.store.log.lh ∨ c = b := by
    intro c
    rw [hlh]
    by_cases hb : b ∈ m.store.log.lh
    · simp +contextual [hb]
    · simp [hb]
  have hlength : store.log.lh.length ≤ m.store.log.lh.length + 1 := by
    rw [hlh]
    split <;> simp
  constructor
  case start => rw [← h.start, hc.log]
  case size => rw [← h.size, hc.log]
  case idle => rw [← h.idle, hc.log]
  case clean => rw [hc.disk]; exact h.clean
  case home => rw [hc.disk]; exact h.home
  case named =>
      intro c hcm
      cases (hmem c).mp hcm with
      | inl hold => exact h.named c hold
      | inr heq => exact heq ▸ hok
  case fit => have hsize := h.size; simp only; omega
  case small => simp only; omega
  case logged =>
      intro c
      simp [hmem, h.logged]
  case seen =>
      intro c hcm
      rw [hc.view, applyWrites_append, applyWrites_cons, applyWrites_nil]
      by_cases hcb : c = b
      · simp [hcb]
      · rw [Function.update_of_ne hcb, Function.update_of_ne hcb]
        exact h.seen c (by simpa [hcb] using (hmem c).mp hcm)
  case pinned =>
      intro c hcm
      by_cases hcb : c = b
      · subst hcb
        by_cases hold : c ∈ m.store.log.lh
        · exact Nat.lt_of_lt_of_le (h.pinned c hold) hc.kept
        · exact hc.pinned hold
      · rw [hc.others c hcb]
        exact h.pinned c (by simpa [hcb] using (hmem c).mp hcm)

theorem Consistent.recycle (h : Consistent l m) (hstep : m.step (.recycle b) = .ok m') :
    Consistent l m' := by
  obtain ⟨⟨_, store⟩, hrun, hend⟩ := except_bind_ok hstep
  cases hend
  have hstore : store = if m.store.refcnt b = 0 then
      { m.store with cache := Function.update m.store.cache b none } else m.store := by
    cases hrun
    rfl
  by_cases hb : m.store.refcnt b = 0
  · rw [if_pos hb] at hstore
    subst hstore
    have hother : ∀ c ∈ m.store.log.lh, c ≠ b := by
      intro c hc heq
      have hpin := h.pinned c hc
      rw [heq, hb] at hpin
      exact absurd hpin (Nat.lt_irrefl 0)
    constructor
    case seen =>
        intro c hc
        rw [← h.seen c hc]
        simp [Store.view, hother c hc]
    case pinned =>
        intro c hc
        have hpin := h.pinned c hc
        simpa [Store.refcnt, hother c hc] using hpin
    all_goals first
      | exact h.start | exact h.size | exact h.idle | exact h.clean | exact h.home
      | exact h.named | exact h.fit | exact h.small | exact h.logged
  · rw [if_neg hb] at hstore
    subst hstore
    exact h

/-! ## Committing -/

theorem Recovers.congr {d target : Nat → Block} (hstart : l'.start = l.start)
    (hsize : l'.size = l.size) (h : Recovers l' d target) : Recovers l d target := by
  cases l
  cases l'
  simp only at hstart hsize
  subst hstart hsize
  exact ⟨h.home, h.fit, h.copies, h.rest⟩

theorem Consistent.logged_eq_nil (h : Consistent l m) (hlh : m.store.log.lh = []) :
    m.logged = [] := by
  rw [← List.map_eq_nil_iff (f := Prod.fst), List.eq_nil_iff_forall_not_mem]
  intro b
  rw [← h.logged b, hlh]
  exact List.not_mem_nil

def Machine.target (m : Machine) : Nat → Block := applyWrites m.logged m.committed

def Machine.ended (m : Machine) (last : Bool) (s : Store) : Machine :=
  if last then { store := s, committed := m.target, logged := [] } else { m with store := s }

structure Ended (l : Log) (m : Machine) (ws : List (Nat × Block)) (last : Bool)
    (s' : Store) : Prop where
  writes : s'.writes = m.store.writes ++ ws
  repairs : ∀ ws', ws' <+: ws → Recovers l (applyWrites ws' m.store.disk) m.committed ∨
    Recovers l (applyWrites ws' m.store.disk) m.target
  consistent : Consistent l (m.ended last s')

theorem Consistent.recovers (h : Consistent l m) : Recovers l m.store.disk m.committed := by
  have hfit := h.fit
  exact Recovers.of_empty (by omega) h.clean h.home

theorem Consistent.commit (h : Consistent l m) (hstart : s.log.start = l.start)
    (hsize : s.log.size = l.size) (hlh : s.log.lh = m.store.log.lh)
    (hdisk : s.disk = m.store.disk) (hview : s.view = m.store.view) :
    Total commit s fun _ s' => s'.log = { s.log with lh := [] } ∧
      (s'.disk l.start).word 0 = 0 ∧ (∀ b, l.Home b → s'.disk b = m.target b) ∧
      ∃ ws, s'.writes = s.writes ++ ws ∧ ∀ ws', ws' <+: ws →
        Recovers l (applyWrites ws' s.disk) m.committed ∨
          Recovers l (applyWrites ws' s.disk) m.target := by
  have hhome : ∀ b, s.log.Home b ↔ l.Home b := by
    intro b
    rw [Log.Home, Log.Home, hstart, hsize]
  by_cases hnone : s.log.lh = []
  · have hlogged := h.logged_eq_nil (hlh ▸ hnone)
    have hrun : Fs.commit s = .ok ((), s) := by
      rw [Fs.commit, Total.run_bind get_run, if_neg (by simp [hnone])]
      rfl
    apply Total.of_eq hrun
    refine ⟨?_, ?_, ?_, [], (List.append_nil _).symm, ?_⟩
    · rw [← hnone]
    · rw [hdisk]
      exact h.clean
    · intro b hb
      rw [hdisk, Machine.target, hlogged]
      exact h.home b hb
    · intro ws' hws'
      rw [List.prefix_nil.mp hws', hdisk]
      exact Or.inl h.recovers
  · have hfit : s.log.lh.length < s.log.size := by
      rw [hlh, hsize]
      exact h.fit
    have hsmall : s.log.lh.length ≤ 30 := by
      rw [hlh]
      exact h.small
    have hnamed : ∀ b ∈ s.log.lh, s.log.Home b := fun b hb =>
      (hhome b).mpr (h.named b (hlh ▸ hb)).1
    have hd : ∀ b, s.log.Home b → s.disk b = m.committed b := by
      intro b hb
      rw [hdisk]
      exact h.home b ((hhome b).mp hb)
    have htarget : ∀ b ∈ s.log.lh, s.view b = m.target b := by
      intro b hb
      rw [hview]
      exact h.seen b (hlh ▸ hb)
    have hrest : ∀ b, b ∉ s.log.lh → m.committed b = m.target b := by
      intro b hb
      rw [hlh, h.logged b] at hb
      exact (applyWrites_of_notMem hb).symm
    apply (commit_spec hnone hnamed hfit (fun b hb => (h.named b (hlh ▸ hb)).2)
      (by omega)).mono
    intro _ s' h'
    obtain ⟨hlog, full, empty, hfull, hempty, hflush⟩ := h'
    refine ⟨hlog, ?_, ?_, _, hflush.writes, ?_⟩
    · rw [hflush.disk, ← hstart]
      exact (commit_complete hfit hempty hd htarget hrest).1
    · intro b hb
      rw [hflush.disk]
      exact (commit_complete hfit hempty hd htarget hrest).2 b ((hhome b).mpr hb)
    · intro ws' hws'
      have hclean : (s.disk s.log.start).word 0 = 0 := by
        rw [hdisk, hstart]
        exact h.clean
      cases commit_crash hfit hnamed hfull hempty hclean hd htarget hrest hws' with
      | inl hbefore => exact Or.inl (hbefore.congr hstart hsize)
      | inr hafter => exact Or.inr (hafter.congr hstart hsize)

theorem Consistent.endCommit (h : Consistent l m) (hstart : s.log.start = l.start)
    (hsize : s.log.size = l.size) (hlh : s.log.lh = m.store.log.lh)
    (hdisk : s.disk = m.store.disk) (hview : s.view = m.store.view) :
    Total endCommit s fun _ s' => ∃ ws, s'.writes = s.writes ++ ws ∧
      (∀ ws', ws' <+: ws → Recovers l (applyWrites ws' s.disk) m.committed ∨
        Recovers l (applyWrites ws' s.disk) m.target) ∧
      Consistent l (m.ended true s') := by
  have hfit := h.fit
  rw [Fs.endCommit]
  apply Total.bind (h.commit hstart hsize hlh hdisk hview)
  intro _ s₁ h₁
  obtain ⟨hlog, hclean, hhome, ws, hwrites, hrepairs⟩ := h₁
  apply Total.of_eq (a := ()) rfl
  refine ⟨ws, hwrites, hrepairs, ?_⟩
  constructor
  case clean => exact hclean
  case home => exact hhome
  all_goals simp [Machine.ended, hlog, hstart, hsize]
  omega

theorem finishOp_spec (h : Consistent l m) :
    Total finishOp m.store fun last s' => ∃ ws, Ended l m ws last s' := by
  rw [finishOp]
  by_cases hlast : m.store.log.outstanding - 1 = 0
  · have hrun := endOp_run h.idle
    rw [if_pos hlast] at hrun
    apply Total.bind_eq hrun
    rw [if_pos rfl]
    refine Total.bind (h.endCommit ?_ ?_ ?_ ?_ ?_) ?_
    case refine_6 =>
        intro _ s' h'
        obtain ⟨ws, hwrites, hrepairs, hafter⟩ := h'
        exact Total.pure ⟨ws, hwrites, hrepairs, hafter⟩
    all_goals simp [h.start, h.size]
  · have hrun := endOp_run h.idle
    rw [if_neg hlast] at hrun
    apply Total.bind_eq hrun
    rw [if_neg (by simp)]
    apply Total.pure
    refine ⟨[], (List.append_nil _).symm, ?_, ?_⟩
    · intro ws' hws'
      rw [List.prefix_nil.mp hws']
      exact Or.inl h.recovers
    · exact ⟨h.start, h.size, h.idle, h.clean, h.home, h.named, h.fit, h.small, h.logged,
        h.seen, h.pinned⟩

theorem Consistent.endOp (h : Consistent l m) (hstep : m.step .endOp = .ok m') :
    Consistent l m' := by
  rw [Machine.step] at hstep
  by_cases ho : 0 < m.store.log.outstanding
  · rw [if_pos ho] at hstep
    obtain ⟨last, s', hrun, ws, hended⟩ := finishOp_spec h
    rw [hrun] at hstep
    have hafter := hended.consistent
    cases last with
    | true =>
        cases hstep
        exact hafter
    | false =>
        cases hstep
        exact hafter
  · rw [if_neg ho] at hstep
    cases hstep
    exact h

/-! ## Crashes -/

def Repaired (l : Log) (target : Nat → Block) (disk : Nat → Block) : Prop :=
  (disk l.start).word 0 = 0 ∧ ∀ b, l.Home b → disk b = target b

theorem Consistent.withoutWrites (h : Consistent l m) :
    Consistent l { m with store := { m.store with writes := [] } } :=
  ⟨h.start, h.size, h.idle, h.clean, h.home, h.named, h.fit, h.small, h.logged, h.seen,
    h.pinned⟩

theorem Consistent.interrupted (h : Consistent l m) (ending : Bool) (k : Nat) :
    ∃ d, m.interrupted ending k = .ok d ∧
      (Recovers l d m.committed ∨ Recovers l d m.target) := by
  rw [Machine.interrupted]
  by_cases hin : ending ∧ 0 < m.store.log.outstanding
  · rw [if_pos hin]
    obtain ⟨last, s', hrun, ws, hended⟩ := finishOp_spec h.withoutWrites
    have hwrites : s'.writes = ws := hended.writes
    refine ⟨applyWrites (ws.take k) m.store.disk, ?_, hended.repairs _ (List.take_prefix k ws)⟩
    rw [crashDuring, hrun, ← hwrites]
    rfl
  · rw [if_neg hin]
    exact ⟨m.store.disk, rfl, Or.inl h.recovers⟩

theorem recover_repairs {d target : Nat → Block} (h : Recovers l d target) (ks : List Nat) :
    ∃ d' s', failedRecoveries l ks d = .ok d' ∧ recoverFromLog (boot l d') = .ok ((), s') ∧
      s'.log = { start := l.start, size := l.size } ∧ Repaired l target s'.disk := by
  obtain ⟨d', hfailed, hrec⟩ := failedRecoveries_ok h ks
  obtain ⟨_, s', hrun, hlog, empty, hempty, hflush⟩ := recover_boot hrec
  refine ⟨d', s', hfailed, hrun, hlog, ?_⟩
  rw [Repaired, hflush.disk]
  exact hrec.complete hempty

theorem Consistent.of_recovered {d : Nat → Block} (hsize : 0 < l.size)
    (hlog : s.log = { start := l.start, size := l.size }) (h : Repaired l d s.disk) :
    Consistent l { store := s, committed := s.disk, logged := [] } := by
  constructor
  case clean => exact h.1
  all_goals simp [hlog]
  exact hsize

theorem Consistent.crash (h : Consistent l m) (ending : Bool) (k : Nat) (ks : List Nat) :
    ∃ m', m.crash ending k ks = .ok m' ∧ Consistent l m' ∧
      (Repaired l m.committed m'.store.disk ∨ Repaired l m.target m'.store.disk) := by
  have hsize : 0 < l.size := Nat.lt_of_le_of_lt (Nat.zero_le _) h.fit
  obtain ⟨d, hd, hrepairs⟩ := h.interrupted ending k
  have hafter : ∀ target, Recovers l d target → ∃ m', m.crash ending k ks = .ok m' ∧
      Consistent l m' ∧ Repaired l target m'.store.disk := by
    intro target hrec
    obtain ⟨d', s', hfailed, hrun, hlog, hrepaired⟩ :=
      recover_repairs (hrec.congr h.start.symm h.size.symm) ks
    have hrepaired' : Repaired l target s'.disk := by
      simpa only [Repaired, Log.Home, h.start, h.size] using hrepaired
    rw [h.start, h.size] at hlog
    refine ⟨_, ?_, Consistent.of_recovered hsize hlog hrepaired', hrepaired'⟩
    rw [Machine.crash, hd]
    simp only [bind, Except.bind, hfailed, hrun]
    rfl
  cases hrepairs with
  | inl hbefore =>
      obtain ⟨m', hrun, hcons, hrep⟩ := hafter _ hbefore
      exact ⟨m', hrun, hcons, Or.inl hrep⟩
  | inr hdone =>
      obtain ⟨m', hrun, hcons, hrep⟩ := hafter _ hdone
      exact ⟨m', hrun, hcons, Or.inr hrep⟩

/-! ## Runs -/

theorem Consistent.step {e : Event} (h : Consistent l m) (hok : e.Ok l)
    (hstep : m.step e = .ok m') : Consistent l m' := by
  cases e with
  | beginOp => exact h.beginOp hstep
  | change b data => exact h.change hok hstep
  | endOp => exact h.endOp hstep
  | recycle b => exact h.recycle hstep
  | crash ending k ks =>
      obtain ⟨m₁, hrun, hcons, -⟩ := h.crash ending k ks
      rw [Machine.step, hrun] at hstep
      cases hstep
      exact hcons

theorem Consistent.run {events : List Event} (h : Consistent l m)
    (hok : ∀ e ∈ events, e.Ok l) (hrun : m.run events = .ok m') : Consistent l m' := by
  induction events generalizing m with
  | nil =>
      cases hrun
      exact h
  | cons e events ih =>
      rw [Machine.run, List.foldlM_cons] at hrun
      obtain ⟨m₁, hstep, hrest⟩ := except_bind_ok hrun
      exact ih (h.step (hok e List.mem_cons_self) hstep)
        (fun e' he' => hok e' (List.mem_cons_of_mem e he')) hrest

/-- A crash leaves the disk before or after the transaction in progress, never
between. -/
theorem crash_atomic {disk : Nat → Block} {events : List Event} (hsize : 0 < l.size)
    (hclean : (disk l.start).word 0 = 0) (hok : ∀ e ∈ events, e.Ok l)
    (hrun : (Machine.start l disk).run events = .ok m) (ending : Bool) (k : Nat)
    (ks : List Nat) :
    ∃ m', m.crash ending k ks = .ok m' ∧ (m'.store.disk l.start).word 0 = 0 ∧
      ((∀ b, l.Home b → m'.store.disk b = m.committed b) ∨
        (∀ b, l.Home b → m'.store.disk b = applyWrites m.logged m.committed b)) := by
  have h := (Consistent.start_state hsize hclean).run hok hrun
  obtain ⟨m', hcrash, hcons, hrepaired⟩ := h.crash ending k ks
  refine ⟨m', hcrash, hcons.clean, ?_⟩
  cases hrepaired with
  | inl hbefore => exact Or.inl hbefore.2
  | inr hafter => exact Or.inr hafter.2

/-- Two blocks of the image that `mkfs` writes, and the power fails after the
header is written, and again after one write of the recovery. -/
theorem crash_atomic_after_header : ∃ m m',
    (Machine.start { start := 2, size := 30 } fun _ _ => 0).run
      [.beginOp, .change 50 fun _ => 1, .change 60 fun _ => 2] = .ok m ∧
    m.crash true 3 [1] = .ok m' ∧ (m'.store.disk 2).word 0 = 0 ∧
    ((∀ b, Log.Home { start := 2, size := 30 } b → m'.store.disk b = m.committed b) ∨
      (∀ b, Log.Home { start := 2, size := 30 } b →
        m'.store.disk b = applyWrites m.logged m.committed b)) := by
  obtain ⟨m, hrun⟩ : ∃ m, (Machine.start { start := 2, size := 30 } fun _ _ => 0).run
      [.beginOp, .change 50 fun _ => 1, .change 60 fun _ => 2] = .ok m := ⟨_, rfl⟩
  obtain ⟨m', hcrash⟩ := crash_atomic (l := { start := 2, size := 30 }) (by decide) rfl
    (by simp [Event.Ok, Log.Home]) hrun true 3 [1]
  exact ⟨m, m', hrun, hcrash⟩

end SyscallSched.Xv6.Fs
