import SyscallSched.Xv6.Fs.Commit

/-!
# Crashes and recovery

A machine runs file system operations, and now and then the power fails: during
a commit, between any two of its disk writes, and again during the recovery.
-/

namespace SyscallSched.Xv6.Fs

open SyscallSched.Foundation

/-- The idiom of a logged change: read, store, `log_write`, release. -/
def changeBlock (b : Nat) (data : Block) : StoreM Unit := do
  let _ ← bread b
  setData b data
  logWrite b
  brelse b

def finishOp : StoreM Bool := do
  let last ← endOp
  if last then do
    endCommit
    pure true
  else
    pure false

def boot (l : Log) (disk : Nat → Block) : Store :=
  { disk, cache := fun _ => none, log := { start := l.start, size := l.size } }

def crashDuring {α : Type} (x : StoreM α) (k : Nat) (s : Store) :
    Except FsPanic (Nat → Block) := do
  let (_, s') ← x { s with writes := [] }
  pure (applyWrites (s'.writes.take k) s.disk)

def failedRecoveries (l : Log) : List Nat → (Nat → Block) → Except FsPanic (Nat → Block)
  | [], disk => pure disk
  | k :: ks, disk => do
      let disk ← crashDuring recoverFromLog k (boot l disk)
      failedRecoveries l ks disk

inductive Event where
  | beginOp
  | change (b : Nat) (data : Block)
  | endOp
  | recycle (b : Nat)
  /-- The power fails after `k` writes of an `end_op`, or between operations;
  then in recoveries, after the numbers of writes in `ks`. -/
  | crash (ending : Bool) (k : Nat) (ks : List Nat)

/-- `committed` are the contents of the disk after the transactions that have
committed, and `logged` the changes of the transaction in progress. -/
structure Machine where
  store : Store
  committed : Nat → Block
  logged : List (Nat × Block)

def Machine.start (l : Log) (disk : Nat → Block) : Machine :=
  { store := boot l disk, committed := disk, logged := [] }

def Machine.interrupted (m : Machine) (ending : Bool) (k : Nat) :
    Except FsPanic (Nat → Block) :=
  if ending ∧ 0 < m.store.log.outstanding then crashDuring finishOp k m.store
  else pure m.store.disk

def Machine.crash (m : Machine) (ending : Bool) (k : Nat) (ks : List Nat) :
    Except FsPanic Machine := do
  let disk ← m.interrupted ending k
  let disk ← failedRecoveries m.store.log ks disk
  let (_, store) ← recoverFromLog (boot m.store.log disk)
  pure { store, committed := store.disk, logged := [] }

def Machine.step (m : Machine) : Event → Except FsPanic Machine
  | .beginOp => do
      let (_, store) ← Fs.beginOp m.store
      pure { m with store }
  | .change b data => do
      let (_, store) ← changeBlock b data m.store
      pure { m with store, logged := m.logged ++ [(b, data)] }
  | .endOp =>
      if 0 < m.store.log.outstanding then do
        let (last, store) ← finishOp m.store
        if last then
          pure { store, committed := applyWrites m.logged m.committed, logged := [] }
        else
          pure { m with store }
      else
        pure m
  | .recycle b => do
      let (_, store) ← Fs.recycle b m.store
      pure { m with store }
  | .crash ending k ks => m.crash ending k ks

def Machine.run (m : Machine) (events : List Event) : Except FsPanic Machine :=
  events.foldlM Machine.step m

def Event.Ok (l : Log) : Event → Prop
  | .change b _ => l.Home b ∧ b < 2 ^ 32
  | _ => True

/-! ## Disks that recovery repairs -/

structure Recovers (l : Log) (d target : Nat → Block) : Prop where
  home : ∀ b ∈ headOf (d l.start), l.Home b
  fit : (headOf (d l.start)).length < l.size
  copies : ∀ i (hi : i < (headOf (d l.start)).length),
    d (l.start + i + 1) = target (headOf (d l.start))[i]
  rest : ∀ b, l.Home b → b ∉ headOf (d l.start) → d b = target b

variable {l : Log} {d target : Nat → Block}

theorem Recovers.of_empty (hsize : 0 < l.size) (hn : (d l.start).word 0 = 0)
    (hhome : ∀ b, l.Home b → d b = target b) : Recovers l d target := by
  have hhead := headOf_eq_nil hn
  constructor
  case home => simp [hhead]
  case fit => simpa [hhead] using hsize
  case copies => simp [hhead]
  case rest => exact fun b hb _ => hhome b hb

/-- A part of a sequence of writes either ends in its first half or comes through it. -/
theorem prefix_append_cases {α : Type} {ws xs ys : List α} (h : ws <+: xs ++ ys) :
    ws <+: xs ∨ ∃ zs, zs <+: ys ∧ ws = xs ++ zs := by
  cases List.prefix_or_prefix_of_prefix h (List.prefix_append xs ys) with
  | inl hin => exact Or.inl hin
  | inr hthrough =>
      obtain ⟨zs, rfl⟩ := hthrough
      exact Or.inr ⟨zs, (List.prefix_append_right_inj xs).mp h, rfl⟩

theorem mem_homeCopies {start tail : Nat} {bs : List Nat} {content : Nat → Block}
    {w : Nat × Block} (h : w ∈ homeCopies start content tail bs) :
    ∃ i, ∃ hi : i < bs.length, w = (bs[i], content (start + (tail + i) + 1)) := by
  induction bs generalizing tail with
  | nil => exact absurd h List.not_mem_nil
  | cons b bs ih =>
      cases List.mem_cons.mp h with
      | inl hhead => exact ⟨0, Nat.zero_lt_succ _, by rw [hhead]; rfl⟩
      | inr hrest =>
          obtain ⟨i, hi, hw⟩ := ih hrest
          refine ⟨i + 1, Nat.succ_lt_succ hi, ?_⟩
          rw [hw, List.getElem_cons_succ, Nat.add_right_comm tail 1 i, Nat.add_assoc tail i 1]

theorem map_fst_homeCopies {start tail : Nat} {bs : List Nat} {content : Nat → Block} :
    (homeCopies start content tail bs).map Prod.fst = bs := by
  induction bs generalizing tail with
  | nil => rfl
  | cons b bs ih => rw [homeCopies, List.map_cons, ih]

/-! ## Recovery -/

def recoveryWrites (l : Log) (d : Nat → Block) (empty : Block) : List (Nat × Block) :=
  homeCopies l.start d 0 (headOf (d l.start)) ++ [(l.start, empty)]

theorem Recovers.of_prefix {ws : List (Nat × Block)} (h : Recovers l d target)
    (hws : ws <+: homeCopies l.start d 0 (headOf (d l.start))) :
    Recovers l (applyWrites ws d) target := by
  have hwrites : ∀ b ∈ ws.map Prod.fst, b ∈ headOf (d l.start) := by
    intro b hb
    have hmem := (hws.map Prod.fst).subset hb
    rwa [map_fst_homeCopies] at hmem
  have hlog : ∀ i < l.size, applyWrites ws d (l.start + i) = d (l.start + i) := by
    intro i hi
    apply applyWrites_of_notMem
    intro hmem
    exact (h.home _ (hwrites _ hmem)).ne hi rfl
  have hfit := h.fit
  have hhead : applyWrites ws d l.start = d l.start := hlog 0 (by omega)
  constructor
  case home =>
      rw [hhead]
      exact h.home
  case fit =>
      rw [hhead]
      exact hfit
  case copies =>
      rw [hhead]
      intro i hi
      rw [Nat.add_assoc, hlog (i + 1) (by omega)]
      exact h.copies i hi
  case rest =>
      rw [hhead]
      intro b hb hnot
      rw [applyWrites_of_notMem fun hmem => hnot (hwrites b hmem)]
      exact h.rest b hb hnot

theorem Recovers.installed {b : Nat} (h : Recovers l d target) (hb : l.Home b) :
    applyWrites (homeCopies l.start d 0 (headOf (d l.start))) d b = target b := by
  by_cases hmem : b ∈ headOf (d l.start)
  · apply applyWrites_of_mem
    · rw [map_fst_homeCopies]
      exact hmem
    · intro w hw hwb
      obtain ⟨i, hi, rfl⟩ := mem_homeCopies hw
      rw [← hwb, Nat.zero_add]
      exact h.copies i hi
  · rw [applyWrites_of_notMem]
    · exact h.rest b hb hmem
    · rw [map_fst_homeCopies]
      exact hmem

theorem Recovers.complete {empty : Block} (h : Recovers l d target) (hn : empty.word 0 = 0) :
    (applyWrites (recoveryWrites l d empty) d l.start).word 0 = 0 ∧
      ∀ b, l.Home b → applyWrites (recoveryWrites l d empty) d b = target b := by
  have hfit := h.fit
  rw [recoveryWrites, applyWrites_append, applyWrites_cons, applyWrites_nil]
  constructor
  case left => rwa [Function.update_self]
  case right =>
      intro b hb
      have hne : b ≠ l.start := hb.ne (i := 0) (by omega)
      rw [Function.update_of_ne hne]
      exact h.installed hb

theorem Recovers.interrupted {empty : Block} {ws : List (Nat × Block)}
    (h : Recovers l d target) (hn : empty.word 0 = 0)
    (hws : ws <+: recoveryWrites l d empty) : Recovers l (applyWrites ws d) target := by
  have hfit := h.fit
  cases prefix_append_cases hws with
  | inl hin => exact h.of_prefix hin
  | inr hthrough =>
      obtain ⟨zs, hzs, rfl⟩ := hthrough
      cases zs with
      | nil =>
          rw [List.append_nil]
          exact h.of_prefix (List.prefix_refl _)
      | cons z zs =>
          have hall : z :: zs = [(l.start, empty)] := by
            apply hzs.eq_of_length_le
            simp
          rw [hall]
          obtain ⟨hzero, htarget⟩ := h.complete hn
          exact Recovers.of_empty (by omega) hzero htarget

theorem recover_boot (h : Recovers l d target) :
    Total recoverFromLog (boot l d) fun _ s' =>
      s'.log = { start := l.start, size := l.size } ∧ ∃ empty : Block, empty.word 0 = 0 ∧
        Flushed (recoveryWrites l d empty) (boot l d) s' :=
  recoverFromLog_spec (s := boot l d) (fun _ => rfl) h.home h.fit

theorem failedRecoveries_ok (h : Recovers l d target) (ks : List Nat) :
    ∃ d', failedRecoveries l ks d = .ok d' ∧ Recovers l d' target := by
  induction ks generalizing d with
  | nil => exact ⟨d, rfl, h⟩
  | cons k ks ih =>
      obtain ⟨_, s', hrun, -, empty, hn, hflush⟩ := recover_boot h
      have hwrites : s'.writes = recoveryWrites l d empty := hflush.writes
      have hcrash : crashDuring recoverFromLog k (boot l d) =
          .ok (applyWrites ((recoveryWrites l d empty).take k) d) := by
        have hrun' : recoverFromLog { boot l d with writes := [] } = .ok ((), s') := hrun
        rw [crashDuring, hrun', ← hwrites]
        rfl
      obtain ⟨d', hd', hrec⟩ := ih (h.interrupted hn (List.take_prefix k _))
      refine ⟨d', ?_, hrec⟩
      rw [failedRecoveries, hcrash]
      exact hd'

/-! ## A crash in a commit -/

section

variable {content committed : Nat → Block} {full empty : Block} {ws : List (Nat × Block)}

theorem crash_in_writeLog (hsize : l.lh.length < l.size)
    (hclean : (d l.start).word 0 = 0) (hd : ∀ b, l.Home b → d b = committed b)
    (hws : ws <+: logCopies l.start content 0 l.lh) :
    Recovers l (applyWrites ws d) committed := by
  have hwrites : ∀ b ∈ ws.map Prod.fst, ∃ i < l.lh.length, b = l.start + (i + 1) := by
    intro b hb
    obtain ⟨w, hw, rfl⟩ := List.mem_map.mp hb
    obtain ⟨i, hi, heq⟩ := mem_logCopies (hws.subset hw)
    exact ⟨i, hi, by omega⟩
  apply Recovers.of_empty (by omega)
  · rw [applyWrites_of_notMem]
    · exact hclean
    · intro hmem
      obtain ⟨i, -, hi⟩ := hwrites _ hmem
      omega
  · intro b hb
    rw [applyWrites_of_notMem]
    · exact hd b hb
    · intro hmem
      obtain ⟨i, hi, heq⟩ := hwrites _ hmem
      exact hb.ne (by omega) heq

theorem crash_in_install (hsize : l.lh.length < l.size) (hhome : ∀ b ∈ l.lh, l.Home b)
    (hfull : headOf full = l.lh) (hd : ∀ b, l.Home b → d b = committed b)
    (htarget : ∀ b ∈ l.lh, content b = target b)
    (hrest : ∀ b, b ∉ l.lh → committed b = target b)
    (hws : ws <+: l.lh.map fun b => (b, content b)) :
    Recovers l (applyWrites (logCopies l.start content 0 l.lh ++ [(l.start, full)] ++ ws) d)
      target := by
  have hwrites : ∀ b ∈ ws.map Prod.fst, b ∈ l.lh := by
    intro b hb
    have hmem := (hws.map Prod.fst).subset hb
    simpa using hmem
  have hlog : ∀ i < l.size, l.start + i ∉ ws.map Prod.fst := by
    intro i hi hmem
    exact (hhome _ (hwrites _ hmem)).ne hi rfl
  have hstart : l.start ∉ ws.map Prod.fst := hlog 0 (by omega)
  have hcopies : ∀ b ∈ (logCopies l.start content 0 l.lh).map Prod.fst,
      ∃ i < l.lh.length, b = l.start + (i + 1) := by
    intro b hb
    obtain ⟨w, hw, rfl⟩ := List.mem_map.mp hb
    obtain ⟨i, hi, heq⟩ := mem_logCopies hw
    exact ⟨i, hi, by omega⟩
  have hhead : headOf (applyWrites (logCopies l.start content 0 l.lh ++
      [(l.start, full)] ++ ws) d l.start) = l.lh := by
    rw [applyWrites_append, applyWrites_of_notMem hstart, applyWrites_append,
      applyWrites_cons, applyWrites_nil, Function.update_self, hfull]
  constructor
  case home =>
      rw [hhead]
      exact hhome
  case fit =>
      rw [hhead]
      exact hsize
  case copies =>
      rw [hhead]
      intro i hi
      have hcopy : applyWrites (logCopies l.start content 0 l.lh) d (l.start + (0 + i) + 1) =
          content l.lh[i] := applyWrites_logCopies hi
      have hnext : l.start + i + 1 ∉ ws.map Prod.fst := hlog (i + 1) (by omega)
      rw [Nat.zero_add] at hcopy
      rw [← htarget _ (List.getElem_mem hi), applyWrites_append,
        applyWrites_of_notMem hnext, applyWrites_append, applyWrites_cons,
        applyWrites_nil, Function.update_of_ne (by omega), hcopy]
  case rest =>
      rw [hhead]
      intro b hb hnot
      have hne : b ≠ l.start := hb.ne (i := 0) (by omega)
      rw [applyWrites_append, applyWrites_of_notMem fun hmem => hnot (hwrites b hmem),
        applyWrites_append, applyWrites_cons, applyWrites_nil, Function.update_of_ne hne,
        applyWrites_of_notMem, hd b hb, hrest b hnot]
      intro hmem
      obtain ⟨i, hi, heq⟩ := hcopies b hmem
      exact hb.ne (by omega) heq

theorem installed_home {b : Nat} (hsize : l.lh.length < l.size)
    (hd : ∀ b, l.Home b → d b = committed b) (htarget : ∀ b ∈ l.lh, content b = target b)
    (hrest : ∀ b, b ∉ l.lh → committed b = target b) (hb : l.Home b) :
    applyWrites (logCopies l.start content 0 l.lh ++ [(l.start, full)] ++
      l.lh.map fun b => (b, content b)) d b = target b := by
  rw [applyWrites_append]
  by_cases hmem : b ∈ l.lh
  · apply applyWrites_of_mem
    · simpa using hmem
    · intro w hw hwb
      obtain ⟨c, hc, rfl⟩ := List.mem_map.mp hw
      rw [← hwb]
      exact htarget c hc
  · have hne : b ≠ l.start := hb.ne (i := 0) (by omega)
    rw [applyWrites_of_notMem (by simpa using hmem), applyWrites_append, applyWrites_cons,
      applyWrites_nil, Function.update_of_ne hne, applyWrites_of_notMem, hd b hb, hrest b hmem]
    intro hcopy
    obtain ⟨w, hw, rfl⟩ := List.mem_map.mp hcopy
    obtain ⟨i, hi, heq⟩ := mem_logCopies hw
    exact hb.ne (i := 0 + i + 1) (by omega) heq

theorem Recovers.erased (hsize : 0 < l.size) (hempty : empty.word 0 = 0)
    (h : ∀ b, l.Home b → d b = target b) :
    Recovers l (Function.update d l.start empty) target := by
  apply Recovers.of_empty hsize
  · rwa [Function.update_self]
  · intro b hb
    have hne : b ≠ l.start := hb.ne (i := 0) (by omega)
    rw [Function.update_of_ne hne]
    exact h b hb

theorem commit_complete (hsize : l.lh.length < l.size) (hempty : empty.word 0 = 0)
    (hd : ∀ b, l.Home b → d b = committed b) (htarget : ∀ b ∈ l.lh, content b = target b)
    (hrest : ∀ b, b ∉ l.lh → committed b = target b) :
    (applyWrites (commitWrites l content full empty) d l.start).word 0 = 0 ∧
      ∀ b, l.Home b → applyWrites (commitWrites l content full empty) d b = target b := by
  rw [commitWrites, applyWrites_append, applyWrites_cons, applyWrites_nil]
  constructor
  case left => rwa [Function.update_self]
  case right =>
      intro b hb
      have hne : b ≠ l.start := hb.ne (i := 0) (by omega)
      rw [Function.update_of_ne hne]
      exact installed_home hsize hd htarget hrest hb

theorem commit_crash (hsize : l.lh.length < l.size) (hhome : ∀ b ∈ l.lh, l.Home b)
    (hfull : headOf full = l.lh) (hempty : empty.word 0 = 0)
    (hclean : (d l.start).word 0 = 0) (hd : ∀ b, l.Home b → d b = committed b)
    (htarget : ∀ b ∈ l.lh, content b = target b)
    (hrest : ∀ b, b ∉ l.lh → committed b = target b)
    (hws : ws <+: commitWrites l content full empty) :
    Recovers l (applyWrites ws d) committed ∨ Recovers l (applyWrites ws d) target := by
  rw [commitWrites, List.append_assoc, List.append_assoc] at hws
  cases prefix_append_cases hws with
  | inl hcopies => exact Or.inl (crash_in_writeLog hsize hclean hd hcopies)
  | inr hthrough =>
      obtain ⟨zs, hzs, rfl⟩ := hthrough
      cases zs with
      | nil =>
          rw [List.append_nil]
          exact Or.inl (crash_in_writeLog hsize hclean hd (List.prefix_refl _))
      | cons z zs =>
          rw [List.singleton_append, List.cons_prefix_cons] at hzs
          obtain ⟨rfl, hzs⟩ := hzs
          right
          rw [← List.singleton_append, ← List.append_assoc]
          cases prefix_append_cases hzs with
          | inl hin => exact crash_in_install hsize hhome hfull hd htarget hrest hin
          | inr hdone =>
              obtain ⟨us, hus, rfl⟩ := hdone
              have hall := crash_in_install hsize hhome hfull hd htarget hrest
                (List.prefix_refl _)
              cases us with
              | nil =>
                  rw [List.append_nil]
                  exact hall
              | cons u us =>
                  have hlast : u :: us = [(l.start, empty)] := by
                    apply hus.eq_of_length_le
                    simp
                  rw [hlast, ← List.append_assoc, applyWrites_append, applyWrites_cons,
                    applyWrites_nil]
                  apply Recovers.erased (by omega) hempty
                  intro b hb
                  exact installed_home hsize hd htarget hrest hb

end

end SyscallSched.Xv6.Fs
