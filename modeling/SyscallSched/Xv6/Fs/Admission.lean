import Mathlib.Algebra.Order.BigOperators.Group.Finset
import Mathlib.Algebra.Order.Ring.Int
import Mathlib.Data.Finset.Card
import Mathlib.Order.Interval.Finset.Nat
import SyscallSched.Xv6.Fs.Commit

/-!
# Admission to the log

Operations of several processes run between `begin_op` and `end_op` in any
order.  `begin_op` reserves `MAXOPBLOCKS` entries for each of them out of
`LOGSIZE`, while `log_write` counts the block of the header too.
-/

namespace SyscallSched.Xv6.Fs

open SyscallSched.Foundation

/-- `active` are the operations between `begin_op` and `end_op`, `logged` the
blocks that each of them has written, and `group` the blocks written since the
last commit. -/
structure Ops where
  store : Store
  active : Finset Nat := ∅
  logged : Nat → Finset Nat := fun _ => ∅
  group : Finset Nat := ∅

inductive OpEvent where
  | beginOp (t : Nat)
  | logWrite (t b : Nat)
  | endOp (t : Nat)
  /-- The committer finishes. -/
  | commit
  deriving DecidableEq, Repr

def Ops.started (o : Ops) (t : Nat) : Bool × Store → Ops
  | (true, store) =>
      { o with store, active := insert t o.active, logged := Function.update o.logged t ∅ }
  | (false, store) => { o with store }

def Ops.wrote (o : Ops) (t b : Nat) (store : Store) : Ops :=
  { o with
    store
    logged := Function.update o.logged t (insert b (o.logged t))
    group := insert b o.group }

def Ops.step (o : Ops) : OpEvent → Except FsPanic Ops
  | .beginOp t =>
      if t ∈ o.active then pure o
      else do
        let r ← Fs.beginOp o.store
        pure (o.started t r)
  | .logWrite t b =>
      if t ∈ o.active then do
        let (_, store) ← Fs.logWrite b o.store
        pure (o.wrote t b store)
      else pure o
  | .endOp t =>
      if t ∈ o.active then do
        let (_, store) ← Fs.endOp o.store
        pure { o with store, active := o.active.erase t }
      else pure o
  | .commit =>
      if o.store.log.committing then do
        let (_, store) ← Fs.endCommit o.store
        pure { o with store, group := ∅ }
      else pure o

def Ops.run (o : Ops) (events : List OpEvent) : Except FsPanic Ops :=
  events.foldlM Ops.step o

/-- Before the first operation, with the geometry that `mkfs` writes. -/
def Ops.start (logstart : Nat) (disk : Nat → Block) : Ops :=
  { store := { disk, cache := fun _ => none, log := { start := logstart, size := logSize } } }

/-- `p` holds of every step of a run. -/
def Ops.Along (p : Ops → OpEvent → Prop) : Ops → List OpEvent → Prop
  | _, [] => True
  | o, e :: events => p o e ∧ ∀ o', o.step e = .ok o' → Ops.Along p o' events

def Ops.Modest (n : Nat) (o : Ops) : OpEvent → Prop
  | .logWrite t b => t ∈ o.active → (insert b (o.logged t)).card ≤ n
  | _ => True

/-- The operations since the last commit have written fewer than `LOGSIZE - 1`
blocks before each `log_write`. -/
def Ops.Fits (o : Ops) : OpEvent → Prop
  | .logWrite t _ => t ∈ o.active → o.group.card < logSize - 1
  | _ => True

instance (n : Nat) (o : Ops) : ∀ e, Decidable (o.Modest n e)
  | .logWrite t b => inferInstanceAs (Decidable (t ∈ o.active → (insert b (o.logged t)).card ≤ n))
  | .beginOp _ | .endOp _ | .commit => inferInstanceAs (Decidable True)

instance (o : Ops) : ∀ e, Decidable (o.Fits e)
  | .logWrite t _ => inferInstanceAs (Decidable (t ∈ o.active → o.group.card < logSize - 1))
  | .beginOp _ | .endOp _ | .commit => inferInstanceAs (Decidable True)

instance Ops.decidableAlong (p : Ops → OpEvent → Prop) [∀ o e, Decidable (p o e)] :
    ∀ (events : List OpEvent) (o : Ops), Decidable (o.Along p events)
  | [], _ => isTrue trivial
  | e :: events, o =>
      match h : o.step e with
      | .ok o' =>
          have := Ops.decidableAlong p events o'
          decidable_of_iff (p o e ∧ o'.Along p events) (by simp [Ops.Along, h])
      | .error _ => decidable_of_iff (p o e) (by simp [Ops.Along, h])

/-! ## The log agrees with the operations -/

structure Ops.Counted (o : Ops) : Prop where
  size : o.store.log.size = logSize
  outstanding : o.store.log.outstanding = o.active.card
  quiet : o.store.log.committing = true → o.active = ∅
  distinct : o.store.log.lh.Nodup
  group : o.store.log.lh.toFinset = o.group

variable {o o' : Ops} {s : Store}

theorem Ops.Counted.length (h : o.Counted) : o.store.log.lh.length = o.group.card := by
  rw [← h.group, List.toFinset_card_of_nodup h.distinct]

theorem Ops.Counted.start (logstart : Nat) (disk : Nat → Block) :
    (Ops.start logstart disk).Counted := by
  constructor <;> simp [Ops.start]

theorem writeLogFrom_log {start tail : Nat} {bs : List Nat} :
    Total (writeLogFrom start tail bs) s fun _ s' => s'.log = s.log := by
  induction bs generalizing s tail with
  | nil => exact Total.pure rfl
  | cons b bs ih =>
      rw [writeLogFrom]
      apply Total.bind_eq bread_run
      apply Total.bind_eq bread_run
      apply Total.bind_eq setData_run
      apply Total.bind_eq bwrite_run
      apply Total.bind_eq brelse_run
      apply Total.bind_eq brelse_run
      apply ih.mono
      intro _ s' hlog
      simpa using hlog

theorem installFrom_log {recovering : Bool} {start tail : Nat} {bs : List Nat} :
    Total (installFrom recovering start tail bs) s fun _ s' => s'.log = s.log := by
  induction bs generalizing s tail with
  | nil => exact Total.pure rfl
  | cons b bs ih =>
      rw [installFrom]
      apply Total.bind_eq bread_run
      apply Total.bind_eq bread_run
      apply Total.bind_eq setData_run
      apply Total.bind_eq bwrite_run
      apply Total.bind bunpinUnless_spec
      intro _ t ht
      apply Total.bind_eq brelse_run
      apply Total.bind_eq brelse_run
      apply ih.mono
      intro _ s' hlog
      simpa [ht.2.2.2] using hlog

theorem commit_log : Total commit s fun _ s' => s'.log = { s.log with lh := [] } := by
  rw [commit]
  apply Total.bind_eq get_run
  by_cases hn : 0 < s.log.lh.length
  · rw [if_pos hn, writeLog]
    apply Total.bind (Total.bind_eq get_run writeLogFrom_log)
    intro _ s₁ h₁
    apply Total.bind writeHead_spec
    intro _ s₂ h₂
    rw [installTrans]
    apply Total.bind (Total.bind_eq get_run installFrom_log)
    intro _ s₃ h₃
    apply Total.bind_eq (a := ()) (t := { s₃ with log := { s₃.log with lh := [] } }) rfl
    apply writeHead_spec.mono
    intro _ s' h'
    simp [h'.2, h₃, h₂.2, h₁]
  · rw [if_neg hn]
    have hnil : s.log.lh = [] := by simpa using hn
    exact Total.pure (by rw [← hnil])

/-! ## Steps -/

theorem Ops.Counted.beginOp (h : o.Counted) (t : Nat) :
    ∃ o', o.step (.beginOp t) = .ok o' ∧ o'.Counted := by
  rw [Ops.step]
  by_cases hactive : t ∈ o.active
  · rw [if_pos hactive]
    exact ⟨o, rfl, h⟩
  · rw [if_neg hactive, beginOp_run]
    refine ⟨_, rfl, ?_⟩
    by_cases hadmits : o.store.log.Admits
    · rw [if_pos hadmits]
      constructor
      case size => exact h.size
      case outstanding => simp [Ops.started, hactive, h.outstanding]
      case quiet =>
          intro hc
          have hidle : o.store.log.committing = false := hadmits.1
          simp [Ops.started, hidle] at hc
      case distinct => exact h.distinct
      case group => exact h.group
    · rw [if_neg hadmits]
      exact ⟨h.size, h.outstanding, h.quiet, h.distinct, h.group⟩

/-- The guard of `log_write`, read off the operations. -/
theorem Ops.Counted.full_iff (h : o.Counted) :
    o.store.log.Full ↔ logSize - 1 ≤ o.group.card := by
  rw [Log.Full, h.length, h.size]
  omega

theorem Ops.Counted.logWrite {t b : Nat} (h : o.Counted) (hfits : o.Fits (.logWrite t b)) :
    ∃ o', o.step (.logWrite t b) = .ok o' ∧ o'.Counted := by
  rw [Ops.step]
  by_cases hactive : t ∈ o.active
  · have hroom : ¬ o.store.log.Full := by
      rw [h.full_iff]
      have := hfits hactive
      omega
    have ho : 0 < o.store.log.outstanding := by
      rw [h.outstanding]
      exact Finset.card_pos.mpr ⟨t, hactive⟩
    rw [if_pos hactive, logWrite_run hroom ho]
    refine ⟨_, rfl, ?_⟩
    by_cases hb : b ∈ o.store.log.lh
    · rw [if_pos hb]
      have hin : b ∈ o.group := by simpa [← h.group] using hb
      exact ⟨h.size, h.outstanding, h.quiet, h.distinct, by simpa [Ops.wrote, hin] using h.group⟩
    · rw [if_neg hb]
      constructor
      case size => exact h.size
      case outstanding => exact h.outstanding
      case quiet => exact h.quiet
      case distinct =>
          have hnew := h.distinct.concat hb
          rwa [List.concat_eq_append] at hnew
      case group => simp [Ops.wrote, ← h.group, List.toFinset_append]
  · rw [if_neg hactive]
    exact ⟨o, rfl, h⟩

theorem Ops.Counted.idle {t : Nat} (h : o.Counted) (ht : t ∈ o.active) :
    o.store.log.committing = false := by
  cases hc : o.store.log.committing with
  | false => rfl
  | true => simp [h.quiet hc] at ht

theorem Ops.Counted.endOp (h : o.Counted) (t : Nat) :
    ∃ o', o.step (.endOp t) = .ok o' ∧ o'.Counted := by
  rw [Ops.step]
  by_cases hactive : t ∈ o.active
  · rw [if_pos hactive, endOp_run (h.idle hactive), h.outstanding]
    have hcard := Finset.card_erase_of_mem hactive
    by_cases hlast : o.active.card - 1 = 0
    · rw [if_pos hlast]
      refine ⟨_, rfl, ?_⟩
      have hnone : o.active.erase t = ∅ := Finset.card_eq_zero.mp (hcard.trans hlast)
      constructor
      case size => exact h.size
      case outstanding => simp [hnone]
      case quiet => simp [hnone]
      case distinct => exact h.distinct
      case group => exact h.group
    · rw [if_neg hlast]
      refine ⟨_, rfl, ?_⟩
      constructor
      case size => exact h.size
      case outstanding => exact hcard.symm
      case quiet => simp [h.idle hactive]
      case distinct => exact h.distinct
      case group => exact h.group
  · rw [if_neg hactive]
    exact ⟨o, rfl, h⟩

theorem Ops.Counted.commit (h : o.Counted) : ∃ o', o.step .commit = .ok o' ∧ o'.Counted := by
  rw [Ops.step]
  by_cases hc : o.store.log.committing
  · rw [if_pos hc, endCommit]
    obtain ⟨_, s', hrun, hlog⟩ := commit_log (s := o.store)
    rw [Total.run_bind hrun]
    refine ⟨_, rfl, ?_⟩
    constructor
    case size => simp [hlog, h.size]
    case outstanding => simp [hlog, h.outstanding]
    case quiet => simp
    case distinct => simp [hlog]
    case group => simp [hlog]
  · rw [if_neg hc]
    exact ⟨o, rfl, h⟩

theorem Ops.Counted.step {e : OpEvent} (h : o.Counted) (hfits : o.Fits e) :
    ∃ o', o.step e = .ok o' ∧ o'.Counted := by
  cases e with
  | beginOp t => exact h.beginOp t
  | logWrite t b => exact h.logWrite hfits
  | endOp t => exact h.endOp t
  | commit => exact h.commit

theorem Ops.Counted.step_of_not_fits {e : OpEvent} (h : o.Counted) (hfits : ¬ o.Fits e) :
    o.step e = .error .tooBigTransaction := by
  cases e with
  | logWrite t b =>
      simp only [Ops.Fits, Classical.not_imp, Nat.not_lt] at hfits
      rw [Ops.step, if_pos hfits.1, logWrite_full (h.full_iff.mpr hfits.2)]
      rfl
  | beginOp t => exact absurd trivial hfits
  | endOp t => exact absurd trivial hfits
  | commit => exact absurd trivial hfits

/-- `log_write` finds room in every step exactly when the operations of each
commit fit. -/
theorem Ops.Counted.run_iff {events : List OpEvent} (h : o.Counted) :
    o.run events ≠ .error .tooBigTransaction ↔ o.Along Ops.Fits events := by
  induction events generalizing o with
  | nil =>
      constructor
      · intro _
        trivial
      · intro _ hrun
        cases hrun
  | cons e events ih =>
      by_cases hfits : o.Fits e
      · obtain ⟨o', hstep, h'⟩ := h.step hfits
        have hrun : o.run (e :: events) = o'.run events := by
          rw [Ops.run, List.foldlM_cons, hstep]
          rfl
        have halong : o.Along Ops.Fits (e :: events) ↔ o'.Along Ops.Fits events := by
          simp [Ops.Along, hfits, hstep]
        rw [hrun, halong]
        exact ih h'
      · have hrun : o.run (e :: events) = .error .tooBigTransaction := by
          rw [Ops.run, List.foldlM_cons, h.step_of_not_fits hfits]
          rfl
        simp [hrun, Ops.Along, hfits]

/-! ## Operations that leave an entry of their reservation unused -/

/-- The entries that operations of at most `MAXOPBLOCKS - 1` blocks can still take. -/
def Ops.pending (o : Ops) : Nat := ∑ t ∈ o.active, (maxOpBlocks - 1 - (o.logged t).card)

structure Ops.Reserved (o : Ops) : Prop where
  counted : o.Counted
  inside : ∀ t ∈ o.active, o.logged t ⊆ o.group
  settled : o.store.log.committing = false → o.active = ∅ → o.group = ∅
  room : o.group.card + o.pending ≤ logSize - 2

theorem Ops.Reserved.start (logstart : Nat) (disk : Nat → Block) :
    (Ops.start logstart disk).Reserved := by
  constructor
  case counted => exact Ops.Counted.start logstart disk
  all_goals simp [Ops.start, Ops.pending]

theorem Ops.pending_le (o : Ops) : o.pending ≤ o.active.card * (maxOpBlocks - 1) := by
  apply Finset.sum_le_card_nsmul
  intro t _
  omega

theorem Ops.Reserved.fits {e : OpEvent} (h : o.Reserved) : o.Fits e := by
  have hroom := h.room
  have hsize : logSize = 30 := rfl
  cases e with
  | logWrite t b =>
      intro _
      omega
  | beginOp t => trivial
  | endOp t => trivial
  | commit => trivial

theorem Ops.Reserved.beginOp {t : Nat} (h : o.Reserved)
    (hstep : o.step (.beginOp t) = .ok o') (hcounted : o'.Counted) : o'.Reserved := by
  rw [Ops.step] at hstep
  by_cases hactive : t ∈ o.active
  · rw [if_pos hactive] at hstep
    cases hstep
    exact h
  rw [if_neg hactive, beginOp_run] at hstep
  by_cases hadmits : o.store.log.Admits
  · rw [if_pos hadmits] at hstep
    cases hstep
    have hpending : (o.started t (true, o.store)).pending = o.pending + (maxOpBlocks - 1) := by
      simp only [Ops.pending, Ops.started]
      rw [Finset.sum_insert hactive, Nat.add_comm]
      congr 1
      · apply Finset.sum_congr rfl
        intro u hu
        have hne : u ≠ t := fun heq => hactive (heq ▸ hu)
        simp [hne]
      · simp
    constructor
    case counted => exact hcounted
    case inside =>
        intro u hu
        by_cases hut : u = t
        · simp [Ops.started, hut]
        · have hold : u ∈ o.active := by simpa [Ops.started, hut] using hu
          simpa [Ops.started, hut] using h.inside u hold
    case settled => simp [Ops.started]
    case room =>
        have hsize : logSize = 30 := rfl
        have hmax : maxOpBlocks = 10 := rfl
        have hlen := hadmits.2
        have hle := o.pending_le
        rw [h.counted.length, h.counted.outstanding, hmax] at hlen
        rw [hmax] at hle
        refine Nat.le_trans (Nat.add_le_add_left (Nat.le_of_eq hpending) _) ?_
        by_cases hnone : o.active = ∅
        · have hempty := h.settled hadmits.1 hnone
          simp [Ops.started, hempty, Ops.pending, hnone]
          omega
        · have hpos := Finset.card_pos.mpr (Finset.nonempty_iff_ne_empty.mpr hnone)
          simp only [Ops.started]
          omega
  · rw [if_neg hadmits] at hstep
    cases hstep
    exact ⟨hcounted, h.inside, h.settled, h.room⟩

theorem Ops.pending_wrote {t b : Nat} (store : Store) (ht : t ∈ o.active)
    (hnew : b ∉ o.logged t) (hmodest : o.Modest (maxOpBlocks - 1) (.logWrite t b)) :
    (o.wrote t b store).pending + 1 = o.pending := by
  have hcard := hmodest ht
  rw [Finset.card_insert_of_notMem hnew] at hcard
  simp only [Ops.pending, Ops.wrote]
  rw [← Finset.add_sum_erase _ _ ht, ← Finset.add_sum_erase (a := t) _ _ ht]
  have hrest : ∑ u ∈ o.active.erase t, (maxOpBlocks - 1 -
      (Function.update o.logged t (insert b (o.logged t)) u).card) =
      ∑ u ∈ o.active.erase t, (maxOpBlocks - 1 - (o.logged u).card) := by
    apply Finset.sum_congr rfl
    intro u hu
    simp [Finset.ne_of_mem_erase hu]
  rw [hrest, Function.update_self, Finset.card_insert_of_notMem hnew]
  omega

theorem Ops.Reserved.logWrite {t b : Nat} (h : o.Reserved)
    (hmodest : o.Modest (maxOpBlocks - 1) (.logWrite t b))
    (hstep : o.step (.logWrite t b) = .ok o') (hcounted : o'.Counted) : o'.Reserved := by
  rw [Ops.step] at hstep
  by_cases hactive : t ∈ o.active
  · rw [if_pos hactive] at hstep
    obtain ⟨⟨_, store⟩, hrun, hend⟩ := except_bind_ok hstep
    have hlog := (logWrite_effect hrun).2.2.1
    cases hend
    constructor
    case counted => exact hcounted
    case inside =>
        intro u hu
        by_cases hut : u = t
        · simpa [Ops.wrote, hut] using Finset.insert_subset_insert b (h.inside t hactive)
        · simpa [Ops.wrote, hut] using (h.inside u hu).trans (Finset.subset_insert b o.group)
    case settled =>
        intro _ hnone
        have hnone' : o.active = ∅ := hnone
        rw [hnone'] at hactive
        exact absurd hactive (Finset.notMem_empty t)
    case room =>
        have hroom := h.room
        by_cases hold : b ∈ o.logged t
        · have hin : b ∈ o.group := h.inside t hactive hold
          simpa [Ops.pending, Ops.wrote, hold, hin] using hroom
        · have hless := Ops.pending_wrote store hactive hold hmodest
          have hcard : (o.wrote t b store).group.card ≤ o.group.card + 1 :=
            Finset.card_insert_le b o.group
          omega
  · rw [if_neg hactive] at hstep
    cases hstep
    exact h

theorem Ops.Reserved.endOp {t : Nat} (h : o.Reserved) (hstep : o.step (.endOp t) = .ok o')
    (hcounted : o'.Counted) : o'.Reserved := by
  rw [Ops.step] at hstep
  by_cases hactive : t ∈ o.active
  · rw [if_pos hactive, endOp_run (h.counted.idle hactive), h.counted.outstanding] at hstep
    have hcard := Finset.card_erase_of_mem hactive
    have hsub := Finset.erase_subset t o.active
    have hpending : ∑ u ∈ o.active.erase t, (maxOpBlocks - 1 - (o.logged u).card) ≤ o.pending :=
      Finset.sum_le_sum_of_subset hsub
    have hroom := h.room
    by_cases hlast : o.active.card - 1 = 0
    · rw [if_pos hlast] at hstep
      cases hstep
      refine ⟨hcounted, fun u hu => h.inside u (hsub hu), by simp, ?_⟩
      simp only [Ops.pending]
      omega
    · rw [if_neg hlast] at hstep
      cases hstep
      refine ⟨hcounted, fun u hu => h.inside u (hsub hu), ?_, ?_⟩
      · intro _ hnone
        have hzero : (o.active.erase t).card = 0 := Finset.card_eq_zero.mpr hnone
        omega
      · simp only [Ops.pending]
        omega
  · rw [if_neg hactive] at hstep
    cases hstep
    exact h

theorem Ops.Reserved.commit (h : o.Reserved) (hstep : o.step .commit = .ok o')
    (hcounted : o'.Counted) : o'.Reserved := by
  rw [Ops.step] at hstep
  by_cases hc : o.store.log.committing
  · rw [if_pos hc] at hstep
    obtain ⟨⟨_, store⟩, hrun, hend⟩ := except_bind_ok hstep
    cases hend
    have hnone := h.counted.quiet hc
    constructor
    case counted => exact hcounted
    all_goals simp [Ops.pending, hnone]
  · rw [if_neg hc] at hstep
    cases hstep
    exact h

theorem Ops.Reserved.step {e : OpEvent} (h : o.Reserved)
    (hmodest : o.Modest (maxOpBlocks - 1) e) (hstep : o.step e = .ok o') : o'.Reserved := by
  obtain ⟨o₁, hstep₁, hcounted⟩ := h.counted.step (h.fits (e := e))
  rw [hstep₁] at hstep
  cases hstep
  cases e with
  | beginOp t => exact h.beginOp hstep₁ hcounted
  | logWrite t b => exact h.logWrite hmodest hstep₁ hcounted
  | endOp t => exact h.endOp hstep₁ hcounted
  | commit => exact h.commit hstep₁ hcounted

theorem Ops.Reserved.along {events : List OpEvent} (h : o.Reserved)
    (hmodest : o.Along (Ops.Modest (maxOpBlocks - 1)) events) : o.Along Ops.Fits events := by
  induction events generalizing o with
  | nil => trivial
  | cons e events ih =>
      exact ⟨h.fits, fun o' hstep => ih (h.step hmodest.1 hstep) (hmodest.2 o' hstep)⟩

/-- Operations that write fewer than `MAXOPBLOCKS` blocks never find the log full. -/
theorem modest_run (logstart : Nat) (disk : Nat → Block) (events : List OpEvent)
    (h : (Ops.start logstart disk).Along (Ops.Modest (maxOpBlocks - 1)) events) :
    (Ops.start logstart disk).run events ≠ .error .tooBigTransaction :=
  (Ops.Counted.start logstart disk).run_iff.mpr ((Ops.Reserved.start logstart disk).along h)

/-! ## The condition -/

theorem logWrite_fits_iff (logstart : Nat) (disk : Nat → Block) (events : List OpEvent) :
    (Ops.start logstart disk).run events ≠ .error .tooBigTransaction ↔
      (Ops.start logstart disk).Along Ops.Fits events :=
  (Ops.Counted.start logstart disk).run_iff

def threeOps : List OpEvent :=
  [.beginOp 0, .beginOp 1, .beginOp 2] ++
    (List.range 30).map fun i => .logWrite (i / 10) (100 + i)

theorem threeOps_panics :
    (Ops.start 2 fun _ _ => 0).Along (Ops.Modest maxOpBlocks) threeOps ∧
      (Ops.start 2 fun _ _ => 0).run threeOps = .error .tooBigTransaction := by
  constructor
  case left => decide +kernel
  case right =>
      have hfull : ¬ (Ops.start 2 fun _ _ => 0).Along Ops.Fits threeOps := by decide +kernel
      rwa [← (Ops.Counted.start 2 fun _ _ => 0).run_iff, not_not] at hfull

end SyscallSched.Xv6.Fs
