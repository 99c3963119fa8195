import SyscallSched.Xv6.Child
import SyscallSched.Xv6.Family.Model

/-!
# The calls on the process table

What each call that returns does to the table of states, pids and parents.
Memory, files and directories do not enter it, and neither does the difference
between a process that sleeps and one that can run.
-/

namespace SyscallSched.Xv6

open SyscallSched.Foundation
open Family

section

variable {α : Type} {k k' : Kernel} {p : Nat}

theorem inMem_ok {x : MemM α} {a : α} (h : inMem x k = .ok (a, k')) :
    ∃ mem, k' = { k with mem } := by
  rw [inMem] at h
  cases hx : x k.mem with
  | error e =>
      rw [hx] at h
      cases h
  | ok r =>
      rw [hx] at h
      cases h
      exact ⟨r.2, rfl⟩

theorem table_inMem (x : MemM α) : Unchanged Kernel.table (inMem x) := by
  intro k a k' h
  obtain ⟨mem, rfl⟩ := inMem_ok h
  rfl

theorem table_setProc (f : Proc → Proc) :
    (k.setProc p f).table = k.table.set p (f (k.proc p)).entry := by
  simp only [Kernel.table, Kernel.setProc, Kernel.mapProc, Table.set, Table.mk.injEq, and_true]
  funext q
  by_cases hq : q = p <;> simp [hq]

theorem table_set_self (t : Table) (p : Nat) : t.set p (t.entry p) = t := by
  simp only [Table.set]
  congr 1
  funext q
  by_cases hq : q = p <;> simp [hq]

theorem table_setProc_same {f : Proc → Proc} (hf : ∀ q, (f q).entry = q.entry) :
    Unchanged Kernel.table (setProc p f) := by
  apply Unchanged.of_modify
  intro k
  rw [table_setProc, hf]
  exact table_set_self k.table p

theorem table_setProc_ok {f : Proc → Proc} {a : Unit} (h : setProc p f k = .ok (a, k'))
    (hf : ∀ q, (f q).entry = q.entry) : k'.table = k.table :=
  table_setProc_same hf k a k' h

theorem table_getProc : Unchanged Kernel.table (getProc p) :=
  Unchanged.bind Unchanged.of_get fun _ => Unchanged.of_pure _

theorem table_wakeup {chan : Option Chan} : Unchanged Kernel.table (wakeup p chan) := by
  apply Unchanged.of_modify
  intro k
  simp only [Kernel.table, Kernel.mapProc, Table.mk.injEq, and_true]
  funext q
  by_cases hq : q ≠ p ∧ (k.proc q).state = .sleeping ∧ (k.proc q).chan = chan
  · rw [if_pos hq]
    simp [Proc.entry, ProcState.stage, hq.2.1]
  · rw [if_neg hq]

theorem table_forRange {n : Nat} {body : Nat → KernelM Unit}
    (h : ∀ i, Unchanged Kernel.table (body i)) :
    Unchanged Kernel.table (forM (List.range n) body) := by
  intro k a k' hrun
  apply forRange_ok (I := fun _ t => t.table = k.table) hrun rfl
  intro i u v b _ hu hbody
  exact (h i u b v hbody).trans hu

end

/-! ## Files and directories -/

section

variable {f ip p np pi : Nat}

theorem table_filedup : Unchanged Kernel.table (filedup f) := by
  intro k a k' h
  obtain ⟨-, rfl⟩ := filedup_ok h
  rfl

theorem table_iput : Unchanged Kernel.table (iput ip) := Unchanged.of_modify fun _ => rfl

theorem table_beginOp : Unchanged Kernel.table beginOp := Unchanged.of_modify fun _ => rfl

theorem table_endOp : Unchanged Kernel.table endOp := Unchanged.of_modify fun _ => rfl

theorem table_dupFiles : Unchanged Kernel.table (dupFiles p np) := by
  apply table_forRange
  intro i
  apply Unchanged.bind table_getProc
  intro q
  cases q.ofile i with
  | none => exact Unchanged.of_pure _
  | some f => exact Unchanged.bind table_filedup fun g => table_setProc_same fun _ => rfl

theorem table_dupCwd {cwd : Option Nat} : Unchanged Kernel.table (dupCwd cwd) := by
  intro k a k' h
  cases cwd with
  | none => cases h
  | some ip =>
      cases h
      rfl

theorem table_when {x : KernelM Unit} {c : Prop} [Decidable c] (hx : Unchanged Kernel.table x) :
    Unchanged Kernel.table (if c then x else pure ()) := by
  by_cases hc : c
  · rw [if_pos hc]
    exact hx
  · rw [if_neg hc]
    exact Unchanged.of_pure _

variable [Image]

theorem table_pipeclose {writable : Bool} :
    Unchanged Kernel.table (pipeclose p pi writable) := by
  have hend : Unchanged Kernel.table (do
      let k ← (get : KernelM Kernel)
      if (k.pipe pi).readopen = false ∧ (k.pipe pi).writeopen = false then inMem (kfree pi)
      else pure ()) :=
    Unchanged.bind Unchanged.of_get fun k => table_when (table_inMem _)
  cases writable with
  | true =>
      refine Unchanged.bind (Unchanged.of_modify ?_) fun _ =>
        Unchanged.bind table_wakeup fun _ => hend
      exact fun _ => rfl
  | false =>
      refine Unchanged.bind (Unchanged.of_modify ?_) fun _ =>
        Unchanged.bind table_wakeup fun _ => hend
      exact fun _ => rfl

theorem table_fileclose : Unchanged Kernel.table (fileclose p f) := by
  intro k a k' h
  rw [fileclose, Total.run_bind (a := k) (t := k) rfl] at h
  by_cases hnone : (k.file f).ref < 1
  · rw [if_pos hnone] at h
    cases h
  rw [if_neg hnone] at h
  by_cases hmore : 1 < (k.file f).ref
  · rw [if_pos hmore] at h
    cases h
    rfl
  rw [if_neg hmore] at h
  obtain ⟨_, u, hset, hclose⟩ := bind_ok h
  have hu : u.table = k.table := by
    cases hset
    rfl
  rw [← hu]
  cases htype : (k.file f).type with
  | none =>
      rw [htype] at hclose
      exact Unchanged.of_pure () u a k' hclose
  | pipe =>
      rw [htype] at hclose
      exact table_pipeclose u a k' hclose
  | inode =>
      rw [htype] at hclose
      have hput : Unchanged Kernel.table (do beginOp; iput (k.file f).ip; endOp) :=
        Unchanged.bind table_beginOp fun _ => Unchanged.bind table_iput fun _ => table_endOp
      exact hput u a k' hclose
  | device =>
      rw [htype] at hclose
      have hput : Unchanged Kernel.table (do beginOp; iput (k.file f).ip; endOp) :=
        Unchanged.bind table_beginOp fun _ => Unchanged.bind table_iput fun _ => table_endOp
      exact hput u a k' hclose

theorem table_closeFiles : Unchanged Kernel.table (closeFiles p) := by
  apply table_forRange
  intro i
  apply Unchanged.bind table_getProc
  intro q
  cases q.ofile i with
  | none => exact Unchanged.of_pure _
  | some f => exact Unchanged.bind table_fileclose fun _ => table_setProc_same fun _ => rfl

end

/-! ## Creating and freeing -/

section

variable [Image] {k k' : Kernel} {p : Nat}

theorem table_freeproc {a : Unit} (h : freeproc p k = .ok (a, k')) :
    k'.table = k.table.clear p := by
  rw [freeproc, Total.run_bind (a := k.proc p) (t := k) rfl] at h
  obtain ⟨_, k₁, htrapframe, h⟩ := bind_ok h
  obtain ⟨_, k₂, hpagetable, h⟩ := bind_ok h
  have hsame : k₂.table = k.table :=
    (table_inMem _ _ _ _ hpagetable).trans (table_inMem _ _ _ _ htrapframe)
  cases h
  rw [table_setProc, hsame]
  rfl

/-- A slot was taken, or none, or one was taken and given up again. -/
def Taken (k k' : Kernel) : Option Nat → Prop
  | some np => np < nproc ∧ (k.proc np).state = .unused ∧ k'.table = k.table.take np
  | none => k'.table = k.table ∨
      ∃ np < nproc, (k.proc np).state = .unused ∧ k'.table = (k.table.take np).clear np

theorem table_cleared {f : Proc → Proc} {u v w : Kernel} {a b : Unit}
    (hset : setProc p f u = .ok (b, w)) (hfree : freeproc p w = .ok (a, v)) :
    v.table = u.table.clear p := by
  rw [table_freeproc hfree]
  cases hset
  rw [table_setProc]
  simp only [Table.clear, Table.set, Table.mk.injEq, and_true]
  funext q
  by_cases hq : q = p <;> simp [hq]

theorem allocproc_taken {r : Option Nat} (h : allocproc k = .ok (r, k')) : Taken k k' r := by
  rw [allocproc, Total.run_bind (a := k) (t := k) rfl] at h
  cases hslot : k.unusedSlot with
  | none =>
      rw [hslot] at h
      cases h
      exact Or.inl rfl
  | some np =>
      rw [hslot] at h
      obtain ⟨hnp, hunused⟩ := unusedSlot_some hslot
      dsimp only at h
      rw [Total.run_bind (a := k.nextpid) (t := { k with nextpid := k.nextpid + 1 }) rfl] at h
      obtain ⟨_, k₁, htake, h⟩ := bind_ok h
      have htaken : k₁.table = k.table.take np := by
        cases htake
        rw [table_setProc]
        rfl
      obtain ⟨page, k₂, hpage, h⟩ := bind_ok h
      have h₂ : k₂.table = k.table.take np := (table_inMem _ _ _ _ hpage).trans htaken
      cases page with
      | none =>
          obtain ⟨_, k₃, hset, h⟩ := bind_ok h
          obtain ⟨_, k₄, hfree, h⟩ := bind_ok h
          cases h
          have hclear := table_cleared hset hfree
          exact Or.inr ⟨np, hnp, hunused, by rw [hclear, h₂]⟩
      | some trapframe =>
          obtain ⟨_, k₃, hset, h⟩ := bind_ok h
          have h₃ : k₃.table = k.table.take np :=
            (table_setProc_ok hset fun _ => rfl).trans h₂
          obtain ⟨table, k₄, htable, h⟩ := bind_ok h
          have h₄ : k₄.table = k.table.take np := (table_inMem _ _ _ _ htable).trans h₃
          cases table with
          | none =>
              obtain ⟨_, k₅, hset', h⟩ := bind_ok h
              obtain ⟨_, k₆, hfree, h⟩ := bind_ok h
              cases h
              have hclear := table_cleared hset' hfree
              exact Or.inr ⟨np, hnp, hunused, by rw [hclear, h₄]⟩
          | some pagetable =>
              obtain ⟨_, k₅, hset', h⟩ := bind_ok h
              cases h
              exact ⟨hnp, hunused, (table_setProc_ok hset' fun _ => rfl).trans h₄⟩

theorem forkCopy_taken {r : Option Nat} (h : forkCopy p k = .ok (r, k')) : Taken k k' r := by
  obtain ⟨found, k₁, halloc, h⟩ := bind_ok h
  have htaken := allocproc_taken halloc
  cases found with
  | none =>
      cases h
      exact htaken
  | some np =>
      obtain ⟨hnp, hunused, h₁⟩ := htaken
      dsimp only at h
      rw [Total.run_bind (a := k₁.proc p) (t := k₁) rfl,
        Total.run_bind (a := k₁.proc np) (t := k₁) rfl] at h
      obtain ⟨copied, k₂, hcopy, h⟩ := bind_ok h
      have h₂ : k₂.table = k.table.take np := (table_inMem _ _ _ _ hcopy).trans h₁
      cases copied with
      | false =>
          rw [if_neg Bool.false_ne_true] at h
          obtain ⟨_, k₃, hfree, h⟩ := bind_ok h
          cases h
          exact Or.inr ⟨np, hnp, hunused, by rw [table_freeproc hfree, h₂]⟩
      | true =>
          rw [if_pos rfl] at h
          obtain ⟨_, k₃, hsz, h⟩ := bind_ok h
          obtain ⟨_, k₄, htrapframe, h⟩ := bind_ok h
          obtain ⟨_, k₅, ha0, h⟩ := bind_ok h
          obtain ⟨_, k₆, hfiles, h⟩ := bind_ok h
          obtain ⟨cwd, k₇, hcwd, h⟩ := bind_ok h
          obtain ⟨_, k₈, hname, h⟩ := bind_ok h
          cases h
          refine ⟨hnp, hunused, ?_⟩
          calc k'.table = k₇.table := table_setProc_ok hname fun _ => rfl
            _ = k₆.table := table_dupCwd _ _ _ hcwd
            _ = k₅.table := table_dupFiles _ _ _ hfiles
            _ = k₄.table := table_inMem _ _ _ _ ha0
            _ = k₃.table := table_inMem _ _ _ _ htrapframe
            _ = k₂.table := table_setProc_ok hsz fun _ => rfl
            _ = k.table.take np := h₂

omit [Image] in
theorem setProc_setProc (f g : Proc → Proc) :
    (k.setProc p f).setProc p g = k.setProc p fun q => g (f q) := by
  simp only [Kernel.setProc, Kernel.mapProc]
  congr 1
  funext q
  by_cases hq : q = p <;> simp [hq]

theorem fork_parts {pid : Int} (h : fork p k = .ok (pid, k')) :
    ∃ r k₁, forkCopy p k = .ok (r, k₁) ∧ match r with
      | none => pid = -1 ∧ k' = k₁
      | some np => pid = (k₁.proc np).pid ∧
          (do forkAdopt p np; forkStart np : KernelM Unit) k₁ = .ok ((), k') := by
  rw [fork] at h
  obtain ⟨found, k₁, halloc, h⟩ := bind_ok h
  rw [forkCopy, Total.run_bind halloc]
  cases found with
  | none =>
      cases h
      exact ⟨none, k', rfl, rfl, rfl⟩
  | some np =>
      dsimp only at h ⊢
      rw [Total.run_bind (a := k₁.proc p) (t := k₁) rfl,
        Total.run_bind (a := k₁.proc np) (t := k₁) rfl] at h ⊢
      obtain ⟨copied, k₂, hcopy, h⟩ := bind_ok h
      rw [Total.run_bind hcopy]
      cases copied with
      | false =>
          rw [if_neg Bool.false_ne_true] at h ⊢
          obtain ⟨_, k₃, hfree, h⟩ := bind_ok h
          rw [Total.run_bind hfree]
          cases h
          exact ⟨none, k', rfl, rfl, rfl⟩
      | true =>
          rw [if_pos rfl] at h ⊢
          obtain ⟨_, k₃, hsz, h⟩ := bind_ok h
          obtain ⟨_, k₄, htrapframe, h⟩ := bind_ok h
          obtain ⟨_, k₅, ha0, h⟩ := bind_ok h
          obtain ⟨_, k₆, hfiles, h⟩ := bind_ok h
          obtain ⟨cwd, k₇, hcwd, h⟩ := bind_ok h
          rw [Total.run_bind hsz, Total.run_bind htrapframe, Total.run_bind ha0,
            Total.run_bind hfiles, Total.run_bind hcwd]
          have hsame : k₇.table = k₁.table := by
            calc k₇.table = k₆.table := table_dupCwd _ _ _ hcwd
              _ = k₅.table := table_dupFiles _ _ _ hfiles
              _ = k₄.table := table_inMem _ _ _ _ ha0
              _ = k₃.table := table_inMem _ _ _ _ htrapframe
              _ = k₂.table := table_setProc_ok hsz fun _ => rfl
              _ = k₁.table := table_inMem _ _ _ _ hcopy
          have hpid : (k₇.proc np).pid = (k₁.proc np).pid :=
            congrArg (fun t : Table => (t.entry np).pid) hsame
          cases h
          refine ⟨some np, _, rfl, ?_, ?_⟩
          · simp [Kernel.setProc, Kernel.mapProc, hpid]
          · change Except.ok ((), ((k₇.setProc np _).setProc np _).setProc np _) = _
            rw [setProc_setProc, setProc_setProc]

/-! ## `exit` and `wait` -/

omit [Image] in
theorem table_reparent {a : Unit} (h : reparent p k = .ok (a, k')) :
    k'.table = k.table.reparent p nproc := by
  rw [reparent, Total.run_bind (a := k) (t := k) rfl] at h
  apply forRange_ok (I := fun n t => t.table = k.table.reparent p n) h (reparent_zero _).symm
  intro i u v b _ hu hbody
  rw [Total.run_bind (a := u.proc i) (t := u) rfl] at hbody
  have hentry : (u.proc i).entry = (k.proc i).entry := by
    have := congrArg (fun t => t.entry i) hu
    rwa [reparent_entry_self] at this
  have hparent : (k.table.entry i).parent = (u.proc i).parent :=
    congrArg Entry.parent hentry.symm
  rw [reparent_succ]
  by_cases hchild : (u.proc i).parent = some p
  · rw [if_pos hchild] at hbody
    obtain ⟨_, w, hset, hwake⟩ := bind_ok hbody
    rw [if_pos (hparent.trans hchild), table_wakeup _ _ _ hwake]
    cases hset
    rw [table_setProc, hu]
    change _ = (k.table.reparent p i).set i { (k.proc i).entry with parent := k.initproc }
    rw [← hentry]
    rfl
  · rw [if_neg hchild] at hbody
    rw [if_neg (hparent ▸ hchild)]
    cases hbody
    exact hu

theorem exit_table {status : Int} {a : Unit} (h : exit p status k = .ok (a, k')) :
    k.initproc ≠ some p ∧ k'.table = (k.table.reparent p nproc).bury p status := by
  rw [exit, Total.run_bind (a := k) (t := k) rfl] at h
  by_cases hinit : k.initproc = some p
  · rw [if_pos hinit] at h
    cases h
  rw [if_neg hinit] at h
  refine ⟨hinit, ?_⟩
  obtain ⟨_, k₁, hclose, h⟩ := bind_ok h
  rw [Total.run_bind (a := k₁.proc p) (t := k₁) rfl] at h
  cases hcwd : (k₁.proc p).cwd with
  | none =>
      rw [hcwd] at h
      cases h
  | some ip =>
      rw [hcwd] at h
      obtain ⟨_, k₂, hbegin, h⟩ := bind_ok h
      obtain ⟨_, k₃, hput, h⟩ := bind_ok h
      obtain ⟨_, k₄, hend, h⟩ := bind_ok h
      obtain ⟨_, k₅, hset, h⟩ := bind_ok h
      obtain ⟨_, k₆, hreparent, h⟩ := bind_ok h
      rw [Total.run_bind (a := k₆.proc p) (t := k₆) rfl] at h
      obtain ⟨_, k₇, hwake, h⟩ := bind_ok h
      have h₅ : k₅.table = k.table := by
        calc k₅.table = k₄.table := table_setProc_ok hset fun _ => rfl
          _ = k₃.table := table_endOp _ _ _ hend
          _ = k₂.table := table_iput _ _ _ hput
          _ = k₁.table := table_beginOp _ _ _ hbegin
          _ = k.table := table_closeFiles _ _ _ hclose
      have h₇ : k₇.table = k.table.reparent p nproc := by
        rw [table_wakeup _ _ _ hwake, table_reparent hreparent, h₅]
      cases h
      rw [table_setProc, ← h₇]
      rfl

omit [Image] in
theorem table_reportStatus {pagetable addr : Nat} {xstate : Int} :
    Unchanged Kernel.table (reportStatus pagetable addr xstate) := by
  rw [reportStatus]
  by_cases haddr : addr = 0
  · rw [if_pos haddr]
    exact Unchanged.of_pure _
  · rw [if_neg haddr]
    exact table_inMem _

omit [Image] in
theorem zombieChild_some {c : Nat} (h : k.zombieChild p = some c) :
    c < nproc ∧ (k.proc c).parent = some p ∧ (k.proc c).state = .zombie := by
  have hmem := List.mem_range.mp (List.mem_of_find?_eq_some h)
  have hfound := List.find?_some h
  exact ⟨hmem, by simpa using hfound⟩

/-- The zombie that `wait` found is reported and gone, or the table is as before. -/
def Waited (k k' : Kernel) (p addr : Nat) (r : Option Int) : Prop :=
  (∃ c, k.zombieChild p = some c ∧ r = some ((k.proc c).pid : Int) ∧
      k'.table = k.table.clear c ∧
      ∃ u v, reportStatus (k.proc p).pagetable addr (k.proc c).xstate u = .ok (true, v)) ∨
    (r = none ∨ r = some (-1)) ∧ k'.table = k.table

theorem wait_waited {addr : Nat} {r : Option Int} (hlive : k.live p)
    (h : wait p addr k = .ok (r, k')) : Waited k k' p addr r := by
  obtain ⟨_, k₁, hset, h⟩ := bind_ok h
  have h₁ : k₁.table = k.table := table_setProc_ok hset fun _ => rfl
  have hentry : ∀ q, (k₁.proc q).parent = (k.proc q).parent ∧
      (k₁.proc q).state = (k.proc q).state ∧ (k₁.proc q).pid = (k.proc q).pid ∧
      (k₁.proc q).xstate = (k.proc q).xstate ∧
      (k₁.proc q).pagetable = (k.proc q).pagetable := by
    cases hset
    intro q
    by_cases hq : q = p <;> simp [Kernel.setProc, Kernel.mapProc, hq]
  have hfind : k₁.zombieChild p = k.zombieChild p := by
    simp only [Kernel.zombieChild, (hentry _).1, (hentry _).2.1]
  rw [Total.run_bind (a := k₁) (t := k₁) rfl] at h
  change (match k₁.zombieChild p with | some pp => _ | none => _ : KernelM (Option Int)) k₁ = _
    at h
  cases hzombie : k.zombieChild p with
  | some c =>
      rw [hfind, hzombie] at h
      obtain ⟨copied, k₂, hreport, h⟩ := bind_ok h
      have h₂ : k₂.table = k.table := (table_reportStatus _ _ _ hreport).trans h₁
      cases copied with
      | true =>
          rw [if_pos rfl] at h
          obtain ⟨_, k₃, hfree, h⟩ := bind_ok h
          cases h
          refine Or.inl ⟨c, hzombie, ?_, ?_, k₁, k₂, ?_⟩
          · rw [(hentry c).2.2.1]
          · rw [table_freeproc hfree, h₂]
          · rw [← (hentry c).2.2.2.1, ← (hentry p).2.2.2.2]
            exact hreport
      | false =>
          rw [if_neg Bool.false_ne_true] at h
          cases h
          exact Or.inr ⟨Or.inr rfl, h₂⟩
  | none =>
      rw [hfind, hzombie] at h
      dsimp only at h
      split at h
      · cases h
        exact Or.inr ⟨Or.inr rfl, h₁⟩
      · obtain ⟨_, k₂, hsleep, h⟩ := bind_ok h
        cases h
        refine Or.inr ⟨Or.inl rfl, ?_⟩
        cases hsleep
        have hsame : ({ k₁.proc p with chan := some (.proc p), state := .sleeping } : Proc).entry =
            k₁.table.entry p := by
          have halive := hlive.2
          rw [← (hentry p).2.1] at halive
          cases halive with
          | inl hstate => simp [Kernel.table, Proc.entry, ProcState.stage, hstate]
          | inr hstate => simp [Kernel.table, Proc.entry, ProcState.stage, hstate]
        rw [table_setProc, hsame, table_set_self, h₁]

/-! ## `kill` -/

def Kernel.withPid (k : Kernel) (pid : Int) : Option Nat :=
  (List.range nproc).find? fun p => ((k.proc p).pid : Int) = pid

omit [Image] in
theorem withPid_some {c : Nat} {pid : Int} (h : k.withPid pid = some c) :
    c < nproc ∧ ((k.proc c).pid : Int) = pid := by
  have hmem := List.mem_range.mp (List.mem_of_find?_eq_some h)
  have hfound := List.find?_some h
  exact ⟨hmem, of_decide_eq_true hfound⟩

def Proc.strike (q : Proc) : Proc :=
  { q with
    killed := true
    state := if q.state = .sleeping then .runnable else q.state }

omit [Image] in
theorem kill_run (pid : Int) : kill pid k = match k.withPid pid with
    | some c => .ok (0, k.setProc c Proc.strike)
    | none => .ok (-1, k) := by
  rw [kill, Total.run_bind (a := k) (t := k) rfl]
  change (match k.withPid pid with | some c => _ | none => _ : KernelM Int) k = _
  cases k.withPid pid with
  | some c => rfl
  | none => rfl

omit [Image] in
theorem strike_entry (q : Proc) : q.strike.entry = { q.entry with killed := true } := by
  by_cases hq : q.state = .sleeping
  · simp [Proc.strike, Proc.entry, ProcState.stage, hq]
  · simp [Proc.strike, Proc.entry, hq]

omit [Image] in
theorem strike_table {c : Nat} : (k.setProc c Proc.strike).table = k.table.kill c := by
  rw [table_setProc, strike_entry]
  rfl

/-! ## `userinit` -/

theorem userinit_table {root : Nat} {a : Unit} (h : userinit root k = .ok (a, k')) :
    ∃ p < nproc, (k.proc p).state = .unused ∧
      k'.table = { (k.table.take p).start p with init := some p } := by
  obtain ⟨found, k₁, halloc, h⟩ := bind_ok h
  have htaken := allocproc_taken halloc
  cases found with
  | none => cases h
  | some p =>
      obtain ⟨hp, hunused, h₁⟩ := htaken
      refine ⟨p, hp, hunused, ?_⟩
      dsimp only at h
      obtain ⟨_, k₂, hinit, h⟩ := bind_ok h
      have h₂ : k₂.table = { k.table.take p with init := some p } := by
        cases hinit
        rw [← h₁]
        rfl
      rw [Total.run_bind (a := k₂.proc p) (t := k₂) rfl] at h
      obtain ⟨_, k₃, hfirst, h⟩ := bind_ok h
      obtain ⟨_, k₄, hsz, h⟩ := bind_ok h
      obtain ⟨_, k₅, hepc, h⟩ := bind_ok h
      obtain ⟨_, k₆, hsp, h⟩ := bind_ok h
      obtain ⟨cwd, k₇, hcwd, h⟩ := bind_ok h
      have h₇ : k₇.table = { k.table.take p with init := some p } := by
        calc k₇.table = k₆.table := by cases hcwd; rfl
          _ = k₅.table := table_inMem _ _ _ _ hsp
          _ = k₄.table := table_inMem _ _ _ _ hepc
          _ = k₃.table := table_setProc_ok hsz fun _ => rfl
          _ = k₂.table := table_inMem _ _ _ _ hfirst
          _ = _ := h₂
      cases h
      rw [table_setProc]
      have hentry : (k₇.proc p).entry = (k.table.take p).entry p :=
        congrArg (fun t : Table => t.entry p) h₇
      change k₇.table.set p { (k₇.proc p).entry with stage := .alive } = _
      rw [hentry, h₇]
      rfl

end

end SyscallSched.Xv6
