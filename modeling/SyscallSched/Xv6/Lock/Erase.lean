import SyscallSched.Xv6.Family.Refine
import SyscallSched.Xv6.Lock.Calls

/-!
# The calls give back their locks

Each call with its locks does what the call without them does, and leaves the
CPU as it was, but for `allocproc`, which returns with the lock of the slot
held, and `sfork`, which gives that lock to nobody.
-/

namespace SyscallSched.Xv6.Lock

open SyscallSched.Foundation

structure Ready (c : Cpu) (held : List Name) : Prop where
  ok : c.Ok
  free : ∀ l ∉ held, c.held l = false

section

variable {α β : Type} {k k' : Kernel} {c c₀ c₁ : Cpu} {l : Name} {held : List Name} {p np : Nat}
  {F : LockM α} {f : KernelM α} {G : α → LockM β} {g : α → KernelM β}

theorem Ready.congr (h : Ready c held) (hc : c₁.marked = c.marked) : Ready c₁ held :=
  ⟨ok_congr hc h.ok, fun l hl => by rw [held_congr hc]; exact h.free l hl⟩

theorem Ready.locked (h : Ready c held) (l : Name) : Ready (c.locked l) (l :: held) := by
  refine ⟨ok_locked, ?_⟩
  intro l' hl'
  rw [List.mem_cons, not_or] at hl'
  rw [locked_held_ne hl'.1]
  exact h.free l' hl'.2

/-- `F` does what `f` does and gives back every lock it takes. -/
def Balanced (F : LockM α) (f : KernelM α) (k : Kernel) (held : List Name) : Prop :=
  ∀ c, Ready c held → Erases F f k c fun _ => c

theorem Balanced.of_pure (a : α) : Balanced (pure a) (pure a) k held :=
  fun _ _ => Erases.of_pure rfl

theorem Balanced.of_kernel (x : KernelM α) : Balanced (inKernel x) x k held :=
  fun _ _ => Erases.of_kernel x

theorem Balanced.then {post : β → Cpu} (hF : Balanced F f k held) (hc : Ready c held)
    (hG : ∀ a k₁ c₁, f k = .ok (a, k₁) → c₁.marked = c.marked →
      Erases (G a) (g a) k₁ c₁ post) : Erases (F >>= G) (f >>= g) k c post :=
  (hF c hc).bind hG

theorem Balanced.bind (hF : Balanced F f k held)
    (hG : ∀ a k₁, f k = .ok (a, k₁) → Balanced (G a) (g a) k₁ held) :
    Balanced (F >>= G) (f >>= g) k held := by
  intro c hc
  apply hF.then hc
  intro a k₁ c₁ hf hc₁ b k' hrun
  obtain ⟨c', hrun', hc'⟩ := hG a k₁ hf c₁ (hc.congr hc₁) b k' hrun
  exact ⟨c', hrun', hc'.trans hc₁⟩

theorem balanced_withLock (x : KernelM α) (hl : l ∉ held) :
    Balanced (withLock l (inKernel x)) x k held := by
  intro c hc
  have hbody : Erases (inKernel x >>= fun a => release l >>= fun _ => pure a) (x >>= pure) k
      (c.locked l) fun _ => c := by
    apply (Erases.of_kernel x).bind
    intro a k₁ c₁ _ hc₁
    apply Erases.release hc₁ hc.ok (hc.free l hl)
    intro c₂ hc₂
    exact Erases.of_pure hc₂
  rw [bind_pure] at hbody
  exact Erases.acquire (hc.free l hl) hbody

theorem balanced_mem (x : MemM α) (hl : .kmem ∉ held) : Balanced (mem x) (inMem x) k held :=
  balanced_withLock (inMem x) hl

theorem myproc_run (hok : c.Ok) : myproc ⟨k, c⟩ = .ok ((), ⟨k, c.marked⟩) := by
  rw [myproc, Total.run_bind pushOff_run, popOff_run rfl (Nat.succ_pos _)]
  congr 3
  by_cases hzero : c.noff = 0
  · simp [Cpu.marked, hzero]
  · have hoff := hok (Nat.pos_of_ne_zero hzero)
    simp [Cpu.marked, hzero, hoff]

theorem balanced_myproc (hF : Balanced F f k held) :
    Balanced (myproc >>= fun _ => F) f k held := by
  intro c hc a k' hrun
  obtain ⟨c', hrun', hc'⟩ := hF c.marked (hc.congr marked_marked) a k' hrun
  exact ⟨c', by rw [Total.run_bind (myproc_run hc.ok), hrun'], hc'.trans marked_marked⟩

theorem balanced_if {F' : LockM α} {f' : KernelM α} {P : Prop} [Decidable P]
    (hF : P → Balanced F f k held) (hF' : ¬ P → Balanced F' f' k held) :
    Balanced (if P then F else F') (if P then f else f') k held := by
  by_cases h : P
  · rw [if_pos h, if_pos h]
    exact hF h
  · rw [if_neg h, if_neg h]
    exact hF' h

/-! ## `kill`, `setkilled`, `killed`, `growproc` -/

theorem balanced_setkilled (hl : .proc p ∉ held) :
    Balanced (setkilled p) (Xv6.setkilled p) k held :=
  balanced_withLock _ hl

theorem balanced_killed (hl : .proc p ∉ held) : Balanced (killed p) (Xv6.killed p) k held :=
  balanced_withLock _ hl

theorem killFrom_run (pid : Int) (ps : List Nat) (hc : Ready c held)
    (hl : ∀ p, .proc p ∉ held) :
    ∃ c', c'.marked = c.marked ∧ killFrom pid ps ⟨k, c⟩ =
      match ps.find? fun p => ((k.proc p).pid : Int) = pid with
      | some p => .ok (0, ⟨k.setProc p Proc.strike, c'⟩)
      | none => .ok (-1, ⟨k, c'⟩) := by
  induction ps generalizing c with
  | nil => exact ⟨c, rfl, rfl⟩
  | cons p ps ih =>
      have hfree := hc.free (.proc p) (hl p)
      rw [killFrom, Total.run_bind (acquire_run hfree),
        Total.run_bind (a := k.proc p) (t := ⟨k, c.locked (.proc p)⟩) rfl]
      by_cases hpid : ((k.proc p).pid : Int) = pid
      · refine ⟨c.marked, marked_marked, ?_⟩
        rw [if_pos hpid, List.find?_cons_of_pos (by simpa using hpid)]
        rw [Total.run_bind (a := ()) (t := ⟨k.setProc p Proc.strike, c.locked (.proc p)⟩) rfl,
          Total.run_bind (release_run hc.ok hfree)]
        rfl
      · obtain ⟨c', hc', hrun⟩ := ih (hc.congr marked_marked)
        refine ⟨c', hc'.trans marked_marked, ?_⟩
        rw [if_neg hpid, List.find?_cons_of_neg (by simpa using hpid),
          Total.run_bind (release_run hc.ok hfree), hrun]

theorem balanced_kill {pid : Int} (hl : ∀ p, .proc p ∉ held) :
    Balanced (kill pid) (Xv6.kill pid) k held := by
  intro c hc a k' hrun
  obtain ⟨c', hc', hloop⟩ := killFrom_run (k := k) pid (List.range nproc) hc hl
  refine ⟨c', ?_, hc'⟩
  rw [kill, hloop]
  rw [kill_run, Kernel.withPid] at hrun
  cases hfind : (List.range nproc).find? fun p => ((k.proc p).pid : Int) = pid with
  | none =>
      rw [hfind] at hrun
      cases hrun
      rfl
  | some p =>
      rw [hfind] at hrun
      cases hrun
      rfl

variable [Image]

theorem balanced_growproc {n : Int} (hl : .kmem ∉ held) :
    Balanced (growproc p n) (Xv6.growproc p n) k held := by
  apply balanced_myproc
  apply (Balanced.of_kernel _).bind
  intro q k₁ _
  apply balanced_if
  · intro _
    apply (balanced_mem _ hl).bind
    intro sz k₂ _
    apply balanced_if
    · exact fun _ => Balanced.of_pure _
    · intro _
      apply (Balanced.of_kernel _).bind
      exact fun _ _ _ => Balanced.of_pure _
  · intro _
    apply balanced_if
    · intro _
      apply (balanced_mem _ hl).bind
      intro sz k₂ _
      apply (Balanced.of_kernel _).bind
      exact fun _ _ _ => Balanced.of_pure _
    · exact fun _ => Balanced.of_pure _

/-! ## Creating and freeing -/

theorem balanced_freeproc (hl : .kmem ∉ held) :
    Balanced (freeproc p) (Xv6.freeproc p) k held := by
  apply (Balanced.of_kernel _).bind
  intro q k₁ _
  apply (balanced_mem _ hl).bind
  intro _ k₂ _
  apply (balanced_mem _ hl).bind
  intro _ k₃ _
  exact Balanced.of_kernel _

omit [Image] in
theorem Balanced.released {a : β} {post : β → Cpu} (hF : Balanced F f k (l :: held))
    (hc₀ : Ready c₀ held) (hl : l ∉ held) (hc : c.marked = (c₀.locked l).marked)
    (hpost : (post a).marked = c₀.marked) :
    Erases (F >>= fun _ => release l >>= fun _ => pure a) (f >>= fun _ => pure a) k c post := by
  apply hF.then ((hc₀.locked l).congr hc)
  intro _ k₁ c₁ _ hc₁
  apply Erases.release (hc₁.trans hc) hc₀.ok (hc₀.free l hl)
  intro c₂ hc₂
  exact Erases.of_pure (hc₂.trans hpost.symm)

omit [Image] in
theorem findUnused_run (ps : List Nat) (hc : Ready c held) (hl : ∀ p, .proc p ∉ held) :
    match ps.find? fun p => (k.proc p).state = .unused with
    | some p => findUnused ps ⟨k, c⟩ = .ok (some p, ⟨k, c.locked (.proc p)⟩)
    | none => ∃ c', c'.marked = c.marked ∧ findUnused ps ⟨k, c⟩ = .ok (none, ⟨k, c'⟩) := by
  induction ps generalizing c with
  | nil => exact ⟨c, rfl, rfl⟩
  | cons p ps ih =>
      have hfree := hc.free (.proc p) (hl p)
      rw [findUnused, Total.run_bind (acquire_run hfree),
        Total.run_bind (a := k.proc p) (t := ⟨k, c.locked (.proc p)⟩) rfl]
      by_cases hstate : (k.proc p).state = .unused
      · rw [if_pos hstate, List.find?_cons_of_pos (by simpa using hstate)]
        rfl
      · have hrest := ih (hc.congr marked_marked)
        rw [if_neg hstate, List.find?_cons_of_neg (by simpa using hstate),
          Total.run_bind (release_run hc.ok hfree)]
        simp only [marked_locked, marked_marked] at hrest
        exact hrest

def allocated (c : Cpu) : Option Nat → Cpu
  | none => c
  | some np => c.locked (.proc np)

theorem erases_allocproc (hc : Ready c held) (hp : ∀ p, .proc p ∉ held) (hpid : .pid ∉ held)
    (hmem : .kmem ∉ held) :
    Erases allocproc Xv6.allocproc k c (allocated c) := by
  intro r k' hrun
  have hfind := findUnused_run (k := k) (List.range nproc) hc hp
  rw [Xv6.allocproc, Total.run_bind (a := k) (t := k) rfl] at hrun
  change (match (List.range nproc).find? fun p => (k.proc p).state = .unused with
    | none => pure none
    | some p => _ : KernelM (Option Nat)) k = _ at hrun
  cases hslot : (List.range nproc).find? fun p => (k.proc p).state = .unused with
  | none =>
      rw [hslot] at hfind hrun
      obtain ⟨c', hc', hloop⟩ := hfind
      cases hrun
      refine ⟨c', ?_, hc'⟩
      rw [allocproc, Total.run_bind hloop]
      rfl
  | some p =>
      rw [hslot] at hfind hrun
      have hready := hc.locked (.proc p)
      have hmem' : .kmem ∉ Name.proc p :: held := by simp [hmem]
      have hpid' : .pid ∉ Name.proc p :: held := by simp [hpid]
      rw [allocproc, Total.run_bind hfind]
      refine Balanced.then (balanced_withLock _ hpid') hready ?_ r k' hrun
      intro pid k₁ c₁ _ hc₁
      apply (Balanced.of_kernel _).then (hready.congr hc₁)
      intro _ k₂ c₂ _ hc₂
      apply (balanced_mem _ hmem').then (hready.congr (hc₂.trans hc₁))
      intro page k₃ c₃ _ hc₃
      have h₃ := hc₃.trans (hc₂.trans hc₁)
      cases page with
      | none =>
          apply (Balanced.of_kernel _).then (hready.congr h₃)
          intro _ k₄ c₄ _ hc₄
          exact (balanced_freeproc hmem').released hc (hp p) (hc₄.trans h₃) rfl
      | some trapframe =>
          apply (Balanced.of_kernel _).then (hready.congr h₃)
          intro _ k₄ c₄ _ hc₄
          have h₄ := hc₄.trans h₃
          apply (balanced_mem _ hmem').then (hready.congr h₄)
          intro table k₅ c₅ _ hc₅
          have h₅ := hc₅.trans h₄
          cases table with
          | none =>
              apply (Balanced.of_kernel _).then (hready.congr h₅)
              intro _ k₆ c₆ _ hc₆
              exact (balanced_freeproc hmem').released hc (hp p) (hc₆.trans h₅) rfl
          | some pagetable =>
              apply (Balanced.of_kernel _).then (hready.congr h₅)
              intro _ k₆ c₆ _ hc₆
              exact Erases.of_pure (hc₆.trans h₅)

/-! ## `fork` and `sfork` -/

omit [Image] in
theorem balanced_dupFiles {fds : List Nat} (hl : .ftable ∉ held) :
    Balanced (dupFiles p np fds) (forM fds fun i => do
      let q ← getProc p
      match q.ofile i with
      | none => pure ()
      | some f => do
          let g ← filedup f
          setProc np fun q => { q with ofile := fun j => if j = i then some g else q.ofile j })
      k held := by
  induction fds generalizing k with
  | nil => exact Balanced.of_pure ()
  | cons i fds ih =>
      rw [dupFiles, List.forM_cons, List.forM_cons]
      refine Balanced.bind ?_ fun _ k₁ _ => ih
      apply (Balanced.of_kernel _).bind
      intro q k₂ _
      cases q.ofile i with
      | none => exact Balanced.of_pure ()
      | some f =>
          apply (balanced_withLock _ hl).bind
          exact fun g k₃ _ => Balanced.of_kernel _

omit [Image] in
/-- From the first `release` of `fork` on. -/
theorem publish_run (hc : Ready c held) (hp : .proc np ∉ held) (hwait : .wait ∉ held)
    (hc₁ : c₁.marked = (c.locked (.proc np)).marked) :
    publish p np ⟨k, c₁⟩ = .ok ((), ⟨(k.setProc np fun nq => { nq with parent := some p }).setProc
      np fun nq => { nq with state := .runnable }, c.marked⟩) := by
  have hproc := hc.free _ hp
  have hw := hc.free _ hwait
  have hproc' : c.marked.held (.proc np) = false := hproc
  have hw' : c.marked.held .wait = false := hw
  rw [eq_locked hc₁, publish, Total.run_bind (release_run hc.ok hproc),
    Total.run_bind (acquire_run hw'), marked_locked,
    Total.run_bind (a := ()) (t := ⟨k.setProc np fun nq => { nq with parent := some p },
      c.locked .wait⟩) rfl,
    Total.run_bind (release_run hc.ok hw), Total.run_bind (acquire_run hproc'), marked_locked,
    Total.run_bind (a := ()) (t := ⟨(k.setProc np fun nq => { nq with parent := some p }).setProc
      np fun nq => { nq with state := .runnable }, c.locked (.proc np)⟩) rfl,
    release_run hc.ok hproc]

def Forkable (held : List Name) : Prop :=
  (∀ p, .proc p ∉ held) ∧ .pid ∉ held ∧ .kmem ∉ held ∧ .wait ∉ held ∧ .ftable ∉ held ∧
    .itable ∉ held

theorem balanced_fork (hl : Forkable held) : Balanced (fork p) (Xv6.fork p) k held := by
  obtain ⟨hp, hpid, hmem, hwait, hftable, hitable⟩ := hl
  apply balanced_myproc
  intro c hc
  apply (erases_allocproc hc hp hpid hmem).bind
  intro r k₁ c₁ _ hc₁
  cases r with
  | none => exact Erases.of_pure hc₁
  | some np =>
      have hready := hc.locked (.proc np)
      have hmem' : .kmem ∉ Name.proc np :: held := by simp [hmem]
      have hftable' : .ftable ∉ Name.proc np :: held := by simp [hftable]
      have hitable' : .itable ∉ Name.proc np :: held := by simp [hitable]
      apply (Balanced.of_kernel _).then (hready.congr hc₁)
      intro q k₂ c₂ _ hc₂
      have h₂ := hc₂.trans hc₁
      apply (Balanced.of_kernel _).then (hready.congr h₂)
      intro nq k₃ c₃ _ hc₃
      have h₃ := hc₃.trans h₂
      apply (balanced_mem _ hmem').then (hready.congr h₃)
      intro copied k₄ c₄ _ hc₄
      have h₄ := hc₄.trans h₃
      cases copied with
      | false =>
          rw [if_neg Bool.false_ne_true, if_neg Bool.false_ne_true]
          exact (balanced_freeproc hmem').released hc (hp np) h₄ rfl
      | true =>
          rw [if_pos rfl, if_pos rfl]
          apply (Balanced.of_kernel _).then (hready.congr h₄)
          intro _ k₅ c₅ _ hc₅
          have h₅ := hc₅.trans h₄
          apply (Balanced.of_kernel _).then (hready.congr h₅)
          intro _ k₆ c₆ _ hc₆
          have h₆ := hc₆.trans h₅
          apply (Balanced.of_kernel _).then (hready.congr h₆)
          intro _ k₇ c₇ _ hc₇
          have h₇ := hc₇.trans h₆
          apply (balanced_dupFiles hftable').then (hready.congr h₇)
          intro _ k₈ c₈ _ hc₈
          have h₈ := hc₈.trans h₇
          apply (balanced_withLock _ hitable').then (hready.congr h₈)
          intro cwd k₉ c₉ _ hc₉
          have h₉ := hc₉.trans h₈
          intro pid k' hrun
          cases hrun
          refine ⟨c.marked, ?_, marked_marked⟩
          rw [Total.run_bind (a := ()) (t := ⟨k₉.setProc np fun nq =>
            { nq with cwd := cwd, name := safestrcpy q.name }, c₉⟩) rfl,
            Total.run_bind (publish_run hc (hp np) hwait h₉), setProc_setProc, setProc_setProc]
          rfl

/-- `sfork` is balanced only when it fails. -/
theorem sfork_run {r : Int} (hc : Ready c held) (hp : ∀ p, .proc p ∉ held) (hpid : .pid ∉ held)
    (hmem : .kmem ∉ held) (hrun : Xv6.sfork p k = .ok (r, k')) :
    ∃ found k₁ c', Xv6.allocproc k = .ok (found, k₁) ∧ sfork p ⟨k, c⟩ = .ok (r, ⟨k', c'⟩) ∧
      c'.marked = (allocated c found).marked := by
  obtain ⟨found, k₁, halloc, hrest⟩ := bind_ok hrun
  obtain ⟨c₁, hrun₁, hc₁⟩ := erases_allocproc hc hp hpid hmem found k₁ halloc
  cases found with
  | none =>
      cases hrest
      refine ⟨none, k', c₁, halloc, ?_, hc₁⟩
      rw [sfork, Total.run_bind hrun₁]
      rfl
  | some np =>
      have hbal : Balanced (do
          myproc
          let q ← inKernel (getProc p)
          inKernel (setProc np fun nq =>
            { nq with
              sz := q.sz, pagetable := q.pagetable, parent := some p, state := .runnable
              context := q.context })
          let nq ← inKernel (getProc np)
          pure (nq.pid : Int)) (do
          let q ← getProc p
          setProc np fun nq =>
            { nq with
              sz := q.sz, pagetable := q.pagetable, parent := some p, state := .runnable
              context := q.context }
          let nq ← getProc np
          pure (nq.pid : Int)) k₁ (.proc np :: held) := by
        apply balanced_myproc
        apply (Balanced.of_kernel _).bind
        intro q k₂ _
        apply (Balanced.of_kernel _).bind
        intro _ k₃ _
        apply (Balanced.of_kernel _).bind
        exact fun nq k₄ _ => Balanced.of_pure _
      obtain ⟨c', hrun', hc'⟩ := hbal c₁ ((hc.locked (.proc np)).congr hc₁) r k' hrest
      refine ⟨some np, k₁, c', halloc, ?_, hc'.trans hc₁⟩
      rw [sfork, Total.run_bind hrun₁]
      exact hrun'

/-! ## `sched` -/

omit [Image] in
theorem sched_run (hzero : c.noff = 0) (hstate : (k.proc p).state ≠ .running) :
    sched p ⟨k, c.locked (.proc p)⟩ = .ok ((), ⟨k, c.locked (.proc p)⟩) := by
  rw [sched, Total.run_bind (a := _) (t := _) rfl, if_neg (by simp [locked_held_self]),
    if_neg (by simp [Cpu.locked, hzero]), if_neg hstate, if_neg (by simp [Cpu.locked])]
  rfl

omit [Image] in
theorem sched_panics (hnoff : c.noff ≠ 0) :
    sched p ⟨k, c.locked (.proc p)⟩ = .error .schedLocks := by
  rw [sched, Total.run_bind (a := _) (t := _) rfl, if_neg (by simp [locked_held_self]),
    if_pos (by simp [Cpu.locked, hnoff])]
  rfl

omit [Image] in
theorem yield_run (hc : Ready c held) (hp : .proc p ∉ held) (hzero : c.noff = 0) :
    yield p ⟨k, c⟩ =
      .ok ((), ⟨k.setProc p fun q => { q with state := .runnable }, c.marked⟩) := by
  have hfree : c.marked.held (.proc p) = false := hc.free _ hp
  have hstate : ((k.setProc p fun q => { q with state := .runnable }).proc p).state ≠
      .running := by
    simp [Kernel.setProc, Kernel.mapProc]
  rw [yield, Total.run_bind (myproc_run hc.ok), Total.run_bind (acquire_run hfree),
    marked_locked, Total.run_bind (a := ()) (t := ⟨k.setProc p fun q =>
      { q with state := .runnable }, c.locked (.proc p)⟩) rfl,
    Total.run_bind (sched_run hzero hstate), release_run hc.ok (hc.free _ hp)]

omit [Image] in
theorem yield_panics (hok : c.Ok) (hp : c.held (.proc p) = false) (hnoff : c.noff ≠ 0) :
    yield p ⟨k, c⟩ = .error .schedLocks := by
  have hfree : c.marked.held (.proc p) = false := hp
  rw [yield, Total.run_bind (myproc_run hok), Total.run_bind (acquire_run hfree),
    marked_locked, Total.run_bind (a := ()) (t := ⟨k.setProc p fun q =>
      { q with state := .runnable }, c.locked (.proc p)⟩) rfl]
  change (sched p ⟨_, _⟩ >>= _ : Except LockPanic _) = _
  rw [sched_panics hnoff]
  rfl

omit [Image] in
/-- `sleep` gives back `wait_lock` and switches with the lock of the process. -/
theorem sleep_run (hc : Ready c held) (hp : .proc p ∉ held) (hwait : .wait ∉ held)
    (hzero : c.noff = 0) (hc₁ : c₁.marked = (c.locked .wait).marked) :
    sleep p ⟨k, c₁⟩ = .ok ((), ⟨k.setProc p fun q =>
      { q with chan := some (.proc p), state := .sleeping }, c.marked⟩) := by
  have hfree : (c.locked .wait).held (.proc p) = false := by
    rw [locked_held_ne (by simp)]
    exact hc.free _ hp
  have hw : (c.locked (.proc p)).held .wait = false := by
    rw [locked_held_ne (by simp)]
    exact hc.free _ hwait
  have hstate : ((k.setProc p fun q =>
      { q with chan := some (.proc p), state := .sleeping }).proc p).state ≠ .running := by
    simp [Kernel.setProc, Kernel.mapProc]
  rw [eq_locked hc₁, sleep, Total.run_bind (myproc_run ok_locked), locked_marked,
    Total.run_bind (acquire_run hfree), locked_comm (by simp),
    Total.run_bind (release_run ok_locked hw), locked_marked,
    Total.run_bind (a := ()) (t := ⟨k.setProc p fun q =>
      { q with chan := some (.proc p), state := .sleeping }, c.locked (.proc p)⟩) rfl,
    Total.run_bind (sched_run hzero hstate), release_run hc.ok (hc.free _ hp)]

/-! ## `wait` -/

omit [Image] in
theorem findZombie_run (ps : List Nat) (havekids : Bool) (hc : Ready c held)
    (hl : ∀ p, .proc p ∉ held) :
    match ps.find? fun pp => (k.proc pp).parent = some p ∧ (k.proc pp).state = .zombie with
    | some pp => findZombie p havekids ps ⟨k, c⟩ =
        .ok ((some pp, true), ⟨k, c.locked (.proc pp)⟩)
    | none => ∃ c', c'.marked = c.marked ∧ findZombie p havekids ps ⟨k, c⟩ =
        .ok ((none, havekids || ps.any fun pp => (k.proc pp).parent = some p), ⟨k, c'⟩) := by
  induction ps generalizing c havekids with
  | nil => exact ⟨c, rfl, by rw [List.any_nil, Bool.or_false]; rfl⟩
  | cons pp pps ih =>
      have hfree := hc.free (.proc pp) (hl pp)
      rw [findZombie, Total.run_bind (a := k.proc pp) (t := ⟨k, c⟩) rfl]
      by_cases hparent : (k.proc pp).parent = some p
      · rw [if_pos hparent, Total.run_bind (acquire_run hfree),
          Total.run_bind (a := k.proc pp) (t := ⟨k, c.locked (.proc pp)⟩) rfl]
        by_cases hstate : (k.proc pp).state = .zombie
        · rw [if_pos hstate, List.find?_cons_of_pos (by simp [hparent, hstate])]
          rfl
        · have hrest := ih true (hc.congr marked_marked)
          rw [if_neg hstate, List.find?_cons_of_neg (by simp [hstate]),
            Total.run_bind (release_run hc.ok hfree)]
          simp only [marked_locked, marked_marked, Bool.true_or] at hrest
          simpa [hparent] using hrest
      · have hrest := ih havekids hc
        rw [if_neg hparent, List.find?_cons_of_neg (by simp [hparent])]
        simpa [hparent] using hrest

omit [Image] in
theorem balanced_wake (woken : Bool) (hp : .proc p ∉ held) :
    Balanced (wake woken p) (setProc p fun q => { q with chan := none }) k held := by
  cases woken with
  | true => exact balanced_withLock _ hp
  | false => exact Balanced.of_kernel _

omit [Image] in
theorem balanced_reportStatus {pagetable addr : Nat} {xstate : Int} (hl : .kmem ∉ held) :
    Balanced (reportStatus pagetable addr xstate) (Xv6.reportStatus pagetable addr xstate) k
      held :=
  balanced_if (fun _ => Balanced.of_pure true) fun _ => balanced_mem _ hl

omit [Image] in
theorem noPoint_run (havekids : Bool) (hc : Ready c held) (hp : .proc p ∉ held) :
    ∃ c', c'.marked = c.marked ∧
      noPoint p havekids ⟨k, c⟩ = .ok (!havekids || (k.proc p).killed, ⟨k, c'⟩) := by
  cases havekids with
  | false => exact ⟨c, rfl, rfl⟩
  | true =>
      obtain ⟨c', hrun, hc'⟩ := balanced_killed hp c hc (k.proc p).killed k rfl
      exact ⟨c', hc', hrun⟩

theorem erases_reap {pp addr : Nat} (hc : Ready c held) (hp : .proc pp ∉ held)
    (hwait : .wait ∉ held) (hmem : .kmem ∉ held)
    (hc₁ : c₁.marked = ((c.locked .wait).locked (.proc pp)).marked) :
    Erases (do
      let q ← inKernel (getProc p)
      let z ← inKernel (getProc pp)
      let copied ← reportStatus q.pagetable addr z.xstate
      if copied then do
        freeproc pp
        release (.proc pp)
        release .wait
        pure (some (z.pid : Int))
      else do
        release (.proc pp)
        release .wait
        pure (some (-1))) (do
      let copied ← Xv6.reportStatus (k.proc p).pagetable addr (k.proc pp).xstate
      if copied then do
        Xv6.freeproc pp
        pure (some ((k.proc pp).pid : Int))
      else
        pure (some (-1))) k c₁ fun _ => c := by
  have hready := (hc.locked .wait).locked (.proc pp)
  have hmem' : .kmem ∉ Name.proc pp :: .wait :: held := by simp [hmem]
  have hpp : (c.locked .wait).held (.proc pp) = false := by
    rw [locked_held_ne (by simp)]
    exact hc.free _ hp
  have hend : ∀ (x : Option Int) k₂ c₂, c₂.marked = ((c.locked .wait).locked (.proc pp)).marked →
      Erases (do release (.proc pp); release .wait; pure x) (pure x) k₂ c₂ fun _ => c := by
    intro x k₂ c₂ hc₂
    apply Erases.release hc₂ ok_locked hpp
    intro c₃ hc₃
    apply Erases.release hc₃ hc.ok (hc.free _ hwait)
    intro c₄ hc₄
    exact Erases.of_pure hc₄
  intro r k' hrun
  rw [Total.run_bind (a := k.proc p) (t := ⟨k, c₁⟩) rfl,
    Total.run_bind (a := k.proc pp) (t := ⟨k, c₁⟩) rfl]
  revert hrun
  revert k' r
  apply (balanced_reportStatus hmem').then (hready.congr hc₁)
  intro copied k₂ c₂ _ hc₂
  have h₂ := hc₂.trans hc₁
  cases copied with
  | true =>
      rw [if_pos rfl, if_pos rfl]
      apply (balanced_freeproc hmem').then (hready.congr h₂)
      intro _ k₃ c₃ _ hc₃
      exact hend _ k₃ c₃ (hc₃.trans h₂)
  | false =>
      rw [if_neg Bool.false_ne_true, if_neg Bool.false_ne_true]
      exact hend _ k₂ c₂ h₂

theorem erases_wait {woken : Bool} {addr : Nat} (hc : Ready c held) (hp : ∀ p, .proc p ∉ held)
    (hwait : .wait ∉ held) (hmem : .kmem ∉ held) (hzero : c.noff = 0) :
    Erases (wait woken p addr) (Xv6.wait p addr) k c fun _ => c := by
  intro r k' hrun
  obtain ⟨_, k₁, hset, hrun⟩ := bind_ok hrun
  obtain ⟨c₁, hwake, hc₁⟩ :=
    balanced_wake woken (hp p) c.marked (hc.congr marked_marked) () k₁ hset
  have hc₁' : c₁.marked = c.marked := hc₁.trans marked_marked
  have hw : c₁.held .wait = false := (hc.congr hc₁').free _ hwait
  have hp' : ∀ q, .proc q ∉ Name.wait :: held := by simp [hp]
  have hready := hc.locked .wait
  rw [wait, Total.run_bind (myproc_run hc.ok), Total.run_bind hwake,
    Total.run_bind (acquire_run hw), locked_congr hc₁']
  rw [Total.run_bind (a := k₁) (t := k₁) rfl] at hrun
  have hscan := findZombie_run (k := k₁) (p := p) (List.range nproc) false hready hp'
  cases hfind : (List.range nproc).find? fun pp =>
      (k₁.proc pp).parent = some p ∧ (k₁.proc pp).state = .zombie with
  | some pp =>
      rw [hfind] at hscan hrun
      rw [Total.run_bind hscan]
      exact erases_reap hc (hp pp) hwait hmem rfl r k' hrun
  | none =>
      rw [hfind] at hscan hrun
      obtain ⟨c₂, hc₂, hscan⟩ := hscan
      obtain ⟨c₃, hc₃, hpoint⟩ := noPoint_run (k := k₁) (p := p)
        (false || (List.range nproc).any fun pp => (k₁.proc pp).parent = some p)
        (hready.congr hc₂) (hp' p)
      have h₃ := hc₃.trans hc₂
      rw [Total.run_bind hscan]
      dsimp only at hrun ⊢
      rw [Total.run_bind hpoint]
      have hdead : ((!(false || (List.range nproc).any fun pp =>
          (k₁.proc pp).parent = some p)) || (k₁.proc p).killed) = true ↔
          ((List.range nproc).all fun pp => (k₁.proc pp).parent ≠ some p) = true ∨
            (k₁.proc p).killed = true := by
        simp
      by_cases hgone : ((List.range nproc).all fun pp => (k₁.proc pp).parent ≠ some p) = true ∨
          (k₁.proc p).killed = true
      · rw [if_pos hgone] at hrun
        cases hrun
        rw [if_pos (hdead.mpr hgone), eq_locked h₃,
          Total.run_bind (release_run hc.ok (hc.free _ hwait))]
        exact ⟨c.marked, rfl, marked_marked⟩
      · rw [if_neg hgone] at hrun
        cases hrun
        rw [if_neg fun h => hgone (hdead.mp h),
          Total.run_bind (sleep_run hc (hp p) hwait hzero h₃)]
        exact ⟨c.marked, rfl, marked_marked⟩

end

end SyscallSched.Xv6.Lock
