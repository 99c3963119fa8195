import SyscallSched.Xv6.Family.Tree
import SyscallSched.Xv6.Proc

/-!
# Runs of `fork`, `exit`, `wait` and `kill`

`fork` gives up its locks twice before it returns, so it is three steps here.
In between, other processes make their calls.
-/

namespace SyscallSched.Xv6

open SyscallSched.Foundation

/-! ## `kill`, `setkilled`, `killed`, `sys_count_zombies` -/

def kill (pid : Int) : KernelM Int := do
  let k ← get
  match (List.range nproc).find? fun p => ((k.proc p).pid : Int) = pid with
  | some p => do
      setProc p fun q =>
        { q with
          killed := true
          state := if q.state = .sleeping then .runnable else q.state }
      pure 0
  | none => pure (-1)

def setkilled (p : Nat) : KernelM Unit := setProc p fun q => { q with killed := true }

def killed (p : Nat) : KernelM Bool := do
  let q ← getProc p
  pure q.killed

def sysCountZombies (k : Kernel) : Nat :=
  (List.range nproc).countP fun p => (k.proc p).state = .zombie

variable [Image]

/-! ## `fork` in three parts -/

/-- `fork` up to `release(&np->lock)`: the child, or none. -/
def forkCopy (p : Nat) : KernelM (Option Nat) := do
  match ← allocproc with
  | none => pure none
  | some np => do
      let q ← getProc p
      let nq ← getProc np
      let copied ← inMem (uvmcopy q.pagetable nq.pagetable q.sz)
      if copied then do
        setProc np fun nq => { nq with sz := q.sz }
        inMem (copyTrapframe nq.trapframe q.trapframe)
        inMem (store nq.trapframe tfA0 0)
        dupFiles p np
        let cwd ← dupCwd q.cwd
        setProc np fun nq => { nq with cwd := cwd, name := safestrcpy q.name }
        pure (some np)
      else do
        freeproc np
        pure none

/-- `np->parent = p;` under `wait_lock`. -/
def forkAdopt (p np : Nat) : KernelM Unit := setProc np fun nq => { nq with parent := some p }

def forkStart (np : Nat) : KernelM Unit := setProc np fun nq => { nq with state := .runnable }

/-! ## Runs -/

open Family

/-- The kernel, and a record of the creations in progress, of the creator of
each pid, of the exits and of the reports of `wait`. -/
structure Sys where
  kernel : Kernel
  phase : Nat → Phase := fun _ => .idle
  creator : Nat → Nat := fun _ => 0
  exits : List (Nat × Int) := []
  reaps : List Reap := []

inductive Act where
  | fork
  | forkAdopt
  | forkStart
  | exit (status : Int)
  | wait (addr : Nat)
  | kill (pid : Int)
  | setkilled

/-- The zombie that `wait` finds. -/
def Kernel.zombieChild (k : Kernel) (p : Nat) : Option Nat :=
  (List.range nproc).find? fun pp =>
    (k.proc pp).parent = some p ∧ (k.proc pp).state = .zombie

def Sys.setPhase (s : Sys) (p : Nat) (ph : Phase) : Sys :=
  { s with phase := fun q => if q = p then ph else s.phase q }

def Sys.forked (s : Sys) (p : Nat) : Option Nat × Kernel → Sys
  | (none, kernel) => { s with kernel }
  | (some np, kernel) => { s with kernel }.setPhase p (.copied np)

def Sys.adopted (s : Sys) (p np : Nat) (kernel : Kernel) : Sys :=
  { s with
    kernel
    creator := fun pid =>
      if pid = (s.kernel.proc np).pid then (s.kernel.proc p).pid else s.creator pid
  }.setPhase p (.adopted np)

def Sys.waited (s : Sys) (p : Nat) : Option Int × Kernel → Sys
  | (some pid, kernel) =>
      match s.kernel.zombieChild p with
      | some c =>
          if 0 ≤ pid then
            { s with
              kernel
              reaps := s.reaps ++ [{
                slot := p
                caller := (s.kernel.proc p).pid
                pid := pid.toNat
                status := (s.kernel.proc c).xstate }] }
          else
            { s with kernel }
      | none => { s with kernel }
  | (none, kernel) => { s with kernel }

def Sys.act (s : Sys) (p : Nat) : Phase → Act → Except Panic Sys
  | .idle, .fork => do
      let r ← forkCopy p s.kernel
      pure (s.forked p r)
  | .copied np, .forkAdopt => do
      let (_, kernel) ← forkAdopt p np s.kernel
      pure (s.adopted p np kernel)
  | .adopted np, .forkStart => do
      let (_, kernel) ← forkStart np s.kernel
      pure ({ s with kernel }.setPhase p .idle)
  | .idle, .exit status => do
      let (_, kernel) ← exit p status s.kernel
      pure { s with kernel, exits := s.exits ++ [((s.kernel.proc p).pid, status)] }
  | .idle, .wait addr => do
      let r ← wait p addr s.kernel
      pure (s.waited p r)
  | .idle, .kill pid => do
      let (_, kernel) ← kill pid s.kernel
      pure { s with kernel }
  | .idle, .setkilled => do
      let (_, kernel) ← setkilled p s.kernel
      pure { s with kernel }
  | _, _ => pure s

def Sys.step (s : Sys) (e : Nat × Act) : Except Panic Sys :=
  if s.kernel.live e.1 then s.act e.1 (s.phase e.1) e.2 else pure s

def Sys.run (s : Sys) (es : List (Nat × Act)) : Except Panic Sys := es.foldlM Sys.step s

structure Kernel.Fresh (k : Kernel) : Prop where
  procs : ∀ p, k.proc p = {}
  nextpid : k.nextpid = 1

def bootRun (k : Kernel) (root : Nat) (es : List (Nat × Act)) : Except Panic Sys := do
  let (_, kernel) ← userinit root k
  Sys.run { kernel } es

/-! ## The process table of the kernel -/

def ProcState.stage : ProcState → Stage
  | .unused => .unused
  | .used => .creating
  | .sleeping | .runnable | .running => .alive
  | .zombie => .zombie

def Proc.entry (q : Proc) : Entry :=
  { stage := q.state.stage
    pid := q.pid
    parent := q.parent
    xstate := q.xstate
    killed := q.killed }

def Kernel.table (k : Kernel) : Table :=
  { entry := fun p => (k.proc p).entry, nextpid := k.nextpid, init := k.initproc }

def Sys.life (s : Sys) : Life :=
  { table := s.kernel.table
    phase := s.phase
    creator := s.creator
    exits := s.exits
    reaps := s.reaps }

end SyscallSched.Xv6
