import Mathlib.Logic.Function.Basic
import SyscallSched.Foundation.Routine
import SyscallSched.Xv6.Proc

/-!
# The kernel on several CPUs (`proc.c`, `spinlock.c`, `sleeplock.c`, `trap.c`)

Every CPU has a scheduler thread and every process a kernel thread.  The operations of
the threads are the single accesses to the memory that they share, to the registers
and to the `struct cpu` of the CPU that a thread runs on.
-/

namespace SyscallSched.Xv6.Smp

open SyscallSched.Foundation

def NPROC : Nat := 64

/-- The first process, which `userinit` makes. -/
def initproc : Nat := 0

inductive Thread where
  | cpu (c : Nat)
  | proc (p : Nat)
  deriving DecidableEq, Repr

/-- The spinlocks. `sleep k` is the spinlock in the sleep-lock `k`. -/
inductive Lock where
  | proc (p : Nat)
  | wait
  | pid
  | tick
  | sleep (k : Nat)
  deriving DecidableEq, Repr

/-- What a process can sleep on: `&ticks`, a process, a sleep-lock. -/
inductive Chan where
  | ticks
  | proc (p : Nat)
  | sleep (k : Nat)
  deriving DecidableEq, Repr

/-- What the threads share, but for `p->state`, the spinlocks and the CPUs. `data k` is
what the sleep-lock `k` guards, `ticks0 p` and `tickN p` are the variables of `sys_sleep`
on the stack of `p`. -/
inductive Loc where
  | chan (p : Nat)
  | killed (p : Nat)
  | xstate (p : Nat)
  | pid (p : Nat)
  | parent (p : Nat)
  | sleepLocked (k : Nat)
  | sleepPid (k : Nat)
  | data (k : Nat)
  | ticks
  | nextpid
  | ticks0 (p : Nat)
  | tickN (p : Nat)
  deriving DecidableEq, Repr

abbrev Loc.Val : Loc → Type
  | .chan _ => Option Chan
  | .killed _ => Bool
  | .xstate _ => Int
  | .pid _ => Nat
  | .parent _ => Option Nat
  | .sleepLocked _ => Bool
  | .sleepPid _ => Nat
  | .data _ => Nat
  | .ticks => BitVec 32
  | .nextpid => Nat
  | .ticks0 _ => BitVec 32
  | .tickN _ => Nat

/-- The bits of `sstatus` that the kernel looks at; `spp` is set for supervisor mode. -/
structure Sstatus where
  sie : Bool
  spie : Bool
  spp : Bool
  deriving DecidableEq, Repr

inductive Panic where
  | acquire
  | release
  | popOffInterruptible
  | popOff
  | schedPLock
  | schedLocks
  | schedRunning
  | schedInterruptible
  | zombieExit
  | initExiting
  | usertrap
  | kerneltrapUser
  | kerneltrapInterruptible
  | kerneltrap
  | bwrite
  | brelse
  /-- `myproc()` is null where the code follows it -/
  | noProc
  /-- data changed that a sleep-lock guards -/
  | data
  deriving DecidableEq, Repr

inductive Call where
  | fork
  | sfork
  | exit (status : Int)
  | wait (addr : Bool)
  | kill (pid : Nat)
  | sleep (n : Int)
  | uptime
  | getpid
  | setpriority (pid priority : Int)
  | io
  deriving DecidableEq, Repr

/-- What `devintr` tells apart in `scause`. -/
inductive Cause where
  | timer
  | device
  | unknown
  deriving DecidableEq, Repr

/-- Why a process comes back from user mode. -/
inductive Trap where
  | syscall (c : Call)
  | other (cause : Cause)
  deriving DecidableEq, Repr

/-- What a system call on files may do next with a buffer or an inode. -/
inductive IoStep where
  | lock (k : Nat)
  | write (k v : Nat)
  | read (k : Nat)
  | unlock (k : Nat)
  | done
  deriving DecidableEq, Repr

inductive Op where
  | intrGet
  | intrOn
  | intrOff
  | sstatus
  | setSstatus (v : Sstatus)
  | sret
  | cpuid
  | noff
  | setNoff (n : Nat)
  | intena
  | setIntena (b : Bool)
  | cproc
  | setCproc (p : Option Nat)
  | swap (l : Lock)
  | locked (l : Lock)
  | lockCpu (l : Lock)
  | setLockCpu (l : Lock)
  | clearLockCpu (l : Lock)
  | unlock (l : Lock)
  | state (p : Nat)
  | setState (p : Nat) (st : ProcState)
  | load (x : Loc)
  | store (x : Loc) (v : x.Val)
  /-- a read under no lock -/
  | peek (x : Loc)
  /-- a read of `p->state` under no lock -/
  | peekState (p : Nat)
  | setPriority (p : Nat) (n : Int)
  | setContext (p : Nat)
  | swtchTo (p : Nat)
  | swtchBack
  | wfi
  | user
  | attempt
  | ioStep
  | panic (m : Panic)

abbrev Op.Res : Op → Type
  | .intrGet => Bool
  | .sstatus => Sstatus
  | .cpuid => Nat
  | .noff => Nat
  | .intena => Bool
  | .cproc => Option Nat
  | .swap _ => Bool
  | .locked _ => Bool
  | .lockCpu _ => Bool
  | .state _ => ProcState
  | .load x => x.Val
  | .peek x => x.Val
  | .peekState _ => ProcState
  | .user => Trap
  | .attempt => Bool
  | .ioStep => IoStep
  | .panic _ => Empty
  | _ => Unit

abbrev SmpM := Routine Op Op.Res

def op (o : Op) : SmpM o.Res := Routine.op o

def panic {α : Type} (m : Panic) : SmpM α := .act (.panic m) Empty.elim

def panicIf (b : Bool) (m : Panic) : SmpM Unit := if b then panic m else pure ()

def load (x : Loc) : SmpM x.Val := op (.load x)

def store (x : Loc) (v : x.Val) : SmpM Unit := op (.store x v)

def getState (p : Nat) : SmpM ProcState := op (.state p)

def setState (p : Nat) (st : ProcState) : SmpM Unit := op (.setState p st)

/-! ## `spinlock.c` -/

def pushOff : SmpM Unit := do
  let old : Bool ← op .intrGet
  op .intrOff
  let n : Nat ← op .noff
  if n = 0 then
    op (.setIntena old)
  let n : Nat ← op .noff
  op (.setNoff (n + 1))

def popOff : SmpM Unit := do
  let on : Bool ← op .intrGet
  panicIf on .popOffInterruptible
  let n : Nat ← op .noff
  panicIf (decide (n < 1)) .popOff
  let n : Nat ← op .noff
  op (.setNoff (n - 1))
  let n : Nat ← op .noff
  if n = 0 then
    let on : Bool ← op .intena
    if on then
      op .intrOn

def holding (l : Lock) : SmpM Bool := do
  let on : Bool ← op (.locked l)
  if on then
    op (.lockCpu l)
  else
    pure false

def acquire (l : Lock) : SmpM Unit := do
  pushOff
  let held ← holding l
  panicIf held .acquire
  Routine.whileTrue (op (.swap l)) (pure ())
  op (.setLockCpu l)

def release (l : Lock) : SmpM Unit := do
  let held ← holding l
  panicIf (!held) .release
  op (.clearLockCpu l)
  op (.unlock l)
  popOff

/-! ## `proc.c` -/

def myproc : SmpM (Option Nat) := do
  pushOff
  let p : Option Nat ← op .cproc
  popOff
  pure p

/-- `myproc()` where the code goes on to follow the pointer. -/
def self : SmpM Nat := do
  let p ← myproc
  match p with
  | some p => pure p
  | none => panic .noProc

def sched : SmpM Unit := do
  let p ← self
  let held ← holding (.proc p)
  panicIf (!held) .schedPLock
  let n : Nat ← op .noff
  panicIf (decide (n ≠ 1)) .schedLocks
  let st ← getState p
  panicIf (decide (st = .running)) .schedRunning
  let on : Bool ← op .intrGet
  panicIf on .schedInterruptible
  let intena : Bool ← op .intena
  op .swtchBack
  op (.setIntena intena)

def yield : SmpM Unit := do
  let p ← self
  acquire (.proc p)
  setState p .runnable
  sched
  release (.proc p)

def sleep (chan : Chan) (lk : Lock) : SmpM Unit := do
  let p ← self
  acquire (.proc p)
  release lk
  store (.chan p) (some chan)
  setState p .sleeping
  sched
  store (.chan p) none
  release (.proc p)
  acquire lk

def wakeOne (chan : Option Chan) (p : Nat) : SmpM Unit := do
  let me ← myproc
  if some p ≠ me then
    acquire (.proc p)
    let st ← getState p
    if st = .sleeping then
      let on ← load (.chan p)
      if on = chan then
        setState p .runnable
    release (.proc p)

/-- `chan` is `none` for a null pointer. -/
def wakeup (chan : Option Chan) : SmpM Unit := (List.range NPROC).forM (wakeOne chan)

def killed (p : Nat) : SmpM Bool := do
  acquire (.proc p)
  let k ← load (.killed p)
  release (.proc p)
  pure k

def setkilled (p : Nat) : SmpM Unit := do
  acquire (.proc p)
  store (.killed p) true
  release (.proc p)

def killFrom (pid : Nat) : List Nat → SmpM Int
  | [] => pure (-1)
  | p :: ps => do
      acquire (.proc p)
      let n ← load (.pid p)
      if n = pid then
        store (.killed p) true
        let st ← getState p
        if st = .sleeping then
          setState p .runnable
        release (.proc p)
        pure 0
      else
        release (.proc p)
        killFrom pid ps

def kill (pid : Nat) : SmpM Int := killFrom pid (List.range NPROC)

def allocpid : SmpM Nat := do
  acquire .pid
  let pid ← load .nextpid
  let n ← load .nextpid
  store .nextpid (n + 1)
  release .pid
  pure pid

def freeproc (p : Nat) : SmpM Unit := do
  store (.pid p) 0
  store (.parent p) none
  store (.chan p) none
  store (.killed p) false
  store (.xstate p) 0
  setState p .unused

/-- The loop of `allocproc`; the lock of the slot it finds stays held. -/
def findUnused : List Nat → SmpM (Option Nat)
  | [] => pure none
  | p :: ps => do
      acquire (.proc p)
      let st ← getState p
      if st = .unused then
        pure (some p)
      else
        release (.proc p)
        findUnused ps

/-- The two attempts are the trapframe and the page table. -/
def allocproc : SmpM (Option Nat) := do
  let found ← findUnused (List.range NPROC)
  match found with
  | none => pure none
  | some p => do
      let pid ← allocpid
      store (.pid p) pid
      setState p .used
      let trapframe : Bool ← op .attempt
      if trapframe then
        let pagetable : Bool ← op .attempt
        if pagetable then
          op (.setContext p)
          pure (some p)
        else
          freeproc p
          release (.proc p)
          pure none
      else
        freeproc p
        release (.proc p)
        pure none

/-- The attempt is `uvmcopy`. -/
def fork : SmpM Int := do
  let p ← self
  let np ← allocproc
  match np with
  | none => pure (-1)
  | some np => do
      let copied : Bool ← op .attempt
      if copied then
        let pid ← load (.pid np)
        release (.proc np)
        acquire .wait
        store (.parent np) (some p)
        release .wait
        acquire (.proc np)
        setState np .runnable
        release (.proc np)
        pure pid
      else
        freeproc np
        release (.proc np)
        pure (-1)

/-- The lock of the slot that `allocproc` found stays held, so the context that the slot
gets from the caller is never switched to, and is left out. -/
def sfork : SmpM Int := do
  let np ← allocproc
  match np with
  | none => pure (-1)
  | some np => do
      let _ ← self
      let _ ← self
      let p ← self
      store (.parent np) (some p)
      setState np .runnable
      let _ ← self
      let pid ← load (.pid np)
      pure pid

def reparentOne (p pp : Nat) : SmpM Unit := do
  let q ← load (.parent pp)
  if q = some p then
    store (.parent pp) (some initproc)
    wakeup (some (.proc initproc))

def reparent (p : Nat) : SmpM Unit := (List.range NPROC).forM (reparentOne p)

def exit (status : Int) : SmpM Unit := do
  let p ← self
  panicIf (decide (p = initproc)) .initExiting
  acquire .wait
  reparent p
  let q ← load (.parent p)
  wakeup (q.map .proc)
  acquire (.proc p)
  store (.xstate p) status
  setState p .zombie
  release .wait
  sched
  panic .zombieExit

/-- The loop of `wait` over the table: whether there are children, or what `wait`
returns. The attempt is `copyout`. -/
def reap (p : Nat) (addr : Bool) : Bool → List Nat → SmpM (Bool ⊕ Int)
  | havekids, [] => pure (.inl havekids)
  | havekids, pp :: ps => do
      let q ← load (.parent pp)
      if q = some p then
        acquire (.proc pp)
        let st ← getState pp
        if st = .zombie then
          let pid ← load (.pid pp)
          let copied : Bool ←
            if addr then do
              let _ ← load (.xstate pp)
              op .attempt
            else
              pure true
          if copied then
            freeproc pp
            release (.proc pp)
            release .wait
            pure (.inr pid)
          else
            release (.proc pp)
            release .wait
            pure (.inr (-1))
        else
          release (.proc pp)
          reap p addr true ps
      else
        reap p addr havekids ps

def waitTurn (p : Nat) (addr : Bool) : SmpM (Unit ⊕ Int) := do
  let found ← reap p addr false (List.range NPROC)
  match found with
  | .inr r => pure (.inr r)
  | .inl havekids => do
      let stop ← if havekids then killed p else pure true
      if stop then
        release .wait
        pure (.inr (-1))
      else
        sleep (.proc p) .wait
        pure (.inl ())

def wait (addr : Bool) : SmpM Int := do
  let p ← self
  acquire .wait
  .loop (fun _ : Unit => waitTurn p addr) () pure

/-! ## The scheduler -/

def scan : Bool → List Nat → SmpM Bool
  | found, [] => pure found
  | found, p :: ps => do
      acquire (.proc p)
      let st ← getState p
      if st = .runnable then
        setState p .running
        op (.setCproc (some p))
        op (.swtchTo p)
        op (.setCproc none)
        release (.proc p)
        scan true ps
      else
        release (.proc p)
        scan found ps

def schedulerTurn : SmpM Unit := do
  op .intrOn
  let found ← scan false (List.range NPROC)
  if !found then
    op .intrOn
    op .wfi

def scheduler : SmpM Unit := do
  op (.setCproc none)
  Routine.forever schedulerTurn

/-! ## `sleeplock.c` and its use for buffers -/

def acquiresleep (k : Nat) : SmpM Unit := do
  acquire (.sleep k)
  Routine.whileTrue (load (.sleepLocked k)) (sleep (.sleep k) (.sleep k))
  store (.sleepLocked k) true
  let p ← self
  let pid ← load (.pid p)
  store (.sleepPid k) pid
  release (.sleep k)

def releasesleep (k : Nat) : SmpM Unit := do
  acquire (.sleep k)
  store (.sleepLocked k) false
  store (.sleepPid k) 0
  wakeup (some (.sleep k))
  release (.sleep k)

def holdingsleep (k : Nat) : SmpM Bool := do
  acquire (.sleep k)
  let on ← load (.sleepLocked k)
  let r ←
    if on then do
      let pid ← load (.sleepPid k)
      let p ← self
      let mine ← load (.pid p)
      pure (decide (pid = mine))
    else
      pure false
  release (.sleep k)
  pure r

def bwrite (k v : Nat) : SmpM Unit := do
  let held ← holdingsleep k
  panicIf (!held) .bwrite
  store (.data k) v

def brelse (k : Nat) : SmpM Unit := do
  let held ← holdingsleep k
  panicIf (!held) .brelse
  releasesleep k

/-- One step of a system call on files, which holds the sleep-locks in `held` and last
saw the given data under each of them. -/
def ioTurn (held : List (Nat × Nat)) : SmpM (List (Nat × Nat) ⊕ Int) := do
  let step : IoStep ← op .ioStep
  match step with
  | .lock k =>
      if (held.lookup k).isSome then
        pure (.inl held)
      else do
        acquiresleep k
        let v ← load (.data k)
        pure (.inl ((k, v) :: held))
  | .write k v =>
      if (held.lookup k).isSome then do
        bwrite k v
        pure (.inl ((k, v) :: held.filter (·.1 ≠ k)))
      else
        pure (.inl held)
  | .read k =>
      match held.lookup k with
      | some v => do
          let v' ← load (.data k)
          panicIf (decide (v' ≠ v)) .data
          pure (.inl held)
      | none => pure (.inl held)
  | .unlock k =>
      if (held.lookup k).isSome then do
        brelse k
        pure (.inl (held.filter (·.1 ≠ k)))
      else
        pure (.inl held)
  | .done =>
      match held with
      | [] => pure (.inr 0)
      | _ :: _ => pure (.inl held)

def sysIo : SmpM Int := .loop ioTurn [] pure

/-! ## `sysproc.c` -/

/-- `while(ticks - ticks0 < n)`, with the subtraction of `uint`. -/
def sysSleepTurn (p : Nat) : SmpM (Unit ⊕ Int) := do
  let ticks ← load .ticks
  let ticks0 ← load (.ticks0 p)
  let n ← load (.tickN p)
  if (ticks - ticks0).toNat < n then
    let p ← self
    let stop ← killed p
    if stop then
      release .tick
      pure (.inr (-1))
    else
      sleep .ticks .tick
      pure (.inl ())
  else
    release .tick
    pure (.inr 0)

def sysSleep (n : Int) : SmpM Int := do
  let p ← self
  store (.tickN p) n.toNat
  acquire .tick
  let ticks ← load .ticks
  store (.ticks0 p) ticks
  .loop (fun _ : Unit => sysSleepTurn p) () pure

def sysUptime : SmpM Int := do
  acquire .tick
  let xticks ← load .ticks
  release .tick
  pure xticks.toNat

def sysGetpid : SmpM Int := do
  let p ← self
  let pid ← load (.pid p)
  pure pid

def setPriorityFrom (pid priority : Int) : List Nat → SmpM Int
  | [] => pure (-1)
  | p :: ps => do
      let n : Nat ← op (.peek (.pid p))
      if (n : Int) = pid then
        op (.setPriority p priority)
        pure 0
      else
        setPriorityFrom pid priority ps

def sysSetpriority (pid priority : Int) : SmpM Int :=
  if pid < 0 ∨ priority < 0 then
    pure (-1)
  else
    setPriorityFrom pid priority (List.range NPROC)

/-! ## `trap.c` -/

def clockintr : SmpM Unit := do
  let id : Nat ← op .cpuid
  if id = 0 then
    acquire .tick
    let ticks ← load .ticks
    store .ticks (ticks + 1)
    wakeup (some .ticks)
    release .tick

def dumpOne (p : Nat) : SmpM Unit := do
  let st : ProcState ← op (.peekState p)
  if st ≠ .unused then
    let _ ← op (.peekState p)
    let _ ← op (.peek (.pid p))

def procdump : SmpM Unit := (List.range NPROC).forM dumpOne

/-- The attempt is whether a device's interrupt has brought a `^P`. -/
def devintr : Cause → SmpM Nat
  | .device => do
      let dump : Bool ← op .attempt
      if dump then
        procdump
      pure 1
  | .timer => do
      clockintr
      pure 2
  | .unknown => pure 0

def kerneltrap (cause : Cause) : SmpM Unit := do
  let sstatus : Sstatus ← op .sstatus
  panicIf (!sstatus.spp) .kerneltrapUser
  let on : Bool ← op .intrGet
  panicIf on .kerneltrapInterruptible
  let which ← devintr cause
  panicIf (decide (which = 0)) .kerneltrap
  if which = 2 then
    let p ← myproc
    if p ≠ none then
      yield
  op (.setSstatus sstatus)

/-- `kernelvec.S` from the entry to the `sret`. -/
def kernelvec (cause : Cause) : SmpM Unit := do
  kerneltrap cause
  op .sret

def syscall : Call → SmpM Int
  | .fork => fork
  | .sfork => sfork
  | .exit n => do
      exit n
      pure 0
  | .wait addr => wait addr
  | .kill pid => kill pid
  | .sleep n => sysSleep n
  | .uptime => sysUptime
  | .getpid => sysGetpid
  | .setpriority pid priority => sysSetpriority pid priority
  | .io => sysIo

def usertrapret : SmpM Unit := do
  let _ ← self
  op .intrOff
  let x : Sstatus ← op .sstatus
  op (.setSstatus { x with spp := false, spie := true })

/-- What `usertrap` does on its cause, and `which_dev` after it. -/
def trapCause (p : Nat) : Trap → SmpM Nat
  | .syscall c => do
      let k ← killed p
      if k then
        exit (-1)
      op .intrOn
      let _ ← syscall c
      pure 0
  | .other cause => do
      let which ← devintr cause
      if which = 0 then
        setkilled p
      pure which

def usertrap (cause : Trap) : SmpM Unit := do
  let sstatus : Sstatus ← op .sstatus
  panicIf sstatus.spp .usertrap
  let p ← self
  let which ← trapCause p cause
  let k ← killed p
  if k then
    exit (-1)
  if which = 2 then
    yield
  usertrapret

/-- A process from its first return to user mode on. -/
def userLoop : SmpM Unit :=
  Routine.forever (do
    let cause : Trap ← op .user
    usertrap cause)

def forkret : SmpM Unit := do
  let p ← self
  release (.proc p)
  usertrapret
  userLoop

/-! ## The machine -/

structure Cpu where
  proc : Option Nat := none
  noff : Nat := 0
  intena : Bool := false
  sie : Bool := false
  spie : Bool := false
  spp : Bool := false
  /-- the thread whose registers the CPU holds -/
  cur : Thread

structure Spinlock where
  locked : Bool := false
  cpu : Option Nat := none

structure State where
  cpu : Nat → Cpu
  lock : Lock → Spinlock
  state : Nat → ProcState
  mem : ∀ x : Loc, x.Val
  priority : Nat → Int

def State.setCpu (s : State) (c : Nat) (u : Cpu) : State :=
  { s with cpu := Function.update s.cpu c u }

def State.setLock (s : State) (l : Lock) (k : Spinlock) : State :=
  { s with lock := Function.update s.lock l k }

def State.setState (s : State) (p : Nat) (st : ProcState) : State :=
  { s with state := Function.update s.state p st }

def State.setMem (s : State) (x : Loc) (v : x.Val) : State :=
  { s with mem := Function.update s.mem x v }

def State.setPriority (s : State) (p : Nat) (n : Int) : State :=
  { s with priority := Function.update s.priority p n }

/-- What the operations do on the CPU `c`. -/
def Does (c : Nat) (s : State) : (o : Op) → o.Res → State → Prop
  | .intrGet, r, s' => r = (s.cpu c).sie ∧ s' = s
  | .intrOn, _, s' => s' = s.setCpu c { s.cpu c with sie := true }
  | .intrOff, _, s' => s' = s.setCpu c { s.cpu c with sie := false }
  | .sstatus, r, s' => r = ⟨(s.cpu c).sie, (s.cpu c).spie, (s.cpu c).spp⟩ ∧ s' = s
  | .setSstatus v, _, s' =>
      s' = s.setCpu c { s.cpu c with sie := v.sie, spie := v.spie, spp := v.spp }
  | .sret, _, s' =>
      s' = s.setCpu c { s.cpu c with sie := (s.cpu c).spie, spie := true, spp := false }
  | .cpuid, r, s' => r = c ∧ s' = s
  | .noff, r, s' => r = (s.cpu c).noff ∧ s' = s
  | .setNoff n, _, s' => s' = s.setCpu c { s.cpu c with noff := n }
  | .intena, r, s' => r = (s.cpu c).intena ∧ s' = s
  | .setIntena b, _, s' => s' = s.setCpu c { s.cpu c with intena := b }
  | .cproc, r, s' => r = (s.cpu c).proc ∧ s' = s
  | .setCproc p, _, s' => s' = s.setCpu c { s.cpu c with proc := p }
  | .swap l, r, s' =>
      r = (s.lock l).locked ∧ s' = s.setLock l { s.lock l with locked := true }
  | .locked l, r, s' => r = (s.lock l).locked ∧ s' = s
  | .lockCpu l, r, s' => r = decide ((s.lock l).cpu = some c) ∧ s' = s
  | .setLockCpu l, _, s' => s' = s.setLock l { s.lock l with cpu := some c }
  | .clearLockCpu l, _, s' => s' = s.setLock l { s.lock l with cpu := none }
  | .unlock l, _, s' => s' = s.setLock l { s.lock l with locked := false }
  | .state p, r, s' => r = s.state p ∧ s' = s
  | .setState p st, _, s' => s' = s.setState p st
  | .load x, r, s' => r = s.mem x ∧ s' = s
  | .store x v, _, s' => s' = s.setMem x v
  | .peek x, r, s' => r = s.mem x ∧ s' = s
  | .peekState p, r, s' => r = s.state p ∧ s' = s
  | .setPriority p n, _, s' => s' = s.setPriority p n
  | .setContext _, _, s' => s' = s
  | .swtchTo p, _, s' => s' = s.setCpu c { s.cpu c with cur := .proc p }
  | .swtchBack, _, s' => s' = s.setCpu c { s.cpu c with cur := .cpu c }
  | .wfi, _, s' => s' = s
  | .user, _, s' => s' = s.setCpu c { s.cpu c with sie := false, spp := false }
  | .attempt, _, s' => s' = s
  | .ioStep, _, s' => s' = s
  | .panic _, _, _ => False

/-- The code of the kernel raises no exception: an interrupt on the CPU `c` is the
timer's or a device's. The hardware turns interrupts off and remembers in `sstatus` that
they were on. -/
inductive Interrupts (t : Thread) (s : State) : SmpM Unit → State → Prop where
  | trap (c : Nat) (cause : Cause) (hcause : cause ≠ .unknown) (hcur : (s.cpu c).cur = t)
      (hsie : (s.cpu c).sie = true) :
      Interrupts t s (kernelvec cause)
        (s.setCpu c { s.cpu c with sie := false, spie := true, spp := true })

/-- A process only makes the system calls in `calls`. -/
def Asks (calls : Call → Prop) : (o : Op) → o.Res → Prop
  | .user, r => ∀ k, r = .syscall k → calls k
  | _, _ => True

/-- The kernel under processes that only make the system calls in `calls`. -/
def machine (calls : Call → Prop) : Threads.Machine State Thread Op Op.Res where
  act t o s r s' := (∃ c, (s.cpu c).cur = t ∧ Does c s o r s') ∧ Asks calls o r
  spawn o :=
    match o with
    | .setContext p => some (.proc p, forkret)
    | _ => none
  interrupt := Interrupts

/-- After `userinit`, with every CPU about to call `scheduler`. -/
def booted : Threads State Thread Op Op.Res where
  shared :=
    { cpu := fun c => { cur := .cpu c }
      lock := fun _ => {}
      state := fun p => if p = initproc then .runnable else .unused
      mem := fun x =>
        match x with
        | .chan _ => none
        | .killed _ => false
        | .xstate _ => 0
        | .pid p => if p = initproc then 1 else 0
        | .parent _ => none
        | .sleepLocked _ => false
        | .sleepPid _ => 0
        | .data _ => 0
        | .ticks => 0
        | .nextpid => 2
        | .ticks0 _ => 0
        | .tickN _ => 0
      priority := fun _ => 0 }
  code t :=
    match t with
    | .cpu _ => scheduler
    | .proc p => if p = initproc then forkret else .ret ()

/-- All system calls but `sfork`, which returns with the lock of its child held. -/
def Plain (k : Call) : Prop := k ≠ .sfork

instance : DecidablePred Plain := fun k => inferInstanceAs (Decidable (k ≠ .sfork))

/-- The states of the kernel, under any schedule of the CPUs and any interrupts, as long as
no process calls `sfork`. -/
def Reachable (c : Threads State Thread Op Op.Res) : Prop :=
  Threads.Reachable (machine Plain) booted c

end SyscallSched.Xv6.Smp
