import SyscallSched.Xv6.Smp.Model

/-!
# Running the machine

`take` is one step of the machine as a function: of the CPU that goes on, and of what the
world outside the kernel answers.
-/

namespace SyscallSched.Xv6.Smp

open SyscallSched.Foundation

instance (x : Loc) : DecidableEq x.Val := by
  cases x <;> unfold Loc.Val <;> infer_instance

deriving instance DecidableEq for Op

/-- What a thread is told from outside the kernel. -/
structure World where
  trap : Trap := .other .timer
  attempt : Bool := true
  io : IoStep := .done

def perform (a : Nat) (w : World) (s : State) : (o : Op) → Option (o.Res × State)
  | .intrGet => some ((s.cpu a).sie, s)
  | .intrOn => some ((), s.setCpu a { s.cpu a with sie := true })
  | .intrOff => some ((), s.setCpu a { s.cpu a with sie := false })
  | .sstatus => some (⟨(s.cpu a).sie, (s.cpu a).spie, (s.cpu a).spp⟩, s)
  | .setSstatus v =>
      some ((), s.setCpu a { s.cpu a with sie := v.sie, spie := v.spie, spp := v.spp })
  | .sret =>
      some ((), s.setCpu a { s.cpu a with sie := (s.cpu a).spie, spie := true, spp := false })
  | .cpuid => some (a, s)
  | .noff => some ((s.cpu a).noff, s)
  | .setNoff n => some ((), s.setCpu a { s.cpu a with noff := n })
  | .intena => some ((s.cpu a).intena, s)
  | .setIntena b => some ((), s.setCpu a { s.cpu a with intena := b })
  | .cproc => some ((s.cpu a).proc, s)
  | .setCproc p => some ((), s.setCpu a { s.cpu a with proc := p })
  | .swap l => some ((s.lock l).locked, s.setLock l { s.lock l with locked := true })
  | .locked l => some ((s.lock l).locked, s)
  | .lockCpu l => some (decide ((s.lock l).cpu = some a), s)
  | .setLockCpu l => some ((), s.setLock l { s.lock l with cpu := some a })
  | .clearLockCpu l => some ((), s.setLock l { s.lock l with cpu := none })
  | .unlock l => some ((), s.setLock l { s.lock l with locked := false })
  | .state p => some (s.state p, s)
  | .setState p st => some ((), s.setState p st)
  | .load x => some (s.mem x, s)
  | .store x v => some ((), s.setMem x v)
  | .peek x => some (s.mem x, s)
  | .peekState p => some (s.state p, s)
  | .setPriority p n => some ((), s.setPriority p n)
  | .setContext _ => some ((), s)
  | .swtchTo p => some ((), s.setCpu a { s.cpu a with cur := .proc p })
  | .swtchBack => some ((), s.setCpu a { s.cpu a with cur := .cpu a })
  | .wfi => some ((), s)
  | .user => some (w.trap, s.setCpu a { s.cpu a with sie := false, spp := false })
  | .attempt => some (w.attempt, s)
  | .ioStep => some (w.io, s)
  | .panic _ => none

theorem does_iff_perform {a : Nat} {s s' : State} {o : Op} {r : o.Res} :
    Does a s o r s' ↔ ∃ w, perform a w s o = some (r, s') := by
  constructor
  · intro h
    cases o
    case user =>
        cases h
        exact ⟨{ trap := r }, rfl⟩
    case attempt =>
        cases h
        exact ⟨{ attempt := r }, rfl⟩
    case ioStep =>
        cases h
        exact ⟨{ io := r }, rfl⟩
    case panic m => exact h.elim
    all_goals
      obtain ⟨rfl, rfl⟩ := h
      exact ⟨{}, rfl⟩
  · rintro ⟨w, h⟩
    cases o
    case panic m => cases h
    all_goals
      cases h
      first | rfl | exact ⟨rfl, rfl⟩

theorem asks_of_perform {calls : Call → Prop} {a : Nat} {w : World} {s s' : State} {o : Op}
    {r : o.Res} (hw : ∀ k, w.trap = .syscall k → calls k)
    (h : perform a w s o = some (r, s')) : Asks calls o r := by
  cases o
  case user =>
      cases h
      exact hw
  all_goals exact trivial

inductive Turn where
  | go (a : Nat) (w : World)
  | interrupt (a : Nat) (cause : Cause)

/-- A turn in which a process can only make the system calls in `calls`. -/
def Turn.Asks (calls : Call → Prop) : Turn → Prop
  | .go _ w => ∀ k, w.trap = .syscall k → calls k
  | .interrupt _ _ => True

def take (c : Threads State Thread Op Op.Res) : Turn → Option (Threads State Thread Op Op.Res)
  | .go a w =>
      match c.code (c.shared.cpu a).cur with
      | .ret _ => none
      | .act o next =>
          (perform a w c.shared o).map fun x =>
            { shared := x.2
              code := Function.update ((machine Plain).spawned o c.code) (c.shared.cpu a).cur
                (next x.1) }
      | .loop body s next =>
          some { c with
            code := Function.update c.code (c.shared.cpu a).cur (Routine.turn body s next) }
  | .interrupt a cause =>
      if (c.shared.cpu a).sie ∧ cause ≠ .unknown then
        some
          { shared := c.shared.setCpu a
              { c.shared.cpu a with sie := false, spie := true, spp := true }
            code := Function.update c.code (c.shared.cpu a).cur
              ((kernelvec cause).bind fun _ => c.code (c.shared.cpu a).cur) }
      else
        none

variable {calls : Call → Prop} {c c' : Threads State Thread Op Op.Res} {e : Turn}

theorem step_of_take (he : e.Asks calls) (h : take c e = some c') :
    Threads.Step (machine calls) c c' := by
  cases e with
  | go a w =>
      cases hcode : c.code (c.shared.cpu a).cur with
      | ret u => simp [take, hcode] at h
      | act o next =>
          simp only [take, hcode, Option.map_eq_some_iff] at h
          obtain ⟨⟨r, s'⟩, hperform, rfl⟩ := h
          exact .act hcode ⟨⟨a, rfl, does_iff_perform.2 ⟨w, hperform⟩⟩,
            asks_of_perform he hperform⟩
      | loop body s next =>
          simp only [take, hcode, Option.some.injEq] at h
          subst h
          exact .turn hcode
  | interrupt a cause =>
      simp only [take] at h
      split at h
      case isTrue hand =>
          cases h
          exact .interrupt (.trap a cause hand.2 rfl hand.1)
      case isFalse => cases h

/-- The turns that cannot be taken change nothing. -/
def run (c : Threads State Thread Op Op.Res) : List Turn → Threads State Thread Op Op.Res
  | [] => c
  | e :: es => run ((take c e).getD c) es

theorem reachable_run (h : Threads.Reachable (machine calls) booted c) {es : List Turn}
    (hes : ∀ e ∈ es, e.Asks calls) : Threads.Reachable (machine calls) booted (run c es) := by
  induction es generalizing c with
  | nil => exact h
  | cons e es ih =>
      refine ih ?_ fun e' he' => hes e' (by simp [he'])
      cases hstep : take c e with
      | none => exact h
      | some c' => exact .step h (step_of_take (hes e (by simp)) hstep)

theorem step_run (he : e.Asks calls) (h : (take c e).isSome = true) :
    Threads.Step (machine calls) c (run c [e]) := by
  obtain ⟨c', hc'⟩ := Option.isSome_iff_exists.1 h
  have hrun : run c [e] = c' := by simp [run, hc']
  rw [hrun]
  exact step_of_take he hc'

def nextOp (c : Threads State Thread Op Op.Res) (a : Nat) : Option Op :=
  match c.code (c.shared.cpu a).cur with
  | .ret _ => none
  | .act o _ => some o
  | .loop _ _ _ => none

def turns (a : Nat) (call : Call) (n : Nat) : List Turn :=
  List.replicate n (.go a { trap := .syscall call })

theorem asks_of_mem_turns {a n : Nat} {call : Call} (hcall : calls call) :
    ∀ e ∈ turns a call n, e.Asks calls := by
  intro e he
  rw [List.eq_of_mem_replicate he]
  rintro k ⟨⟩
  exact hcall

def solo (call : Call) (n : Nat) : Threads State Thread Op Op.Res := run booted (turns 0 call n)

theorem reachable_solo {call : Call} (hcall : Plain call) {n : Nat} : Reachable (solo call n) :=
  reachable_run .init (asks_of_mem_turns hcall)

end SyscallSched.Xv6.Smp
