import Mathlib.Data.List.Nodup
import Mathlib.Algebra.Order.Ring.Int

/-!
# Process life cycle

An abstract process table of `n` slots.  A process is created in three parts:
its slot is taken, it gets its parent, and it becomes runnable.  `exits` and
`reaps` record what was passed to `exit` and what `wait` has reported.
-/

namespace SyscallSched.Xv6.Family

inductive Stage where
  | unused
  | creating
  | alive
  | zombie
  deriving DecidableEq, Repr

structure Entry where
  stage : Stage := .unused
  pid : Nat := 0
  parent : Option Nat := none
  xstate : Int := 0
  killed : Bool := false
  deriving DecidableEq, Repr

structure Table where
  entry : Nat → Entry
  nextpid : Nat
  init : Option Nat

def Table.set (t : Table) (p : Nat) (e : Entry) : Table :=
  { t with entry := fun q => if q = p then e else t.entry q }

@[simp] theorem Table.set_entry_self (t : Table) (p : Nat) (e : Entry) :
    (t.set p e).entry p = e := by
  simp [Table.set]

@[simp] theorem Table.set_entry_ne (t : Table) {p q : Nat} (e : Entry) (h : q ≠ p) :
    (t.set p e).entry q = t.entry q := by
  simp [Table.set, h]

@[simp] theorem Table.set_nextpid (t : Table) (p : Nat) (e : Entry) :
    (t.set p e).nextpid = t.nextpid := rfl

@[simp] theorem Table.set_init (t : Table) (p : Nat) (e : Entry) : (t.set p e).init = t.init :=
  rfl

def Table.take (t : Table) (p : Nat) : Table :=
  { t.set p { t.entry p with stage := .creating, pid := t.nextpid } with
    nextpid := t.nextpid + 1 }

def Table.clear (t : Table) (p : Nat) : Table := t.set p {}

def Table.adopt (t : Table) (p np : Nat) : Table :=
  t.set np { t.entry np with parent := some p }

def Table.start (t : Table) (p : Nat) : Table := t.set p { t.entry p with stage := .alive }

def Table.kill (t : Table) (p : Nat) : Table := t.set p { t.entry p with killed := true }

/-- The children of `p` among the first `n` slots get the parent `t.init`. -/
def Table.reparent (t : Table) (p n : Nat) : Table :=
  { t with entry := fun q =>
      if q < n ∧ (t.entry q).parent = some p then { t.entry q with parent := t.init }
      else t.entry q }

def Table.bury (t : Table) (p : Nat) (status : Int) : Table :=
  t.set p { t.entry p with stage := .zombie, xstate := status }

section

variable {p : Nat}

theorem reparent_zero (t : Table) : t.reparent p 0 = t := by
  simp [Table.reparent]

theorem reparent_succ (t : Table) (i : Nat) : t.reparent p (i + 1) =
    if (t.entry i).parent = some p then
      (t.reparent p i).set i { t.entry i with parent := t.init }
    else t.reparent p i := by
  by_cases hi : (t.entry i).parent = some p
  · rw [if_pos hi]
    simp only [Table.reparent, Table.set, Table.mk.injEq, and_true]
    funext q
    by_cases hq : q = i
    · simp [hq, hi]
    · have hlt : q < i + 1 ↔ q < i := by omega
      simp [hq, hlt]
  · rw [if_neg hi]
    simp only [Table.reparent, Table.mk.injEq, and_true]
    funext q
    by_cases hq : q = i
    · simp [hq, hi]
    · have hlt : q < i + 1 ↔ q < i := by omega
      simp [hlt]

theorem reparent_entry_self (t : Table) (i : Nat) : (t.reparent p i).entry i = t.entry i := by
  simp [Table.reparent]

end

inductive Phase where
  | idle
  | copied (child : Nat)
  | adopted (child : Nat)
  deriving DecidableEq, Repr

def Phase.child : Phase → Option Nat
  | .idle => none
  | .copied np | .adopted np => some np

structure Reap where
  slot : Nat
  caller : Nat
  pid : Nat
  status : Int

structure Life where
  table : Table
  phase : Nat → Phase
  /-- the pid of the process that created the one with the given pid -/
  creator : Nat → Nat
  exits : List (Nat × Int)
  reaps : List Reap

def Life.setPhase (l : Life) (p : Nat) (ph : Phase) : Life :=
  { l with phase := fun q => if q = p then ph else l.phase q }

/-! ## Steps -/

section

variable (l : Life)

def Life.allocFailed (np : Nat) : Life := { l with table := (l.table.take np).clear np }

def Life.copied (p np : Nat) : Life :=
  { l with table := l.table.take np }.setPhase p (.copied np)

def Life.adopted (p np : Nat) : Life :=
  { l with
    table := l.table.adopt p np
    creator := fun pid =>
      if pid = (l.table.entry np).pid then (l.table.entry p).pid else l.creator pid
  }.setPhase p (.adopted np)

def Life.started (p np : Nat) : Life := { l with table := l.table.start np }.setPhase p .idle

def Life.exited (n p : Nat) (status : Int) : Life :=
  { l with
    table := (l.table.reparent p n).bury p status
    exits := l.exits ++ [((l.table.entry p).pid, status)] }

def Life.reaped (p c : Nat) : Life :=
  { l with
    table := l.table.clear c
    reaps := l.reaps ++ [{
      slot := p
      caller := (l.table.entry p).pid
      pid := (l.table.entry c).pid
      status := (l.table.entry c).xstate }] }

def Life.killed (c : Nat) : Life := { l with table := l.table.kill c }

end

/-- One step, over `n` slots.  A tame step kills no unused slot. -/
inductive Step (n : Nat) : Bool → Life → Life → Prop where
  | stay (tame : Bool) (l : Life) : Step n tame l l
  | allocFailed (tame : Bool) (l : Life) (np : Nat) (hnp : np < n)
      (hunused : (l.table.entry np).stage = .unused) : Step n tame l (l.allocFailed np)
  | copied (tame : Bool) (l : Life) (p np : Nat) (halive : (l.table.entry p).stage = .alive)
      (hidle : l.phase p = .idle) (hnp : np < n)
      (hunused : (l.table.entry np).stage = .unused) : Step n tame l (l.copied p np)
  | adopted (tame : Bool) (l : Life) (p np : Nat) (hphase : l.phase p = .copied np) :
      Step n tame l (l.adopted p np)
  | started (tame : Bool) (l : Life) (p np : Nat) (hphase : l.phase p = .adopted np) :
      Step n tame l (l.started p np)
  | exited (tame : Bool) (l : Life) (p : Nat) (status : Int)
      (halive : (l.table.entry p).stage = .alive) (hidle : l.phase p = .idle)
      (hinit : l.table.init ≠ some p) : Step n tame l (l.exited n p status)
  | reaped (tame : Bool) (l : Life) (p c : Nat)
      (hzombie : (l.table.entry c).stage = .zombie)
      (hparent : (l.table.entry c).parent = some p) : Step n tame l (l.reaped p c)
  | killed (tame : Bool) (l : Life) (c : Nat)
      (hlive : (l.table.entry c).stage = .unused → tame = false) :
      Step n tame l (l.killed c)

def Life.zombies (l : Life) (n : Nat) : Nat :=
  (List.range n).countP fun p => (l.table.entry p).stage = .zombie

structure Inv (n : Nat) (l : Life) : Prop where
  bounded : ∀ p, (l.table.entry p).stage ≠ .unused → p < n
  cleared : ∀ p, (l.table.entry p).stage = .unused →
    (l.table.entry p).pid = 0 ∧ (l.table.entry p).parent = none
  numbered : ∀ p, (l.table.entry p).stage ≠ .unused →
    0 < (l.table.entry p).pid ∧ (l.table.entry p).pid < l.table.nextpid
  distinct : ∀ p q, (l.table.entry p).stage ≠ .unused →
    (l.table.entry p).pid = (l.table.entry q).pid → p = q
  init : ∃ i, l.table.init = some i ∧ (l.table.entry i).stage = .alive
  forker : ∀ p np, (l.phase p).child = some np →
    (l.table.entry p).stage = .alive ∧ (l.table.entry np).stage = .creating
  unadopted : ∀ p np, l.phase p = .copied np → (l.table.entry np).parent = none
  adopted : ∀ p np, l.phase p = .adopted np → (l.table.entry np).parent = some p
  creating : ∀ np, (l.table.entry np).stage = .creating → ∃ p, (l.phase p).child = some np
  exclusive : ∀ p q np, (l.phase p).child = some np → (l.phase q).child = some np → p = q
  parents : ∀ p q, (l.table.entry p).parent = some q → (l.table.entry q).stage = .alive
  raised : ∀ p, (l.table.entry p).stage = .alive ∨ (l.table.entry p).stage = .zombie →
    l.table.init ≠ some p → (l.table.entry p).parent ≠ none
  created : ∀ p q, (l.table.entry p).parent = some q →
    l.creator (l.table.entry p).pid = (l.table.entry q).pid ∨ l.table.init = some q
  exitedOnce : (l.exits.map Prod.fst).Nodup
  exitedOld : ∀ pid ∈ l.exits.map Prod.fst, pid < l.table.nextpid
  living : ∀ p, (l.table.entry p).stage = .creating ∨ (l.table.entry p).stage = .alive →
    (l.table.entry p).pid ∉ l.exits.map Prod.fst
  zombie : ∀ p, (l.table.entry p).stage = .zombie →
    ((l.table.entry p).pid, (l.table.entry p).xstate) ∈ l.exits ∧
      (l.table.entry p).pid ∉ l.reaps.map Reap.pid
  reapedOnce : (l.reaps.map Reap.pid).Nodup
  reapedExit : ∀ r ∈ l.reaps, (r.pid, r.status) ∈ l.exits
  reapedBy : ∀ r ∈ l.reaps, l.creator r.pid = r.caller ∨ l.table.init = some r.slot
  counted : l.zombies n + l.reaps.length = l.exits.length

/-! ## What the steps change -/

section

variable {n p q np c pid : Nat} {status : Int} {l : Life}

@[grind =] theorem allocFailed_entry : (l.allocFailed np).table.entry q =
    if q = np then {} else l.table.entry q := by
  by_cases hq : q = np <;> simp [Life.allocFailed, Table.clear, Table.take, Table.set, hq]

@[grind =] theorem copied_entry : (l.copied p np).table.entry q =
    if q = np then { l.table.entry np with stage := .creating, pid := l.table.nextpid }
    else l.table.entry q := rfl

@[grind =] theorem copied_phase : (l.copied p np).phase q =
    if q = p then .copied np else l.phase q := rfl

@[grind =] theorem adopted_entry : (l.adopted p np).table.entry q =
    if q = np then { l.table.entry np with parent := some p } else l.table.entry q := rfl

@[grind =] theorem adopted_phase : (l.adopted p np).phase q =
    if q = p then .adopted np else l.phase q := rfl

@[grind =] theorem adopted_creator : (l.adopted p np).creator pid =
    if pid = (l.table.entry np).pid then (l.table.entry p).pid else l.creator pid := rfl

@[grind =] theorem started_entry : (l.started p np).table.entry q =
    if q = np then { l.table.entry np with stage := .alive } else l.table.entry q := rfl

@[grind =] theorem started_phase : (l.started p np).phase q =
    if q = p then .idle else l.phase q := rfl

@[grind =] theorem reparent_entry {t : Table} : (t.reparent p n).entry q =
    if q < n ∧ (t.entry q).parent = some p then { t.entry q with parent := t.init }
    else t.entry q := rfl

@[grind =] theorem exited_entry : (l.exited n p status).table.entry q =
    if q = p then
      { (l.table.reparent p n).entry p with stage := .zombie, xstate := status }
    else (l.table.reparent p n).entry q := rfl

@[grind =] theorem exited_exits : (l.exited n p status).exits =
    l.exits ++ [((l.table.entry p).pid, status)] := rfl

@[grind =] theorem reaped_reaps : (l.reaped p c).reaps = l.reaps ++ [{
    slot := p
    caller := (l.table.entry p).pid
    pid := (l.table.entry c).pid
    status := (l.table.entry c).xstate }] := rfl

@[grind =] theorem reaped_entry : (l.reaped p c).table.entry q =
    if q = c then {} else l.table.entry q := rfl

@[grind =] theorem killed_entry : (l.killed c).table.entry q =
    if q = c then { l.table.entry c with killed := true } else l.table.entry q := rfl

@[grind =] theorem allocFailed_init : (l.allocFailed np).table.init = l.table.init := rfl

@[grind =] theorem allocFailed_nextpid :
    (l.allocFailed np).table.nextpid = l.table.nextpid + 1 := rfl

@[grind =] theorem copied_init : (l.copied p np).table.init = l.table.init := rfl

@[grind =] theorem copied_nextpid : (l.copied p np).table.nextpid = l.table.nextpid + 1 := rfl

@[grind =] theorem adopted_init : (l.adopted p np).table.init = l.table.init := rfl

@[grind =] theorem adopted_nextpid : (l.adopted p np).table.nextpid = l.table.nextpid := rfl

@[grind =] theorem started_init : (l.started p np).table.init = l.table.init := rfl

@[grind =] theorem started_nextpid : (l.started p np).table.nextpid = l.table.nextpid := rfl

@[grind =] theorem exited_init : (l.exited n p status).table.init = l.table.init := rfl

@[grind =] theorem exited_nextpid : (l.exited n p status).table.nextpid = l.table.nextpid := rfl

@[grind =] theorem reaped_init : (l.reaped p c).table.init = l.table.init := rfl

@[grind =] theorem reaped_nextpid : (l.reaped p c).table.nextpid = l.table.nextpid := rfl

@[grind =] theorem killed_init : (l.killed c).table.init = l.table.init := rfl

@[grind =] theorem killed_nextpid : (l.killed c).table.nextpid = l.table.nextpid := rfl

@[grind =] theorem allocFailed_phase : (l.allocFailed np).phase q = l.phase q := rfl

end

/-! ## Steps keep the invariant -/

section

variable {n p q np c : Nat} {status : Int} {l : Life}

theorem zombies_congr {l' : Life}
    (h : ∀ q < n, (l'.table.entry q).stage = .zombie ↔ (l.table.entry q).stage = .zombie) :
    l'.zombies n = l.zombies n := by
  apply List.countP_congr
  intro q hq
  simpa using h q (List.mem_range.mp hq)

theorem Inv.allocFailed (h : Inv n l) (hunused : (l.table.entry np).stage = .unused) :
    Inv n (l.allocFailed np) := by
  have hclear := h.cleared np hunused
  constructor
  case bounded => have := h.bounded; grind
  case cleared => have := h.cleared; grind
  case numbered => have := h.numbered; grind
  case distinct => have := h.distinct; have := h.numbered; have := h.cleared; grind
  case init => have := h.init; grind
  case forker => exact fun q c hq => by have := h.forker q c hq; grind
  case unadopted => exact fun q c hq => by have := h.unadopted q c hq; grind
  case adopted => exact fun q c hq => by have := h.adopted q c hq; grind
  case creating => exact fun q hq => h.creating q (by grind)
  case exclusive => exact h.exclusive
  case parents => have := h.parents; grind
  case raised => have := h.raised; grind
  case created =>
      intro q c hq
      have := h.created q c
      have := h.parents q c
      change l.creator _ = _ ∨ _
      grind
  case exitedOnce => exact h.exitedOnce
  case exitedOld => exact fun pid hpid => Nat.lt_succ_of_lt (h.exitedOld pid hpid)
  case living =>
      intro q hq
      change _ ∉ l.exits.map Prod.fst
      have := h.living q
      grind
  case zombie =>
      intro q hq
      change _ ∈ l.exits ∧ _ ∉ l.reaps.map Reap.pid
      have := h.zombie q
      grind
  case reapedOnce => exact h.reapedOnce
  case reapedExit => exact h.reapedExit
  case reapedBy => exact h.reapedBy
  case counted =>
      rw [zombies_congr (l := l) (by grind)]
      exact h.counted

theorem Inv.copied (h : Inv n l) (halive : (l.table.entry p).stage = .alive)
    (hidle : l.phase p = .idle) (hnp : np < n)
    (hunused : (l.table.entry np).stage = .unused) : Inv n (l.copied p np) := by
  have hclear := h.cleared np hunused
  have hpos : 0 < l.table.nextpid := by have := h.numbered p; grind
  have hchild : ∀ q, (l.phase q).child ≠ some np := by
    intro q hq
    have := h.forker q np hq
    grind
  constructor
  case bounded => have := h.bounded; grind
  case cleared => have := h.cleared; grind
  case numbered => have := h.numbered; grind
  case distinct => have := h.distinct; have := h.numbered; have := h.cleared; grind
  case init => have := h.init; grind
  case forker => have := h.forker; grind [Phase.child]
  case unadopted => have := h.unadopted; grind
  case adopted => have := h.adopted; have := h.forker; grind [Phase.child]
  case creating =>
      intro q hq
      have := h.creating q
      by_cases hqn : q = np
      · exact ⟨p, by grind [Phase.child]⟩
      · obtain ⟨r, hr⟩ := this (by grind)
        exact ⟨r, by grind [Phase.child]⟩
  case exclusive => have := h.exclusive; grind [Phase.child]
  case parents => have := h.parents; grind
  case raised => have := h.raised; grind
  case created =>
      intro q c hq
      have := h.created q c
      have := h.parents q c
      change l.creator _ = _ ∨ _
      grind
  case exitedOnce => exact h.exitedOnce
  case exitedOld => exact fun pid hpid => Nat.lt_succ_of_lt (h.exitedOld pid hpid)
  case living =>
      intro q hq
      change _ ∉ l.exits.map Prod.fst
      have := h.living q
      have := h.exitedOld l.table.nextpid
      grind
  case zombie =>
      intro q hq
      change _ ∈ l.exits ∧ _ ∉ l.reaps.map Reap.pid
      have := h.zombie q
      grind
  case reapedOnce => exact h.reapedOnce
  case reapedExit => exact h.reapedExit
  case reapedBy => exact h.reapedBy
  case counted =>
      rw [zombies_congr (l := l) (by grind)]
      exact h.counted

theorem Inv.adopted_step (h : Inv n l) (hphase : l.phase p = .copied np) :
    Inv n (l.adopted p np) := by
  have hchild : (l.phase p).child = some np := by rw [hphase]; rfl
  obtain ⟨halive, hcreating⟩ := h.forker p np hchild
  have hnone := h.unadopted p np hphase
  constructor
  case bounded => have := h.bounded; grind
  case cleared => have := h.cleared; grind
  case numbered => have := h.numbered; grind
  case distinct => have := h.distinct; grind
  case init => have := h.init; grind
  case forker => have := h.forker; grind [Phase.child]
  case unadopted => have := h.unadopted; have := h.exclusive p; grind [Phase.child]
  case adopted => have := h.adopted; have := h.exclusive p; grind [Phase.child]
  case creating =>
      intro q hq
      obtain ⟨r, hr⟩ := h.creating q (by grind)
      exact ⟨r, by grind [Phase.child]⟩
  case exclusive => have := h.exclusive; grind [Phase.child]
  case parents => have := h.parents; grind
  case raised => have := h.raised; grind
  case created => have := h.created; have := h.distinct; have := h.parents; grind
  case exitedOnce => exact h.exitedOnce
  case exitedOld => exact h.exitedOld
  case living =>
      intro q hq
      change _ ∉ l.exits.map Prod.fst
      have := h.living q
      grind
  case zombie =>
      intro q hq
      change _ ∈ l.exits ∧ _ ∉ l.reaps.map Reap.pid
      have := h.zombie q
      grind
  case reapedOnce => exact h.reapedOnce
  case reapedExit => exact h.reapedExit
  case reapedBy =>
      intro r hr
      have hold : r.pid ≠ (l.table.entry np).pid := by
        intro heq
        apply h.living np (Or.inl hcreating)
        rw [← heq]
        exact List.mem_map.mpr ⟨_, h.reapedExit r hr, rfl⟩
      have := h.reapedBy r hr
      grind
  case counted =>
      rw [zombies_congr (l := l) (by grind)]
      exact h.counted

theorem Inv.started (h : Inv n l) (hphase : l.phase p = .adopted np) :
    Inv n (l.started p np) := by
  have hchild : (l.phase p).child = some np := by rw [hphase]; rfl
  obtain ⟨halive, hcreating⟩ := h.forker p np hchild
  have hparent := h.adopted p np hphase
  constructor
  case bounded => have := h.bounded; grind
  case cleared => have := h.cleared; grind
  case numbered => have := h.numbered; grind
  case distinct => have := h.distinct; grind
  case init => have := h.init; grind
  case forker => have := h.forker; have := h.exclusive p; grind [Phase.child]
  case unadopted => have := h.unadopted; grind
  case adopted => have := h.adopted; grind
  case creating =>
      intro q hq
      obtain ⟨r, hr⟩ := h.creating q (by grind)
      exact ⟨r, by grind [Phase.child]⟩
  case exclusive => have := h.exclusive; grind [Phase.child]
  case parents => have := h.parents; grind
  case raised => have := h.raised; grind
  case created =>
      intro q c hq
      have := h.created q c
      change l.creator _ = _ ∨ _
      grind
  case exitedOnce => exact h.exitedOnce
  case exitedOld => exact h.exitedOld
  case living =>
      intro q hq
      change _ ∉ l.exits.map Prod.fst
      have := h.living q
      grind
  case zombie =>
      intro q hq
      change _ ∈ l.exits ∧ _ ∉ l.reaps.map Reap.pid
      have := h.zombie q
      grind
  case reapedOnce => exact h.reapedOnce
  case reapedExit => exact h.reapedExit
  case reapedBy => exact h.reapedBy
  case counted =>
      rw [zombies_congr (l := l) (by grind)]
      exact h.counted

theorem Inv.killed (h : Inv n l) : Inv n (l.killed c) := by
  constructor
  case bounded => have := h.bounded; grind
  case cleared => have := h.cleared; grind
  case numbered => have := h.numbered; grind
  case distinct => have := h.distinct; grind
  case init => have := h.init; grind
  case forker => exact fun q np hq => by have := h.forker q np hq; grind
  case unadopted => exact fun q np hq => by have := h.unadopted q np hq; grind
  case adopted => exact fun q np hq => by have := h.adopted q np hq; grind
  case creating => exact fun q hq => h.creating q (by grind)
  case exclusive => exact h.exclusive
  case parents => have := h.parents; grind
  case raised => have := h.raised; grind
  case created =>
      intro q np hq
      have := h.created q np
      change l.creator _ = _ ∨ _
      grind
  case exitedOnce => exact h.exitedOnce
  case exitedOld => exact h.exitedOld
  case living =>
      intro q hq
      change _ ∉ l.exits.map Prod.fst
      have := h.living q
      grind
  case zombie =>
      intro q hq
      change _ ∈ l.exits ∧ _ ∉ l.reaps.map Reap.pid
      have := h.zombie q
      grind
  case reapedOnce => exact h.reapedOnce
  case reapedExit => exact h.reapedExit
  case reapedBy => exact h.reapedBy
  case counted =>
      rw [zombies_congr (l := l) (by grind)]
      exact h.counted

theorem zombies_succ : l.zombies (n + 1) =
    l.zombies n + if (l.table.entry n).stage = .zombie then 1 else 0 := by
  simp [Life.zombies, List.range_succ, List.countP_append, List.countP_cons]

theorem zombies_change {l' : Life} (hp : p < n)
    (hother : ∀ q, q ≠ p → (l'.table.entry q).stage = (l.table.entry q).stage)
    (hbefore : (l.table.entry p).stage ≠ .zombie)
    (hafter : (l'.table.entry p).stage = .zombie) : l'.zombies n = l.zombies n + 1 := by
  induction n with
  | zero => exact absurd hp (Nat.not_lt_zero p)
  | succ n ih =>
      rw [zombies_succ, zombies_succ]
      by_cases hn : p = n
      · have hrest : l'.zombies n = l.zombies n := by
          apply zombies_congr
          intro q hq
          rw [hother q (by omega)]
        rw [hrest, ← hn, if_pos hafter, if_neg hbefore]
      · rw [ih (by omega), hother n (Ne.symm hn)]
        omega

theorem Inv.exited (h : Inv n l) (halive : (l.table.entry p).stage = .alive)
    (hidle : l.phase p = .idle) (hinit : l.table.init ≠ some p) :
    Inv n (l.exited n p status) := by
  obtain ⟨i, hi, hialive⟩ := h.init
  have hip : i ≠ p := by grind
  constructor
  case bounded => have := h.bounded; grind
  case cleared => have := h.cleared; grind
  case numbered => have := h.numbered; grind
  case distinct => have := h.distinct; grind
  case init => exact ⟨i, hi, by grind⟩
  case forker =>
      intro q np hq
      have := h.forker q np hq
      grind [Life.exited, Phase.child]
  case unadopted =>
      intro q np hq
      have := h.unadopted q np hq
      grind
  case adopted =>
      intro q np hq
      have := h.adopted q np hq
      have hqp : q ≠ p := by grind [Life.exited]
      grind
  case creating => exact fun q hq => h.creating q (by grind)
  case exclusive => exact h.exclusive
  case parents =>
      intro q c hq
      have := h.parents q c
      have := h.bounded q
      have := h.cleared q
      grind
  case raised => have := h.raised; grind
  case created =>
      intro q c hq
      have := h.created q c
      have := h.bounded q
      have := h.cleared q
      change l.creator _ = _ ∨ _
      grind
  case exitedOnce =>
      change ((l.exits ++ [_]).map Prod.fst).Nodup
      have hnew := h.living p (Or.inr halive)
      rw [List.map_append]
      exact h.exitedOnce.append (List.nodup_singleton _) (by simpa using hnew)
  case exitedOld =>
      have := h.exitedOld
      have := h.numbered p
      grind
  case living =>
      intro q hq
      change _ ∉ (l.exits ++ [_]).map Prod.fst
      have := h.living q
      have := h.distinct p q
      grind
  case zombie =>
      intro q hq
      change _ ∈ l.exits ++ [_] ∧ _ ∉ l.reaps.map Reap.pid
      have := h.zombie q
      have hnew := h.living p (Or.inr halive)
      have hfresh : (l.table.entry p).pid ∉ l.reaps.map Reap.pid := by
        intro hmem
        obtain ⟨r, hr, hpid⟩ := List.mem_map.mp hmem
        exact hnew (List.mem_map.mpr ⟨_, h.reapedExit r hr, hpid⟩)
      grind
  case reapedOnce => exact h.reapedOnce
  case reapedExit => exact fun r hr => List.mem_append_left _ (h.reapedExit r hr)
  case reapedBy => exact h.reapedBy
  case counted =>
      have hcount := h.counted
      rw [zombies_change (p := p) (l := l) (h.bounded p (by grind)) (by grind) (by grind)
        (by grind)]
      change _ + l.reaps.length = (l.exits ++ [_]).length
      simp
      omega

theorem Inv.reaped (h : Inv n l) (hzombie : (l.table.entry c).stage = .zombie)
    (hparent : (l.table.entry c).parent = some p) : Inv n (l.reaped p c) := by
  obtain ⟨hexit, hunreaped⟩ := h.zombie c hzombie
  have hcreated := h.created c p hparent
  constructor
  case bounded => have := h.bounded; grind
  case cleared => have := h.cleared; grind
  case numbered => have := h.numbered; grind
  case distinct => have := h.distinct; have := h.numbered; grind
  case init => have := h.init; grind
  case forker => exact fun q np hq => by have := h.forker q np hq; grind
  case unadopted => exact fun q np hq => by have := h.unadopted q np hq; grind
  case adopted =>
      intro q np hq
      have hchild : (l.phase q).child = some np := by
        have hphase : l.phase q = .adopted np := hq
        rw [hphase]
        rfl
      have := h.adopted q np hq
      have := h.forker q np hchild
      grind
  case creating => exact fun q hq => h.creating q (by grind)
  case exclusive => exact h.exclusive
  case parents => have := h.parents; grind
  case raised => have := h.raised; grind
  case created =>
      intro q np hq
      have := h.created q np
      have := h.parents q np
      change l.creator _ = _ ∨ _
      grind
  case exitedOnce => exact h.exitedOnce
  case exitedOld => exact h.exitedOld
  case living =>
      intro q hq
      change _ ∉ l.exits.map Prod.fst
      have := h.living q
      grind
  case zombie =>
      intro q hq
      change _ ∈ l.exits ∧ _
      have := h.zombie q
      have := h.distinct q c
      grind
  case reapedOnce =>
      rw [reaped_reaps, List.map_append]
      exact h.reapedOnce.append (List.nodup_singleton _) (by simpa using hunreaped)
  case reapedExit =>
      change ∀ r ∈ (l.reaped p c).reaps, _ ∈ l.exits
      have := h.reapedExit
      grind
  case reapedBy =>
      change ∀ r ∈ (l.reaped p c).reaps, l.creator _ = _ ∨ l.table.init = _
      have := h.reapedBy
      grind
  case counted =>
      have hcount := h.counted
      have hmore : l.zombies n = (l.reaped p c).zombies n + 1 := by
        apply zombies_change (h.bounded c (by grind))
        · grind
        · grind
        · exact hzombie
      rw [reaped_reaps]
      change _ = l.exits.length
      simp
      omega

def Unmarked (l : Life) : Prop :=
  ∀ p, (l.table.entry p).stage = .unused → (l.table.entry p).killed = false

theorem Unmarked.step {l' : Life} (h : Unmarked l) (hstep : Step n true l l') :
    Unmarked l' := by
  intro q hq
  have hold := h q
  cases hstep with
  | stay => exact hold hq
  | allocFailed np hnp hunused => grind
  | copied p np halive hidle hnp hunused => grind
  | adopted p np hphase => grind
  | started p np hphase => grind
  | exited p status halive hidle hinit => grind
  | reaped p c hzombie hparent => grind
  | killed c hlive => grind

theorem Inv.step {tame : Bool} {l' : Life} (h : Inv n l) (hstep : Step n tame l l') :
    Inv n l' := by
  cases hstep with
  | stay => exact h
  | allocFailed np hnp hunused => exact h.allocFailed hunused
  | copied p np halive hidle hnp hunused => exact h.copied halive hidle hnp hunused
  | adopted p np hphase => exact h.adopted_step hphase
  | started p np hphase => exact h.started hphase
  | exited p status halive hidle hinit => exact h.exited halive hidle hinit
  | reaped p c hzombie hparent => exact h.reaped hzombie hparent
  | killed c hlive => exact h.killed

end

end SyscallSched.Xv6.Family
