import SyscallSched.Xv6.Smp.Step

/-!
# What a thread knows of shared memory, and of the sleepers

`Mon` is what a thread knows of the locations that are its own or that it holds the lock
of, and of the processes that sleep on a channel whose lock it holds.  The condition
that a sleeper waits for is false while the lock of its channel is free: this is
`MonInv.monitor`, and it says that no wakeup is lost.
-/

namespace SyscallSched.Xv6.Smp

/-- The spinlock under which processes go to sleep on a channel. -/
def Chan.lock : Chan → Lock
  | .ticks => .tick
  | .proc _ => .wait
  | .sleep k => .sleep k

/-- The spinlock that guards a location. The others belong to a thread. -/
def Loc.lock : Loc → Option Lock
  | .chan p => some (.proc p)
  | .killed p => some (.proc p)
  | .xstate p => some (.proc p)
  | .parent _ => some .wait
  | .sleepLocked k => some (.sleep k)
  | .ticks => some .tick
  | .nextpid => some .pid
  | .pid _ => none
  | .sleepPid _ => none
  | .data _ => none
  | .ticks0 _ => none
  | .tickN _ => none

structure Mon where
  mem : ∀ x : Loc, Option x.Val
  /-- not a zombie that is a child of this process, under `wait_lock` -/
  seen : Nat → Bool
  /-- not a child of this process, under `wait_lock` -/
  spared : Nat → Bool
  /-- may be asleep on the channel, under its lock -/
  maybe : Chan → Nat → Bool
  /-- the condition of the channel may have become true, under its lock -/
  stale : Chan → Bool
  /-- about to sleep -/
  going : Chan → Bool
  /-- the sleep-locks that are held -/
  sleeps : Nat → Bool

structure Local where
  core : Core
  mon : Mon

def Mon.fresh : Mon where
  mem := fun _ => none
  seen := fun _ => false
  spared := fun _ => false
  maybe := fun _ _ => true
  stale := fun _ => false
  going := fun _ => false
  sleeps := fun _ => false

namespace Local

/-- The locations whose values a thread can count on. -/
def Owns (u : Local) : Loc → Prop
  | .chan p => u.core.grip (.proc p) ≠ .free
  | .killed p => u.core.grip (.proc p) ≠ .free
  | .xstate p => u.core.grip (.proc p) ≠ .free
  | .parent p => u.core.me = .proc p ∧ u.core.grip .wait ≠ .free
  | .sleepLocked k => u.core.grip (.sleep k) ≠ .free
  | .ticks => u.core.grip .tick ≠ .free
  | .nextpid => u.core.grip .pid ≠ .free
  | .pid p => u.core.me = .proc p
  | .ticks0 p => u.core.me = .proc p
  | .tickN p => u.core.me = .proc p
  | .sleepPid k => u.mon.sleeps k = true
  | .data k => u.mon.sleeps k = true

instance (u : Local) : (x : Loc) → Decidable (u.Owns x)
  | .chan p => inferInstanceAs (Decidable (u.core.grip (.proc p) ≠ .free))
  | .killed p => inferInstanceAs (Decidable (u.core.grip (.proc p) ≠ .free))
  | .xstate p => inferInstanceAs (Decidable (u.core.grip (.proc p) ≠ .free))
  | .parent p =>
      inferInstanceAs (Decidable (u.core.me = .proc p ∧ u.core.grip .wait ≠ .free))
  | .sleepLocked k => inferInstanceAs (Decidable (u.core.grip (.sleep k) ≠ .free))
  | .ticks => inferInstanceAs (Decidable (u.core.grip .tick ≠ .free))
  | .nextpid => inferInstanceAs (Decidable (u.core.grip .pid ≠ .free))
  | .pid p => inferInstanceAs (Decidable (u.core.me = .proc p))
  | .ticks0 p => inferInstanceAs (Decidable (u.core.me = .proc p))
  | .tickN p => inferInstanceAs (Decidable (u.core.me = .proc p))
  | .sleepPid k => inferInstanceAs (Decidable (u.mon.sleeps k = true))
  | .data k => inferInstanceAs (Decidable (u.mon.sleeps k = true))

def Reads (u : Local) : Loc → Prop
  | .parent _ => u.core.grip .wait ≠ .free
  | .pid p => u.core.me = .proc p ∨ u.core.grip (.proc p) ≠ .free
  | .sleepPid k => u.core.grip (.sleep k) ≠ .free
  | x => u.Owns x

def Vacant (u : Local) (p : Nat) : Prop :=
  u.core.me ≠ .proc p ∧ u.core.grip (.proc p) = .held ∧
    ∃ st, u.core.state p = some st ∧ (st = .unused ∨ st = .used ∨ st = .zombie)

/-- The first process adopts a process, or a thread the slot that it fills. -/
def Adopts (u : Local) (p : Nat) (v : Option Nat) : Prop :=
  ∀ q, v = some q → q = initproc ∧ p ≠ initproc ∧ p < NPROC ∨
    u.core.me = .proc q ∧ u.core.grip (.proc q) = .free ∧ ∃ b, u.core.child = some (p, b)

/-- What may be written. -/
def Writes (u : Local) : (x : Loc) → x.Val → Prop
  | .chan p, _ => u.core.grip (.proc p) ≠ .free ∧
      ∃ st, u.core.state p = some st ∧ st ≠ .sleeping
  | .parent p, v => u.core.grip .wait ≠ .free ∧ u.Adopts p v ∨ v = none ∧ u.Vacant p
  | .pid p, _ => u.Vacant p
  | .sleepLocked k, v => u.core.grip (.sleep k) ≠ .free ∧
      (if v then u.mon.mem (.sleepLocked k) = some false else u.mon.sleeps k = true)
  | .sleepPid k, _ => u.core.grip (.sleep k) ≠ .free ∧ u.mon.sleeps k = true
  | .ticks0 p, _ => u.core.me = .proc p ∧ u.core.grip (.proc p) = .free
  | .tickN p, _ => u.core.me = .proc p ∧ u.core.grip (.proc p) = .free
  | x, _ => u.Owns x

def blocked (u : Local) (p : Nat) : Chan → Bool
  | .ticks =>
      match u.mon.mem .ticks, u.mon.mem (.ticks0 p), u.mon.mem (.tickN p) with
      | some ticks, some ticks0, some n => decide ((ticks - ticks0).toNat < n)
      | _, _, _ => false
  | .proc q => decide (q = p ∧ ∀ pp < NPROC, u.mon.seen pp = true)
  | .sleep k => decide (u.mon.mem (.sleepLocked k) = some true)

def awake (u : Local) (q : Nat) (ch : Chan) : Bool :=
  decide (∃ st, u.core.state q = some st ∧ st ≠ .sleeping) ||
    decide (∃ v, u.mon.mem (.chan q) = some v ∧ v ≠ some ch)

def Pre (u : Local) : Op → Prop
  | .unlock k => ∀ ch, ch.lock = k → u.mon.stale ch = true →
      ∀ q < NPROC, u.core.me ≠ .proc q → u.mon.maybe ch q = false
  | .setState p st => u.core.me = .proc p →
      (st = .sleeping → ∃ ch, u.mon.mem (.chan p) = some (some ch) ∧ u.mon.going ch = true) ∧
      (st = .zombie → u.core.grip .wait ≠ .free ∧ (u.mon.mem (.parent p)).isSome ∧
        p ≠ initproc ∧ ∀ q < NPROC, u.mon.spared q = true)
  | .swtchBack => ∀ p, u.core.state p = some .zombie → ∀ k, u.mon.sleeps k = false
  | .load x => u.Reads x
  | .store x v => u.Writes x v
  | _ => True

def Gives (u : Local) : (o : Op) → o.Res → Prop
  | .load (.sleepLocked k), r => (∀ v, u.mon.mem (.sleepLocked k) = some v → r = v) ∧
      (u.mon.sleeps k = true → u.mon.mem (.sleepLocked k) = none → r = true)
  | .load (.parent p), r => (∀ v, u.mon.mem (.parent p) = some v → r = v) ∧
      (p = initproc → r = none)
  | .load x, r => ∀ v, u.mon.mem x = some v → r = v
  | _, _ => True

/-- The sleep-lock `j` is given up with its spinlock `k`. -/
def Leaves (u : Local) (k : Lock) (j : Nat) : Prop :=
  k = .sleep j ∧ u.mon.mem (.sleepLocked j) = some false

instance (u : Local) (k : Lock) (j : Nat) : Decidable (u.Leaves k j) :=
  inferInstanceAs (Decidable (_ ∧ _))

/-- What is known of the memory after a lock was given up. -/
def forget (u : Local) (k : Lock) : ∀ x : Loc, Option x.Val
  | .sleepPid j => if u.Leaves k j then none else u.mon.mem (.sleepPid j)
  | .data j => if u.Leaves k j then none else u.mon.mem (.data j)
  | x => if x.lock = some k then none else u.mon.mem x

def unlockMon (u : Local) (k : Lock) : Mon where
  mem := u.forget k
  seen pp :=
    if k = .wait then false
    else u.mon.seen pp || decide (k = .proc pp ∧ u.core.grip .wait ≠ .free ∧
      ∃ st, u.core.state pp = some st ∧ st ≠ .zombie)
  spared pp := if k = .wait then false else u.mon.spared pp
  maybe ch q :=
    if ch.lock = k then true
    else u.mon.maybe ch q && !(decide (k = .proc q ∧ u.core.grip ch.lock ≠ .free) && u.awake q ch)
  stale ch := if ch.lock = k then false else u.mon.stale ch
  going ch :=
    match u.core.me with
    | .cpu _ => false
    | .proc p =>
        if k = .proc p then false
        else u.mon.going ch || (decide (ch.lock = k ∧ u.core.grip (.proc p) ≠ .free ∧
          u.core.state p = some .running) && u.blocked p ch)
  sleeps j := u.mon.sleeps j && !decide (u.Leaves k j)

def loadMon (u : Local) : (x : Loc) → x.Val → Mon
  | .parent pp, v =>
      { u.mon with
        mem := if u.Owns (.parent pp) then
            Function.update u.mon.mem (.parent pp) (some v)
          else u.mon.mem
        seen :=
          match u.core.me with
          | .cpu _ => u.mon.seen
          | .proc p => if v = some p then u.mon.seen else Function.update u.mon.seen pp true
        spared :=
          match u.core.me with
          | .cpu _ => u.mon.spared
          | .proc p =>
              if v = some p then u.mon.spared else Function.update u.mon.spared pp true }
  | x, v =>
      { u.mon with
        mem := if u.Owns x then Function.update u.mon.mem x (some v) else u.mon.mem }

def storeMon (u : Local) : (x : Loc) → x.Val → Mon
  | .parent pp, v =>
      { u.mon with
        mem := if u.Owns (.parent pp) then
            Function.update u.mon.mem (.parent pp) (some v)
          else u.mon.mem
        seen := Function.update u.mon.seen pp false
        spared :=
          match u.core.me with
          | .cpu _ => u.mon.spared
          | .proc p =>
              if u.core.grip .wait = .free then u.mon.spared
              else Function.update u.mon.spared pp (decide (v ≠ some p))
        stale :=
          match v with
          | some q =>
              if u.core.me = .proc q then u.mon.stale
              else Function.update u.mon.stale (.proc q) true
          | none => u.mon.stale }
  | .sleepLocked k, v =>
      { u.mon with
        mem := Function.update u.mon.mem (.sleepLocked k) (some v)
        stale := if v then u.mon.stale else Function.update u.mon.stale (.sleep k) true
        sleeps := Function.update u.mon.sleeps k true }
  | .ticks, v =>
      { u.mon with
        mem := Function.update u.mon.mem .ticks (some v)
        stale := Function.update u.mon.stale .ticks true }
  | x, v =>
      { u.mon with
        mem := if u.Owns x then Function.update u.mon.mem x (some v) else u.mon.mem }

def dieMon (u : Local) (p : Nat) : Mon :=
  { u.mon with
    seen := Function.update u.mon.seen p false
    stale :=
      match u.mon.mem (.parent p) with
      | some (some q) => Function.update u.mon.stale (.proc q) true
      | _ => u.mon.stale }

def nextMon (u : Local) : (o : Op) → o.Res → Mon
  | .unlock k, _ => u.unlockMon k
  | .setState p .zombie, _ => if u.core.me = .proc p then u.dieMon p else u.mon
  | .load x, r => u.loadMon x r
  | .store x v, _ => u.storeMon x v
  | .swtchTo p, _ => { u.mon with mem := u.forget (.proc p) }
  | .swtchBack, _ =>
      match u.core.me with
      | .cpu _ => u.mon
      | .proc p => { u.mon with mem := u.forget (.proc p), going := fun _ => false }
  | _, _ => u.mon

def next (u : Local) (o : Op) (r : o.Res) : Local :=
  ⟨u.core.next o r, u.nextMon o r⟩

def other (o : Op) (j : Thread) (u : Local) : Local :=
  ⟨Core.other o j u.core,
    match o with
    | .setContext p => if j = .proc p then Mon.fresh else u.mon
    | _ => u.mon⟩

end Local

def advanceLocal (l : Thread → Local) (t : Thread) (o : Op) (r : o.Res) : Thread → Local :=
  Function.update (fun j => Local.other o j (l j)) t ((l t).next o r)

/-! ## The invariant -/

def Blocked (s : State) (q : Nat) : Chan → Prop
  | .ticks => (s.mem .ticks - s.mem (.ticks0 q)).toNat < s.mem (.tickN q)
  | .proc p => q = p ∧ ∀ pp, s.mem (.parent pp) = some p → s.state pp ≠ .zombie
  | .sleep k => s.mem (.sleepLocked k) = true

def Asleep (s : State) (q : Nat) (ch : Chan) : Prop :=
  s.state q = .sleeping ∧ s.mem (.chan q) = some ch

def Pending (s : State) (l : Thread → Local) (q : Nat) (ch : Chan) : Prop :=
  Asleep s q ch ∨ ((l (.proc q)).core.live = true ∧ (l (.proc q)).mon.going ch = true)

def Unheld (s : State) (l : Thread → Local) (k : Lock) : Prop :=
  ∀ t, s.Running t → (l t).core.grip k = .free

structure MonInv (s : State) (l : Thread → Local) : Prop where
  know : ∀ t x v, (l t).core.live = true → (l t).mon.mem x = some v →
    (l t).Owns x ∧ (x.lock = none ∨ s.Running t) ∧ s.mem x = v
  normal : ∀ t ch, (l t).core.live = true → (l t).core.grip ch.lock = .free →
    (l t).mon.stale ch = false ∧ ∀ q, (l t).mon.maybe ch q = true
  unseen : ∀ t q, (l t).core.live = true → (l t).core.grip .wait = .free →
    (l t).mon.seen q = false
  going : ∀ t ch, (l t).core.live = true → (l t).mon.going ch = true →
    s.Running t ∧ (l t).core.grip ch.lock = .free ∧
      ∃ p, t = .proc p ∧ (l t).core.grip (.proc p) ≠ .free
  dozing : ∀ q, s.Running (.proc q) → s.state q = .sleeping →
    ∃ ch, s.mem (.chan q) = some ch ∧ (l (.proc q)).mon.going ch = true
  owner : ∀ k, s.mem (.sleepLocked k) = true →
    ∃ t, (l t).core.live = true ∧ (l t).mon.sleeps k = true
  owned : ∀ t k, (l t).core.live = true → (l t).mon.sleeps k = true →
    s.mem (.sleepLocked k) = true ∨ s.Running t ∧ (l t).core.grip (.sleep k) ≠ .free ∧
      (l t).mon.mem (.sleepLocked k) = some false
  one : ∀ t t' k, (l t).core.live = true → (l t').core.live = true →
    (l t).mon.sleeps k = true → (l t').mon.sleeps k = true → t = t'
  fresh : ∀ p, s.state p = .used → (l (.proc p)).core.live = true → (l (.proc p)).mon = Mon.fresh
  seen : ∀ p q, s.Running (.proc p) → (l (.proc p)).mon.seen q = true →
    ¬ (s.mem (.parent q) = some p ∧ s.state q = .zombie)
  monitor : ∀ q ch, Pending s l q ch → Unheld s l ch.lock → Blocked s q ch
  watched : ∀ q ch t, Pending s l q ch → s.Running t → (l t).core.grip ch.lock ≠ .free →
    (l t).mon.maybe ch q = true ∧ ((l t).mon.stale ch = false → Blocked s q ch)

end SyscallSched.Xv6.Smp

/-!
## Every operation keeps what is known of memory and of the sleepers
-/

namespace SyscallSched.Xv6.Smp

variable {s s' : State} {l l' : Thread → Local} {c : Nat}

abbrev cores (l : Thread → Local) : Thread → Core := fun t => (l t).core

/-! ## Lemmas on the threads that run -/

section

variable (h : Inv s (cores l))

include h

theorem Inv.same {t t' : Thread} {k : Lock} (hr : s.Running t) (hr' : s.Running t')
    (hg : (l t).core.grip k ≠ .free) (hg' : (l t').core.grip k ≠ .free) : t = t' := by
  obtain ⟨c, rfl⟩ := hr
  obtain ⟨c', rfl⟩ := hr'
  rw [h.holder k c c' hg hg']

theorem Inv.live_of_running {t : Thread} (hr : s.Running t) : (l t).core.live = true := by
  obtain ⟨c, rfl⟩ := hr
  exact h.live c

theorem Inv.bound_of_running {p : Nat} (hr : s.Running (.proc p)) : p < NPROC :=
  h.bound p (h.state_of_running hr).1

theorem Inv.not_running_of_vacant {p : Nat} (hv : (l (s.cur c)).Vacant p) :
    ¬ s.Running (.proc p) ∧ ∃ st, s.state p = st ∧ (st = .unused ∨ st = .used ∨ st = .zombie) := by
  obtain ⟨hme, hheld, st, hst, hst'⟩ := hv
  have hs := h.state c p st hst
  refine ⟨?_, st, hs, hst'⟩
  have hgrip : (cores l (s.cur c)).grip (.proc p) ≠ .free := by simp [cores, hheld]
  apply h.not_running_of_state hgrip
  · intro heq
    exact hme ((h.me _).trans heq)
  · rw [hs]
    obtain rfl | rfl | rfl := hst' <;> simp

end

theorem MonInv.going_cases (hm : MonInv s l) {q : Nat} {ch : Chan} (hp : Pending s l q ch)
    (hr : s.Running (.proc q)) : (l (.proc q)).mon.going ch = true := by
  obtain ⟨hst, hch⟩ | ⟨-, hgoing⟩ := hp
  · obtain ⟨ch', hch', hgoing⟩ := hm.dozing q hr hst
    rw [hch] at hch'
    rwa [Option.some.inj hch']
  · exact hgoing

theorem MonInv.pending_bound (hm : MonInv s l) (h : Inv s (cores l)) {q : Nat} {ch : Chan}
    (hp : Pending s l q ch) : q < NPROC := by
  obtain ⟨hst, -⟩ | ⟨hlive, hgoing⟩ := hp
  · exact h.bound q (by simp [hst])
  · exact h.bound_of_running (hm.going _ ch hlive hgoing).1

theorem MonInv.not_pending (hm : MonInv s l) (h : Inv s (cores l)) {q : Nat} {ch : Chan}
    (hr : s.Running (.proc q)) (hg : (l (.proc q)).core.grip ch.lock ≠ .free) :
    ¬ Pending s l q ch := by
  intro hp
  exact hg (hm.going _ ch (h.live_of_running hr) (hm.going_cases hp hr)).2.1

/-! ## Operations that leave memory and locks alone -/

theorem MonInv.congr (hm : MonInv s l) (hmem : s'.mem = s.mem) (hstate : s'.state = s.state)
    (hrun : ∀ t, s'.Running t ↔ s.Running t) (hmon : ∀ t, (l' t).mon = (l t).mon)
    (hme : ∀ t, (l' t).core.me = (l t).core.me) (hlive : ∀ t, (l' t).core.live = (l t).core.live)
    (hgrip : ∀ t k, (l' t).core.grip k = .free ↔ (l t).core.grip k = .free) : MonInv s' l' := by
  have howns : ∀ t x, (l' t).Owns x ↔ (l t).Owns x := by
    intro t x
    cases x <;> simp [Local.Owns, hgrip, hme, hmon]
  have hpending : ∀ q ch, Pending s' l' q ch ↔ Pending s l q ch := by
    intro q ch
    simp [Pending, Asleep, hmem, hstate, hlive, hmon]
  have hblocked : ∀ q ch, Blocked s' q ch ↔ Blocked s q ch := by
    intro q ch
    cases ch <;> simp [Blocked, hmem, hstate]
  have hunheld : ∀ k, Unheld s' l' k ↔ Unheld s l k := by
    intro k
    simp [Unheld, hrun, hgrip]
  constructor
  case know => simpa only [hlive, hmon, howns, hrun, hmem] using hm.know
  case normal => simpa only [hlive, hmon, hgrip] using hm.normal
  case unseen => simpa only [hlive, hmon, hgrip] using hm.unseen
  case going => simpa only [hlive, hmon, hgrip, hrun, ne_eq] using hm.going
  case dozing => simpa only [hstate, hmem, hmon, hrun] using hm.dozing
  case owner => simpa only [hmem, hlive, hmon] using hm.owner
  case owned => simpa only [hmem, hlive, hmon, hrun, hgrip, ne_eq] using hm.owned
  case one => simpa only [hlive, hmon] using hm.one
  case fresh => simpa only [hstate, hlive, hmon] using hm.fresh
  case seen => simpa only [hmem, hstate, hmon, hrun] using hm.seen
  case monitor => simpa only [hpending, hunheld, hblocked] using hm.monitor
  case watched =>
      simpa only [hpending, hblocked, hmon, hrun, hgrip, ne_eq] using hm.watched

/-! ## Spinlocks -/

theorem MonInv.take (hm : MonInv s l) (h : Inv s (cores l)) {k : Lock} {v : Spinlock} {u : Core}
    (hfree : ∀ c', (l (s.cur c')).core.grip k = .free)
    (hrank : ∀ k', (l (s.cur c)).core.grip k' ≠ .free → k'.rank < k.rank)
    (hme : u.me = (l (s.cur c)).core.me) (hlive : u.live = (l (s.cur c)).core.live)
    (hgrip : u.grip = Function.update (l (s.cur c)).core.grip k .marked) :
    MonInv (s.setLock k v) (Function.update l (s.cur c) ⟨u, (l (s.cur c)).mon⟩) := by
  have hunheld : Unheld s l k := by
    rintro t ⟨c', rfl⟩
    exact hfree c'
  have hrun : s.Running (s.cur c) := ⟨c, rfl⟩
  generalize hl' : Function.update l (s.cur c) ⟨u, (l (s.cur c)).mon⟩ = l'
  have hself : l' (s.cur c) = ⟨u, (l (s.cur c)).mon⟩ := by rw [← hl', Function.update_self]
  have hother : ∀ t, t ≠ s.cur c → l' t = l t := by
    intro t ht
    rw [← hl', Function.update_of_ne ht]
  have hmon : ∀ t, (l' t).mon = (l t).mon := by
    intro t
    by_cases ht : t = s.cur c
    · rw [ht, hself]
    · rw [hother t ht]
  have hlive' : ∀ t, (l' t).core.live = (l t).core.live := by
    intro t
    by_cases ht : t = s.cur c
    · rw [ht, hself, hlive]
    · rw [hother t ht]
  have hgrip' : ∀ t k', (l' t).core.grip k' =
      if t = s.cur c ∧ k' = k then .marked else (l t).core.grip k' := by
    intro t k'
    by_cases ht : t = s.cur c
    · rw [ht, hself]
      by_cases hk : k' = k
      · simp [hgrip, hk]
      · simp [hgrip, hk]
    · simp [hother t ht, ht]
  have hkeep : ∀ t k', (l t).core.grip k' ≠ .free → (l' t).core.grip k' ≠ .free := by
    intro t k' hg
    rw [hgrip']
    split
    · simp
    · exact hg
  have hback : ∀ t k', (l' t).core.grip k' = .free → (l t).core.grip k' = .free := by
    intro t k' hg
    by_contra hg'
    exact hkeep t k' hg' hg
  have howns : ∀ t x, (l t).Owns x → (l' t).Owns x := by
    intro t x hx
    have hme' : (l' t).core.me = (l t).core.me := by
      by_cases ht : t = s.cur c
      · rw [ht, hself, hme]
      · rw [hother t ht]
    cases x
    case parent p => exact ⟨hme'.trans hx.1, hkeep t _ hx.2⟩
    case pid p => exact hme'.trans hx
    case ticks0 p => exact hme'.trans hx
    case tickN p => exact hme'.trans hx
    case sleepPid j => exact (congrFun (congrArg Mon.sleeps (hmon t)) j).trans hx
    case data j => exact (congrFun (congrArg Mon.sleeps (hmon t)) j).trans hx
    all_goals exact hkeep t _ hx
  have hpending : ∀ q ch, Pending (s.setLock k v) l' q ch ↔ Pending s l q ch := by
    intro q ch
    simp [Pending, Asleep, hlive', hmon]
  constructor
  case know =>
      intro t x v' hlt hv
      rw [hlive'] at hlt
      rw [hmon] at hv
      have hold := hm.know t x v' hlt hv
      exact ⟨howns t x hold.1, hold.2⟩
  case normal =>
      intro t ch hlt hg
      rw [hlive'] at hlt
      rw [hmon]
      exact hm.normal t ch hlt (hback t _ hg)
  case unseen =>
      intro t q hlt hg
      rw [hlive'] at hlt
      rw [hmon]
      exact hm.unseen t q hlt (hback t _ hg)
  case going =>
      intro t ch hlt hg
      rw [hlive'] at hlt
      rw [hmon] at hg
      obtain ⟨hrt, hfree', p, hp, hpg⟩ := hm.going t ch hlt hg
      refine ⟨hrt, ?_, p, hp, hkeep t _ hpg⟩
      rw [hgrip']
      split
      · -- a process on its way to sleep takes no lock of a channel
        rename_i hand
        have hlt' := hrank (.proc p) (hand.1 ▸ hpg)
        rw [← hand.2] at hlt'
        cases ch <;> simp [Chan.lock, Lock.rank] at hlt'
      · exact hfree'
  case dozing => simpa only [hmon, setLock_running, setLock_state, setLock_mem] using hm.dozing
  case owner => simpa only [hlive', hmon, setLock_mem] using hm.owner
  case owned =>
      intro t j hlt hj
      rw [hlive'] at hlt
      rw [hmon] at hj ⊢
      obtain hon | ⟨hrt, hg, hv⟩ := hm.owned t j hlt hj
      · exact .inl hon
      · exact .inr ⟨hrt, hkeep t _ hg, hv⟩
  case one => simpa only [hlive', hmon] using hm.one
  case fresh => simpa only [hlive', hmon, setLock_state] using hm.fresh
  case seen =>
      simpa only [hmon, setLock_running, setLock_state, setLock_mem] using hm.seen
  case monitor =>
      intro q ch hp hu
      rw [hpending] at hp
      have hb : Blocked s q ch := by
        apply hm.monitor q ch hp
        intro t ht
        exact hback t _ (hu t ht)
      exact hb
  case watched =>
      intro q ch t hp ht hg
      rw [hpending] at hp
      rw [hmon]
      rw [hgrip'] at hg
      by_cases hand : t = s.cur c ∧ ch.lock = k
      · have hb := hm.monitor q ch hp (hand.2 ▸ hunheld)
        have hn := hm.normal t ch (h.live_of_running ht) (hand.2 ▸ hunheld t ht)
        exact ⟨hn.2 q, fun _ => hb⟩
      · rw [if_neg hand] at hg
        exact hm.watched q ch t hp ht hg

theorem Local.forget_some {u : Local} {k : Lock} {x : Loc} {w : x.Val}
    (hw : u.forget k x = some w) :
    u.mon.mem x = some w ∧ x.lock ≠ some k ∧
      ∀ m, x = .sleepPid m ∨ x = .data m → ¬ u.Leaves k m := by
  cases x
  case sleepPid j =>
      simp only [Local.forget] at hw
      split at hw
      · cases hw
      · rename_i hstay
        refine ⟨hw, by simp [Loc.lock], ?_⟩
        intro m hm
        simp only [Loc.sleepPid.injEq, reduceCtorEq, or_false] at hm
        rwa [← hm]
  case data j =>
      simp only [Local.forget] at hw
      split at hw
      · cases hw
      · rename_i hstay
        refine ⟨hw, by simp [Loc.lock], ?_⟩
        intro m hm
        simp only [Loc.data.injEq, reduceCtorEq, false_or] at hm
        rwa [← hm]
  all_goals
    simp only [Local.forget] at hw
    split at hw
    · cases hw
    · exact ⟨hw, ‹_›, by simp⟩

theorem Local.blocked_sound (hm : MonInv s l) (h : Inv s (cores l)) {p : Nat} {ch : Chan}
    (hr : s.Running (.proc p)) (hb : (l (.proc p)).blocked p ch = true) : Blocked s p ch := by
  have hlive := h.live_of_running hr
  have hknow : ∀ x v, (l (.proc p)).mon.mem x = some v → s.mem x = v :=
    fun x v hv => (hm.know _ x v hlive hv).2.2
  cases ch with
  | ticks =>
      simp only [Local.blocked] at hb
      split at hb
      · rename_i hticks hticks0 htickN
        change (s.mem .ticks - s.mem (.ticks0 p)).toNat < s.mem (.tickN p)
        rw [hknow _ _ hticks, hknow _ _ hticks0, hknow _ _ htickN]
        simpa using hb
      · cases hb
  | proc q =>
      simp only [Local.blocked, decide_eq_true_eq] at hb
      refine ⟨hb.1.symm, ?_⟩
      intro pp hparent hz
      have hbound := h.bound pp (by simp [hz])
      exact hm.seen p pp hr (hb.2 pp hbound) ⟨hb.1 ▸ hparent, hz⟩
  | sleep k =>
      simp only [Local.blocked, decide_eq_true_eq] at hb
      exact hknow _ _ hb

theorem Local.awake_sound (hm : MonInv s l) (h : Inv s (cores l)) {q : Nat} {ch : Chan}
    (hk : (l (s.cur c)).core.grip (.proc q) ≠ .free)
    (hg : (l (s.cur c)).core.grip ch.lock ≠ .free)
    (ha : (l (s.cur c)).awake q ch = true) : ¬ Pending s l q ch := by
  simp only [Local.awake, Bool.or_eq_true, decide_eq_true_eq] at ha
  rintro (⟨hst, hch⟩ | ⟨hlive, hgoing⟩)
  · obtain ⟨st, hst', hne⟩ | ⟨v, hv, hne⟩ := ha
    · exact hne ((h.state c q st hst').symm.trans hst)
    · have hv' := (hm.know _ _ v (h.live c) hv).2.2
      rw [hch] at hv'
      exact hne hv'.symm
  · obtain ⟨hr, hfree, p, hp, hpg⟩ := hm.going _ ch hlive hgoing
    rw [← Thread.proc.inj hp] at hpg
    have hme := h.same hr ⟨c, rfl⟩ hpg hk
    rw [hme] at hfree
    exact hg hfree

end SyscallSched.Xv6.Smp
