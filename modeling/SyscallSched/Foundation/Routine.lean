import SyscallSched.Foundation.Program

/-!
# Programs with loops, and threads that can be interrupted

A routine is a program that may also loop for ever: `loop body s next` runs `body`
again and again, each time from the state that the last time ended in, and goes on
with `next` when the body says so.

Several threads run routines over one shared state.  A thread does its next
operation, or is interrupted: then it runs another routine first.  An operation may
also give another thread a new routine.  `Discipline.good_of_reachable` is the rule
for such systems, with `wp` the weakest precondition of a routine over a state of its
thread alone.
-/

namespace SyscallSched.Foundation

inductive Routine (Op : Type) (Res : Op → Type) : Type → Type 1 where
  | ret {α : Type} (a : α) : Routine Op Res α
  | act {α : Type} (o : Op) (next : Res o → Routine Op Res α) : Routine Op Res α
  | loop {α S R : Type} (body : S → Routine Op Res (S ⊕ R)) (s : S)
      (next : R → Routine Op Res α) : Routine Op Res α

namespace Routine

variable {Op : Type} {Res : Op → Type} {α β S R ρ : Type}

def bind : Routine Op Res α → (α → Routine Op Res β) → Routine Op Res β
  | ret a, f => f a
  | act o next, f => act o fun r => (next r).bind f
  | loop body s next, f => loop body s fun r => (next r).bind f

instance : Monad (Routine Op Res) where
  pure := ret
  bind := bind

def op (o : Op) : Routine Op Res (Res o) := act o ret

/-- `for(;;) body` with no way out. -/
def forever (body : Routine Op Res Unit) : Routine Op Res α :=
  loop (fun _ : Unit => body.bind fun _ => ret (Sum.inl () : Unit ⊕ Empty)) () Empty.elim

/-- `while(cond) body`. -/
def whileTrue (cond : Routine Op Res Bool) (body : Routine Op Res Unit) : Routine Op Res Unit :=
  loop (fun _ : Unit => cond.bind fun b =>
    if b then body.bind fun _ => ret (Sum.inl ()) else ret (Sum.inr ())) () ret

/-- One turn of a loop, and what comes after it. -/
def turn (body : S → Routine Op Res (S ⊕ R)) (s : S) (next : R → Routine Op Res α) :
    Routine Op Res α :=
  (body s).bind fun x =>
    match x with
    | .inl s' => loop body s' next
    | .inr r => next r

@[simp] theorem pure_eq (a : α) : (pure a : Routine Op Res α) = ret a := rfl

@[simp] theorem bind_eq (p : Routine Op Res α) (f : α → Routine Op Res β) :
    (p >>= f) = p.bind f := rfl

@[simp] theorem ret_bind (a : α) (f : α → Routine Op Res β) : (ret a).bind f = f a := rfl

@[simp] theorem act_bind (o : Op) (next : Res o → Routine Op Res α)
    (f : α → Routine Op Res β) : (act o next).bind f = act o fun r => (next r).bind f := rfl

@[simp] theorem op_bind (o : Op) (f : Res o → Routine Op Res β) :
    (op o).bind f = act o f := rfl

/-! ## Preconditions over the state of a thread -/

def wp (t : Program.Rules ρ Res) : {α : Type} → Routine Op Res α → (α → ρ → Prop) → ρ → Prop
  | _, ret a, Q => Q a
  | _, act o next, Q => t o fun r => (next r).wp t Q
  | _, loop (S := S) body s next, Q => fun l =>
      ∃ inv : S → ρ → Prop, inv s l ∧ ∀ s' l', inv s' l' →
        (body s').wp t (fun x l'' =>
          match x with
          | .inl s'' => inv s'' l''
          | .inr r => (next r).wp t Q l'') l'

variable {t : Program.Rules ρ Res}

@[simp] theorem wp_ret (a : α) (Q : α → ρ → Prop) : wp t (ret a) Q = Q a := rfl

@[simp] theorem wp_act (o : Op) (next : Res o → Routine Op Res α) (Q : α → ρ → Prop) :
    wp t (act o next) Q = t o fun r => wp t (next r) Q := rfl

@[simp] theorem wp_op (o : Op) (Q : Res o → ρ → Prop) : wp t (op o) Q = t o Q := rfl

theorem wp_mono (ht : t.Monotone) {p : Routine Op Res α} {Q Q' : α → ρ → Prop} {l : ρ}
    (h : wp t p Q l) (hQ : ∀ a l', Q a l' → Q' a l') : wp t p Q' l := by
  induction p generalizing l with
  | ret a => exact hQ a l h
  | act o next ih =>
      apply ht o ?_ h
      intro r l' hnext
      exact ih r hnext hQ
  | loop body s next ihbody ihnext =>
      obtain ⟨inv, hstart, hturn⟩ := h
      refine ⟨inv, hstart, ?_⟩
      intro s' l' hinv
      apply ihbody s' (hturn s' l' hinv)
      intro x l'' hx
      cases x with
      | inl s'' => exact hx
      | inr r => exact ihnext r hx hQ

theorem wp_bind (ht : t.Monotone) {p : Routine Op Res α} {f : α → Routine Op Res β}
    {Q : β → ρ → Prop} {l : ρ} (h : wp t p (fun a => wp t (f a) Q) l) :
    wp t (p.bind f) Q l := by
  induction p generalizing l with
  | ret a => exact h
  | act o next ih =>
      rw [act_bind, wp_act]
      apply ht o ?_ h
      intro r l' hnext
      exact ih r hnext
  | loop body s next ihbody ihnext =>
      obtain ⟨inv, hstart, hturn⟩ := h
      refine ⟨inv, hstart, ?_⟩
      intro s' l' hinv
      apply wp_mono ht (hturn s' l' hinv)
      intro x l'' hx
      cases x with
      | inl s'' => exact hx
      | inr r => exact ihnext r hx

/-- The rule for loops, after `inv` was found. -/
theorem wp_loop (inv : S → ρ → Prop) {body : S → Routine Op Res (S ⊕ R)} {s : S}
    {next : R → Routine Op Res α} {Q : α → ρ → Prop} {l : ρ} (hstart : inv s l)
    (hturn : ∀ s' l', inv s' l' → wp t (body s') (fun x l'' =>
      match x with
      | .inl s'' => inv s'' l''
      | .inr r => wp t (next r) Q l'') l') :
    wp t (loop body s next) Q l :=
  ⟨inv, hstart, hturn⟩

theorem wp_forever (ht : t.Monotone) (inv : ρ → Prop) {body : Routine Op Res Unit}
    {Q : α → ρ → Prop} {l : ρ} (hstart : inv l)
    (hturn : ∀ l', inv l' → wp t body (fun _ => inv) l') : wp t (forever body) Q l := by
  apply wp_loop (fun _ => inv) hstart
  intro _ l' hinv
  exact wp_bind ht (hturn l' hinv)

theorem wp_whileTrue (ht : t.Monotone) (inv : ρ → Prop) {cond : Routine Op Res Bool}
    {body : Routine Op Res Unit} {Q : Unit → ρ → Prop} {l : ρ} (hstart : inv l)
    (hturn : ∀ l', inv l' → wp t cond (fun b l'' =>
      if b then wp t body (fun _ => inv) l'' else Q () l'') l') :
    wp t (whileTrue cond body) Q l := by
  apply wp_loop (fun _ => inv) hstart
  intro _ l' hinv
  apply wp_bind ht
  apply wp_mono ht (hturn l' hinv)
  intro b l'' hb
  cases b with
  | true => exact wp_bind ht hb
  | false => exact hb

/-- The rule for a loop over a list: `inv` is about the elements that are left. -/
theorem wp_forM (ht : t.Monotone) (inv : List S → ρ → Prop) {xs : List S}
    {body : S → Routine Op Res Unit} {Q : Unit → ρ → Prop} {l : ρ} (hstart : inv xs l)
    (hturn : ∀ x rest l', inv (x :: rest) l' → wp t (body x) (fun _ => inv rest) l')
    (hend : ∀ l', inv [] l' → Q () l') : wp t (xs.forM body) Q l := by
  induction xs generalizing l with
  | nil => exact hend l hstart
  | cons x rest ih =>
      apply wp_bind ht
      apply wp_mono ht (hturn x rest l hstart)
      intro _ l' hinv
      exact ih hinv

theorem wp_turn (ht : t.Monotone) {body : S → Routine Op Res (S ⊕ R)} {s : S}
    {next : R → Routine Op Res α} {Q : α → ρ → Prop} {l : ρ}
    (h : wp t (loop body s next) Q l) : wp t (turn body s next) Q l := by
  obtain ⟨inv, hstart, hturn⟩ := h
  apply wp_bind ht
  apply wp_mono ht (hturn s l hstart)
  intro x l' hx
  cases x with
  | inl s' => exact ⟨inv, hx, hturn⟩
  | inr r => exact hx

end Routine

/-! ## Threads -/

structure Threads (σ ι Op : Type) (Res : Op → Type) where
  shared : σ
  code : ι → Routine Op Res Unit

namespace Threads

variable {σ ι ρ Op : Type} {Res : Op → Type} [DecidableEq ι]

/-- How operations act on the shared state, which operations give another thread a
new routine, and when a thread can be interrupted. -/
structure Machine (σ ι Op : Type) (Res : Op → Type) where
  act : ι → ∀ o : Op, σ → Res o → σ → Prop
  spawn : Op → Option (ι × Routine Op Res Unit)
  interrupt : ι → σ → Routine Op Res Unit → σ → Prop

/-- The routines after `o`, before the thread that did it goes on. -/
def Machine.spawned (m : Machine σ ι Op Res) (o : Op) (code : ι → Routine Op Res Unit) :
    ι → Routine Op Res Unit :=
  match m.spawn o with
  | none => code
  | some (j, p) => Function.update code j p

inductive Step (m : Machine σ ι Op Res) : Threads σ ι Op Res → Threads σ ι Op Res → Prop where
  | act {c : Threads σ ι Op Res} {i : ι} {o : Op} {next : Res o → Routine Op Res Unit}
      {r : Res o} {s' : σ} (hcode : c.code i = .act o next) (hact : m.act i o c.shared r s') :
      Step m c { shared := s', code := Function.update (m.spawned o c.code) i (next r) }
  | turn {c : Threads σ ι Op Res} {i : ι} {S R : Type} {body : S → Routine Op Res (S ⊕ R)}
      {s : S} {next : R → Routine Op Res Unit} (hcode : c.code i = .loop body s next) :
      Step m c { c with code := Function.update c.code i (Routine.turn body s next) }
  | interrupt {c : Threads σ ι Op Res} {i : ι} {p : Routine Op Res Unit} {s' : σ}
      (hint : m.interrupt i c.shared p s') :
      Step m c { shared := s', code := Function.update c.code i (p.bind fun _ => c.code i) }

inductive Reachable (m : Machine σ ι Op Res) (c₀ : Threads σ ι Op Res) :
    Threads σ ι Op Res → Prop where
  | init : Reachable m c₀ c₀
  | step {c c' : Threads σ ι Op Res} (hc : Reachable m c₀ c) (hstep : Step m c c') :
      Reachable m c₀ c'

/-- An invariant over the shared state and the states of the threads, and what is asked
of every operation for it.  Only the live threads have to keep the rules: an operation
may end other threads, and it may put a thread that it gives a new routine in a state
of its own. -/
structure Discipline (m : Machine σ ι Op Res) (ρ : Type) where
  inv : σ → (ι → ρ) → Prop
  rules : Program.Rules ρ Res
  live : ρ → Prop
  /-- what holds of a thread that has ended -/
  post : ρ → Prop
  monotone : rules.Monotone
  act_ok : ∀ {i o s r s' l} {Q : Res o → ρ → Prop}, inv s l → (live (l i) → rules o Q (l i)) →
    m.act i o s r s' → ∃ l', inv s' l' ∧ (live (l' i) → Q r (l' i)) ∧
      ∀ j, j ≠ i → live (l' j) →
        match m.spawn o with
        | none => l' j = l j
        | some (k, p) => if j = k then p.wp rules (fun _ => post) (l' j) else l' j = l j
  interrupt_ok : ∀ {i s p s' l}, inv s l → m.interrupt i s p s' →
    ∃ l', inv s' l' ∧ (∀ j, j ≠ i → l' j = l j) ∧ live (l i) ∧
      p.wp rules (fun _ => (· = l i)) (l' i)

variable {m : Machine σ ι Op Res}

/-- The invariant holds and every live thread can go on as the rules ask. -/
def Discipline.Good (d : Discipline m ρ) (c : Threads σ ι Op Res) : Prop :=
  ∃ l : ι → ρ, d.inv c.shared l ∧
    ∀ i, d.live (l i) → (c.code i).wp d.rules (fun _ => d.post) (l i)

theorem Discipline.good_step (d : Discipline m ρ) {c c' : Threads σ ι Op Res} (h : d.Good c)
    (hstep : Step m c c') : d.Good c' := by
  obtain ⟨l, hinv, hcode⟩ := h
  cases hstep with
  | @act i o next r s' hi hact =>
      have hrule : d.live (l i) → d.rules o
          (fun r => (next r).wp d.rules fun _ => d.post) (l i) := by
        intro hlive
        have hwp := hcode i hlive
        rw [hi] at hwp
        exact hwp
      obtain ⟨l', hinv', hnext, hothers⟩ := d.act_ok hinv hrule hact
      refine ⟨l', hinv', ?_⟩
      intro j hlive
      by_cases hj : j = i
      · subst hj
        simpa using hnext hlive
      · have hother := hothers j hj hlive
        simp only [Function.update_of_ne hj, Machine.spawned]
        cases hspawn : m.spawn o with
        | none =>
            simp only [hspawn] at hother ⊢
            rw [hother] at hlive ⊢
            exact hcode j hlive
        | some kp =>
            simp only [hspawn] at hother ⊢
            by_cases hk : j = kp.1
            · subst hk
              simpa using hother
            · simp only [hk, if_false] at hother
              rw [Function.update_of_ne hk]
              rw [hother] at hlive ⊢
              exact hcode j hlive
  | @turn i S R body s next hi =>
      refine ⟨l, hinv, ?_⟩
      intro j hlive
      by_cases hj : j = i
      · subst hj
        have hwp := hcode j hlive
        rw [hi] at hwp
        simpa using Routine.wp_turn d.monotone hwp
      · simpa [hj] using hcode j hlive
  | @interrupt i p s' hint =>
      obtain ⟨l', hinv', hothers, hlive, hp⟩ := d.interrupt_ok hinv hint
      refine ⟨l', hinv', ?_⟩
      intro j hlive'
      by_cases hj : j = i
      · subst hj
        simp only [Function.update_self]
        apply Routine.wp_bind d.monotone
        apply Routine.wp_mono d.monotone hp
        intro _ l'' hl''
        rw [hl'']
        exact hcode j hlive
      · simp only [Function.update_of_ne hj]
        rw [hothers j hj] at hlive' ⊢
        exact hcode j hlive'

theorem Discipline.good_of_reachable (d : Discipline m ρ) {c₀ c : Threads σ ι Op Res}
    (h₀ : d.Good c₀) (h : Reachable m c₀ c) : d.Good c := by
  induction h with
  | init => exact h₀
  | step _ hstep ih => exact d.good_step ih hstep

end Threads

end SyscallSched.Foundation
