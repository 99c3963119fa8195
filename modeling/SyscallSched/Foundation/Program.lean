import Mathlib.Logic.Function.Basic
import SyscallSched.Foundation.Total

/-!
# Programs over a set of operations

A program is a tree of operations: it ends with a value, or it does an operation
and goes on according to the operation's result.  `interp` runs a program alone.
In a `Pool` several threads run programs over one shared state and take turns
after every operation.

`wp` is the weakest precondition of a program over a state of the thread alone.
`Discipline.good_of_reachable` is the rule for pools: when each operation keeps an
invariant that ties the shared state to the states of the threads, every reachable
state has it.
-/

namespace SyscallSched.Foundation

inductive Program (Op : Type) (Res : Op → Type) (α : Type) : Type where
  | ret (a : α)
  | act (o : Op) (next : Res o → Program Op Res α)

namespace Program

variable {Op : Type} {Res : Op → Type} {α β γ σ ε ρ : Type}

def bind : Program Op Res α → (α → Program Op Res β) → Program Op Res β
  | ret a, f => f a
  | act o next, f => act o fun r => (next r).bind f

instance : Monad (Program Op Res) where
  pure := ret
  bind := bind

def op (o : Op) : Program Op Res (Res o) := act o ret

@[simp] theorem pure_eq (a : α) : (pure a : Program Op Res α) = ret a := rfl

@[simp] theorem ret_bind (a : α) (f : α → Program Op Res β) : (ret a >>= f) = f a := rfl

@[simp] theorem act_bind (o : Op) (next : Res o → Program Op Res α)
    (f : α → Program Op Res β) : (act o next >>= f) = act o fun r => next r >>= f := rfl

/-! ## Running a program alone -/

/-- The effects of the operations on a state. -/
abbrev Handler (σ ε : Type) (Res : Op → Type) := ∀ o : Op, StateT σ (Except ε) (Res o)

def interp (h : Handler σ ε Res) : Program Op Res α → StateT σ (Except ε) α
  | ret a => pure a
  | act o next => h o >>= fun r => (next r).interp h

variable {h : Handler σ ε Res}

@[simp] theorem interp_ret (a : α) : interp h (ret a) = pure a := rfl

@[simp] theorem interp_act (o : Op) (next : Res o → Program Op Res α) :
    interp h (act o next) = h o >>= fun r => interp h (next r) := rfl

@[simp] theorem interp_op (o : Op) : interp h (op o) = h o := by
  rw [op, interp_act]
  simp

@[simp] theorem interp_bind (p : Program Op Res α) (f : α → Program Op Res β) :
    interp h (p >>= f) = interp h p >>= fun a => interp h (f a) := by
  induction p with
  | ret a => simp
  | act o next ih =>
      rw [act_bind, interp_act, interp_act, bind_assoc]
      congr 1
      funext r
      exact ih r

/-- Replaces every operation by a program. -/
def expand {Op' : Type} {Res' : Op' → Type} (code : ∀ o : Op, Program Op' Res' (Res o)) :
    Program Op Res α → Program Op' Res' α
  | ret a => pure a
  | act o next => code o >>= fun r => (next r).expand code

/-! ## Preconditions over the state of a thread -/

/-- What each operation asks of the thread that does it. -/
abbrev Rules (ρ : Type) (Res : Op → Type) := ∀ o : Op, (Res o → ρ → Prop) → ρ → Prop

def wp (t : Rules ρ Res) : Program Op Res α → (α → ρ → Prop) → ρ → Prop
  | ret a, Q => Q a
  | act o next, Q => t o fun r => (next r).wp t Q

variable {t : Rules ρ Res}

@[simp] theorem wp_ret (a : α) (Q : α → ρ → Prop) : wp t (ret a) Q = Q a := rfl

@[simp] theorem wp_act (o : Op) (next : Res o → Program Op Res α) (Q : α → ρ → Prop) :
    wp t (act o next) Q = t o fun r => wp t (next r) Q := rfl

@[simp] theorem wp_op (o : Op) (Q : Res o → ρ → Prop) : wp t (op o) Q = t o Q := rfl

@[simp] theorem wp_bind (p : Program Op Res α) (f : α → Program Op Res β)
    (Q : β → ρ → Prop) : wp t (p >>= f) Q = wp t p fun a => wp t (f a) Q := by
  induction p with
  | ret a => rfl
  | act o next ih =>
      rw [act_bind, wp_act, wp_act]
      congr 1
      funext r
      exact ih r

def Rules.Monotone (t : Rules ρ Res) : Prop :=
  ∀ (o : Op) {Q Q' : Res o → ρ → Prop} {l : ρ}, (∀ r l', Q r l' → Q' r l') → t o Q l → t o Q' l

theorem wp_mono (ht : t.Monotone) {p : Program Op Res α} {Q Q' : α → ρ → Prop} {l : ρ}
    (h : wp t p Q l) (hQ : ∀ a l', Q a l' → Q' a l') : wp t p Q' l := by
  induction p generalizing l with
  | ret a => exact hQ a l h
  | act o next ih =>
      apply ht o ?_ h
      intro r l' hnext
      exact ih r hnext

def Rules.Conjunctive (t : Rules ρ Res) : Prop :=
  ∀ (o : Op) {Q Q' : Res o → ρ → Prop} {l : ρ}, t o Q l → t o Q' l →
    t o (fun r l' => Q r l' ∧ Q' r l') l

theorem wp_and (ht : t.Conjunctive) (hmono : t.Monotone) {p : Program Op Res α}
    {Q Q' : α → ρ → Prop} {l : ρ} (h : wp t p Q l) (h' : wp t p Q' l) :
    wp t p (fun a l' => Q a l' ∧ Q' a l') l := by
  induction p generalizing l with
  | ret a => exact ⟨h, h'⟩
  | act o next ih =>
      apply hmono o ?_ (ht o h h')
      intro r l' hnext
      exact ih r hnext.1 hnext.2

def Leads (t : Rules ρ Res) (p : Program Op Res α) (l l' : ρ) : Prop :=
  ∀ Q : α → ρ → Prop, (∀ a, Q a l') → wp t p Q l

theorem Leads.pure (a : α) (l : ρ) : Leads t (Pure.pure a) l l := fun _ hQ => hQ a

theorem Leads.bind {p : Program Op Res α} {f : α → Program Op Res β} {l l₁ l₂ : ρ}
    (hp : Leads t p l l₁) (hf : ∀ a, Leads t (f a) l₁ l₂) : Leads t (p >>= f) l l₂ := by
  intro Q hQ
  rw [wp_bind]
  apply hp
  intro a
  exact hf a Q hQ

theorem Leads.expand {Op' : Type} {Res' : Op' → Type}
    {code : ∀ o : Op', Program Op Res (Res' o)} {l : ρ} (hcode : ∀ o, Leads t (code o) l l)
    (p : Program Op' Res' α) : Leads t (p.expand code) l l := by
  induction p with
  | ret a => exact Leads.pure a l
  | act o next ih => exact (hcode o).bind ih

end Program

/-! ## Threads that take turns -/

structure Pool (σ ι Op : Type) (Res : Op → Type) where
  shared : σ
  threads : ι → Program Op Res Unit

namespace Pool

variable {σ ι ρ Op : Type} {Res : Op → Type} [DecidableEq ι]

structure Machine (σ ι Op : Type) (Res : Op → Type) where
  act : ι → ∀ o : Op, σ → Res o → σ → Prop
  env : σ → σ → Prop
  /-- programs that an idle thread may begin -/
  start : ι → σ → Program Op Res Unit → Prop

inductive Step (m : Machine σ ι Op Res) : Pool σ ι Op Res → Pool σ ι Op Res → Prop where
  | act {c : Pool σ ι Op Res} {i : ι} {o : Op} {next : Res o → Program Op Res Unit} {r : Res o}
      {s' : σ} (hthread : c.threads i = .act o next) (hact : m.act i o c.shared r s') :
      Step m c { shared := s', threads := Function.update c.threads i (next r) }
  | env {c : Pool σ ι Op Res} {s' : σ} (henv : m.env c.shared s') :
      Step m c { c with shared := s' }
  | start {c : Pool σ ι Op Res} {i : ι} {p : Program Op Res Unit}
      (hidle : c.threads i = .ret ()) (hstart : m.start i c.shared p) :
      Step m c { c with threads := Function.update c.threads i p }

inductive Reachable (m : Machine σ ι Op Res) (c₀ : Pool σ ι Op Res) : Pool σ ι Op Res → Prop where
  | init : Reachable m c₀ c₀
  | step {c c' : Pool σ ι Op Res} (hc : Reachable m c₀ c) (hstep : Step m c c') :
      Reachable m c₀ c'

/-- An invariant `inv` over the shared state and the states of the threads, and what
is asked of every operation for it. -/
structure Discipline (m : Machine σ ι Op Res) (ρ : Type) where
  inv : σ → (ι → ρ) → Prop
  rules : Program.Rules ρ Res
  idle : ρ → Prop
  act_ok : ∀ {i o s r s' l} {Q : Res o → ρ → Prop}, inv s l → rules o Q (l i) →
    m.act i o s r s' → ∃ l', inv s' (Function.update l i l') ∧ Q r l'
  env_ok : ∀ {s s' l}, inv s l → m.env s s' → inv s' l
  start_ok : ∀ {i s l p}, inv s l → idle (l i) → m.start i s p →
    Program.wp rules p (fun _ => idle) (l i)

variable {m : Machine σ ι Op Res}

/-- The invariant holds and every thread can go on as the rules ask. -/
def Discipline.Good (d : Discipline m ρ) (c : Pool σ ι Op Res) : Prop :=
  ∃ l : ι → ρ, d.inv c.shared l ∧ ∀ i, Program.wp d.rules (c.threads i) (fun _ => d.idle) (l i)

theorem Discipline.good_step (d : Discipline m ρ) {c c' : Pool σ ι Op Res} (h : d.Good c)
    (hstep : Step m c c') : d.Good c' := by
  obtain ⟨l, hinv, hthreads⟩ := h
  cases hstep with
  | @act i o next r s' hthread hact =>
      have hrule := hthreads i
      rw [hthread, Program.wp_act] at hrule
      obtain ⟨l', hinv', hnext⟩ := d.act_ok hinv hrule hact
      refine ⟨Function.update l i l', hinv', ?_⟩
      intro j
      by_cases hj : j = i
      · subst hj
        simpa using hnext
      · simpa [hj] using hthreads j
  | env henv => exact ⟨l, d.env_ok hinv henv, hthreads⟩
  | @start i p hidle hstart =>
      refine ⟨l, hinv, ?_⟩
      intro j
      by_cases hj : j = i
      · subst hj
        have hready := hthreads j
        rw [hidle] at hready
        simpa using d.start_ok hinv hready hstart
      · simpa [hj] using hthreads j

theorem Discipline.good_of_reachable (d : Discipline m ρ) {c₀ c : Pool σ ι Op Res}
    (h₀ : d.Good c₀) (h : Reachable m c₀ c) : d.Good c := by
  induction h with
  | init => exact h₀
  | step _ hstep ih => exact d.good_step ih hstep

end Pool

end SyscallSched.Foundation
