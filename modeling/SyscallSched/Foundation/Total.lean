import Mathlib.Data.List.Range

/-!
# Total correctness of stateful programs that may fail

A program over a state `σ` that may stop with an error `ε` is a term of
`StateT σ (Except ε) α`.  `Total x s Q` says that `x`, started in `s`, does not
stop with an error and that its value and final state satisfy `Q`.
`Unchanged f x` says that no run of `x` that returns changes the view `f` of the
state.
-/

namespace SyscallSched.Foundation

variable {σ ε α β : Type}

def Total (x : StateT σ (Except ε) α) (s : σ) (Q : α → σ → Prop) : Prop :=
  ∃ a t, x s = .ok (a, t) ∧ Q a t

namespace Total

variable {x : StateT σ (Except ε) α} {f : α → StateT σ (Except ε) β} {s : σ}

theorem pure {a : α} {Q : α → σ → Prop} (h : Q a s) :
    Total (ε := ε) (Pure.pure a) s Q :=
  ⟨a, s, rfl, h⟩

theorem mono {P Q : α → σ → Prop} (h : Total x s P) (hPQ : ∀ a t, P a t → Q a t) :
    Total x s Q := by
  obtain ⟨a, t, hx, hP⟩ := h
  exact ⟨a, t, hx, hPQ a t hP⟩

theorem outcome {Q : α → σ → Prop} {a : α} {t : σ} (h : Total x s Q) (hx : x s = .ok (a, t)) :
    Q a t := by
  obtain ⟨a', t', hx', hQ⟩ := h
  rw [hx] at hx'
  cases hx'
  exact hQ

theorem and {P Q : α → σ → Prop} (h : Total x s P) (h' : Total x s Q) :
    Total x s fun a t => P a t ∧ Q a t := by
  obtain ⟨a, t, hx, hP⟩ := h
  exact ⟨a, t, hx, hP, h'.outcome hx⟩

theorem run_bind {a : α} {t : σ} (hx : x s = .ok (a, t)) : (x >>= f) s = f a t := by
  change (x s >>= fun r => f r.1 r.2) = f a t
  rw [hx]
  rfl

theorem bind {P : α → σ → Prop} {Q : β → σ → Prop} (hx : Total x s P)
    (hf : ∀ a t, P a t → Total (f a) t Q) : Total (x >>= f) s Q := by
  obtain ⟨a, t, ha, hP⟩ := hx
  obtain ⟨b, u, hb, hQ⟩ := hf a t hP
  exact ⟨b, u, (run_bind ha).trans hb, hQ⟩

theorem bind_eq {Q : β → σ → Prop} {a : α} {t : σ} (hx : x s = .ok (a, t))
    (hf : Total (f a) t Q) : Total (x >>= f) s Q := by
  obtain ⟨b, u, hb, hQ⟩ := hf
  exact ⟨b, u, (run_bind hx).trans hb, hQ⟩

theorem of_eq {Q : α → σ → Prop} {a : α} {t : σ} (hx : x s = .ok (a, t))
    (h : Q a t) : Total x s Q :=
  ⟨a, t, hx, h⟩

theorem congr {y : StateT σ (Except ε) α} {s' : σ} {Q : α → σ → Prop} (hxy : x s = y s')
    (h : Total y s' Q) : Total x s Q := by
  obtain ⟨a, t, hy, hQ⟩ := h
  exact ⟨a, t, hxy.trans hy, hQ⟩

theorem forRange {f : Nat → StateT σ (Except ε) Unit} {I : Nat → σ → Prop}
    (n : Nat) (h0 : I 0 s)
    (hstep : ∀ i t, i < n → I i t → Total (f i) t (fun _ t' => I (i + 1) t')) :
    Total (forM (List.range n) f) s (fun _ t => I n t) := by
  induction n with
  | zero => exact pure h0
  | succ n ih =>
      have hprefix := ih (fun i t hi => hstep i t (Nat.lt_succ_of_lt hi))
      have hlast : ∀ (_ : Unit) (t : σ), I n t →
          Total (forM [n] f) t (fun _ t' => I (n + 1) t') := by
        intro _ t ht
        apply bind (hstep n t (Nat.lt_succ_self n) ht)
        intro _ t' ht'
        exact pure ht'
      rw [List.range_succ, List.forM_append]
      exact bind hprefix hlast

end Total

/-! ## Views that a program leaves alone -/

section

variable {γ : Type} {f : σ → γ} {x : StateT σ (Except ε) α} {y : α → StateT σ (Except ε) β}

def Unchanged (f : σ → γ) (x : StateT σ (Except ε) α) : Prop :=
  ∀ s a t, x s = .ok (a, t) → f t = f s

theorem except_bind_ok {r : Except ε α} {next : α → Except ε β} {b : β}
    (h : (r >>= next) = .ok b) : ∃ a, r = .ok a ∧ next a = .ok b := by
  cases r with
  | error e => exact nomatch h
  | ok a => exact ⟨a, rfl, h⟩

theorem bind_ok {s u : σ} {b : β} (h : (x >>= y) s = .ok (b, u)) :
    ∃ a t, x s = .ok (a, t) ∧ y a t = .ok (b, u) := by
  obtain ⟨r, hx, hy⟩ := except_bind_ok h
  exact ⟨r.1, r.2, hx, hy⟩

theorem forRange_ok {body : Nat → StateT σ (Except ε) Unit} {I : Nat → σ → Prop} {n : Nat}
    {s t : σ} {a : Unit} (h : forM (List.range n) body s = .ok (a, t)) (h0 : I 0 s)
    (hstep : ∀ i u v b, i < n → I i u → body i u = .ok (b, v) → I (i + 1) v) : I n t := by
  induction n generalizing t a with
  | zero =>
      injection h with hpair
      injection hpair with _ hst
      rw [← hst]
      exact h0
  | succ n ih =>
      rw [List.range_succ, List.forM_append] at h
      obtain ⟨_, u, hprefix, hlast⟩ := bind_ok h
      have hu := ih hprefix fun i v w b hi => hstep i v w b (Nat.lt_succ_of_lt hi)
      obtain ⟨b, v, hbody, hend⟩ := bind_ok hlast
      injection hend with hpair
      injection hpair with _ hvt
      rw [← hvt]
      exact hstep n u v b (Nat.lt_succ_self n) hu hbody

namespace Unchanged

theorem of_pure (a : α) : Unchanged f (pure a : StateT σ (Except ε) α) := by
  intro s _ t h
  injection h with hpair
  injection hpair with _ hst
  rw [hst]

theorem of_throw (e : ε) : Unchanged f (throw e : StateT σ (Except ε) α) := by
  intro s a t h
  cases h

theorem bind (hx : Unchanged f x) (hy : ∀ a, Unchanged f (y a)) :
    Unchanged f (x >>= y) := by
  intro s b u h
  obtain ⟨a, t, ha, hb⟩ := bind_ok h
  exact (hy a t b u hb).trans (hx s a t ha)

theorem of_get : Unchanged f (get : StateT σ (Except ε) σ) := by
  intro s _ t h
  injection h with hpair
  injection hpair with _ hst
  rw [hst]

theorem of_modify {g : σ → σ} (hg : ∀ s, f (g s) = f s) :
    Unchanged f (modify g : StateT σ (Except ε) PUnit) := by
  intro s _ t h
  injection h with hpair
  injection hpair with _ hst
  rw [← hst]
  exact hg s

end Unchanged

end

end SyscallSched.Foundation

/-!
## Programs that follow other programs

`Mirrors x s y t Q` says that whenever `y` returns from `t`, `x` returns from `s`,
and that the two outcomes are related by `Q`.  What is known of `y` then carries
over to `x`.
-/

namespace SyscallSched.Foundation

variable {σ τ ε α β γ δ : Type}

def Mirrors (x : StateT σ (Except ε) α) (s : σ) (y : StateT τ (Except ε) β) (t : τ)
    (Q : α → σ → β → τ → Prop) : Prop :=
  ∀ b t', y t = .ok (b, t') → ∃ a s', x s = .ok (a, s') ∧ Q a s' b t'

namespace Mirrors

variable {x : StateT σ (Except ε) α} {s : σ} {y : StateT τ (Except ε) β} {t : τ}

theorem pure {a : α} {b : β} {Q : α → σ → β → τ → Prop} (h : Q a s b t) :
    Mirrors (ε := ε) (Pure.pure a) s (Pure.pure b) t Q := by
  intro b' t' hrun
  injection hrun with hpair
  injection hpair with hb ht
  rw [← hb, ← ht]
  exact ⟨a, s, rfl, h⟩

theorem of_eq {a : α} {s' : σ} {b : β} {t' : τ} {Q : α → σ → β → τ → Prop}
    (hx : x s = .ok (a, s')) (hy : y t = .ok (b, t')) (h : Q a s' b t') :
    Mirrors x s y t Q := by
  intro b₁ t₁ hrun
  rw [hy] at hrun
  injection hrun with hpair
  injection hpair with hb ht
  rw [← hb, ← ht]
  exact ⟨a, s', hx, h⟩

theorem bind {f : α → StateT σ (Except ε) γ} {g : β → StateT τ (Except ε) δ}
    {P : α → σ → β → τ → Prop} {Q : γ → σ → δ → τ → Prop} (hx : Mirrors x s y t P)
    (hf : ∀ a s' b t', P a s' b t' → Mirrors (f a) s' (g b) t' Q) :
    Mirrors (x >>= f) s (y >>= g) t Q := by
  intro d u hrun
  obtain ⟨b, t', hy, hg⟩ := bind_ok hrun
  obtain ⟨a, s', hxs, hP⟩ := hx b t' hy
  obtain ⟨c, v, hfs, hQ⟩ := hf a s' b t' hP d u hg
  exact ⟨c, v, (Total.run_bind hxs).trans hfs, hQ⟩

theorem bind_eq {f : α → StateT σ (Except ε) γ} {g : β → StateT τ (Except ε) δ}
    {Q : γ → σ → δ → τ → Prop} {a : α} {s' : σ} {b : β} {t' : τ} (hx : x s = .ok (a, s'))
    (hy : y t = .ok (b, t')) (hf : Mirrors (f a) s' (g b) t' Q) :
    Mirrors (x >>= f) s (y >>= g) t Q := by
  intro d u hrun
  rw [Total.run_bind hy] at hrun
  obtain ⟨c, v, hfs, hQ⟩ := hf d u hrun
  exact ⟨c, v, (Total.run_bind hx).trans hfs, hQ⟩

theorem total {P : β → τ → Prop} {Q : α → σ → β → τ → Prop} (h : Mirrors x s y t Q)
    (hy : Total y t P) : Total x s fun a s' => ∃ b t', P b t' ∧ Q a s' b t' := by
  obtain ⟨b, t', hrun, hP⟩ := hy
  obtain ⟨a, s', hxs, hQ⟩ := h b t' hrun
  exact ⟨a, s', hxs, b, t', hP, hQ⟩

theorem forRange {f : Nat → StateT σ (Except ε) Unit} {g : Nat → StateT τ (Except ε) Unit}
    {R : σ → τ → Prop} (n : Nat) (h : R s t)
    (hstep : ∀ i s t, R s t → Mirrors (f i) s (g i) t fun _ s' _ t' => R s' t') :
    Mirrors (forM (List.range n) f) s (forM (List.range n) g) t fun _ s' _ t' => R s' t' := by
  induction n with
  | zero => exact pure h
  | succ n ih =>
      have hlast : ∀ s t, R s t →
          Mirrors (forM [n] f) s (forM [n] g) t fun _ s' _ t' => R s' t' := by
        intro s t hst
        apply bind (hstep n s t hst)
        intro _ s' _ t' hst'
        exact pure hst'
      rw [List.range_succ, List.forM_append, List.forM_append]
      apply bind ih
      intro _ s' _ t' hst'
      exact hlast s' t' hst'

end Mirrors

end SyscallSched.Foundation

/-!
## Outcomes of programs that may fail

`Ensures E x s Q` says of `x` started in `s` that when it returns, its value and
final state satisfy `Q`, and when it stops with an error, the error satisfies `E`.
`Outcome room x s Q` is the case where it does not fail while there is `room`: one
derivation gives both the partial correctness of `x` and a condition under which it
returns.
-/

namespace SyscallSched.Foundation

variable {σ ε α β : Type}

structure Ensures (E : ε → Prop) (x : StateT σ (Except ε) α) (s : σ) (Q : α → σ → Prop) :
    Prop where
  post : ∀ a t, x s = .ok (a, t) → Q a t
  error : ∀ e, x s = .error e → E e

namespace Ensures

variable {E : ε → Prop} {x : StateT σ (Except ε) α} {f : α → StateT σ (Except ε) β} {s : σ}

theorem of_eq {Q : α → σ → Prop} {a : α} {t : σ} (hx : x s = .ok (a, t)) (h : Q a t) :
    Ensures E x s Q := by
  constructor
  case post =>
    intro a' t' hx'
    rw [hx] at hx'
    injection hx' with hpair
    injection hpair with ha ht
    rw [← ha, ← ht]
    exact h
  case error =>
    intro e hx'
    rw [hx] at hx'
    cases hx'

theorem pure {a : α} {Q : α → σ → Prop} (h : Q a s) : Ensures E (Pure.pure a) s Q :=
  of_eq rfl h

theorem of_error {Q : α → σ → Prop} {e : ε} (hx : x s = .error e) (h : E e) :
    Ensures E x s Q := by
  constructor
  case post =>
    intro a t hx'
    rw [hx] at hx'
    cases hx'
  case error =>
    intro e' hx'
    rw [hx] at hx'
    injection hx' with he
    rw [← he]
    exact h

theorem mono {E' : ε → Prop} {P Q : α → σ → Prop} (h : Ensures E x s P)
    (hE : ∀ e, E e → E' e) (hPQ : ∀ a t, P a t → Q a t) : Ensures E' x s Q := by
  constructor
  case post =>
    intro a t hx
    exact hPQ a t (h.post a t hx)
  case error =>
    intro e hx
    exact hE e (h.error e hx)

theorem imp {P Q : α → σ → Prop} (h : Ensures E x s P) (hPQ : ∀ a t, P a t → Q a t) :
    Ensures E x s Q :=
  h.mono (fun _ he => he) hPQ

theorem bind {P : α → σ → Prop} {Q : β → σ → Prop} (hx : Ensures E x s P)
    (hf : ∀ a t, P a t → Ensures E (f a) t Q) : Ensures E (x >>= f) s Q := by
  have hrun : (x >>= f) s = (x s >>= fun r => f r.1 r.2) := rfl
  cases hs : x s with
  | error e =>
      rw [hs] at hrun
      exact of_error hrun (hx.error e hs)
  | ok r =>
      rw [hs] at hrun
      have hrest := hf r.1 r.2 (hx.post r.1 r.2 hs)
      constructor
      case post =>
        intro b u h
        exact hrest.post b u (hrun.symm.trans h)
      case error =>
        intro e h
        exact hrest.error e (hrun.symm.trans h)

theorem bind_eq {Q : β → σ → Prop} {a : α} {t : σ} (hx : x s = .ok (a, t))
    (hf : Ensures E (f a) t Q) : Ensures E (x >>= f) s Q := by
  constructor
  case post =>
    intro b u h
    rw [Total.run_bind hx] at h
    exact hf.post b u h
  case error =>
    intro e h
    rw [Total.run_bind hx] at h
    exact hf.error e h

end Ensures

/-! ## Programs that do not fail while there is room -/

def Outcome (room : Prop) (x : StateT σ (Except ε) α) (s : σ) (Q : α → σ → Prop) : Prop :=
  Ensures (fun _ => ¬ room) x s Q

namespace Outcome

variable {room : Prop} {x : StateT σ (Except ε) α} {f : α → StateT σ (Except ε) β} {s : σ}

theorem post {Q : α → σ → Prop} (h : Outcome room x s Q) {a : α} {t : σ}
    (hx : x s = .ok (a, t)) : Q a t :=
  Ensures.post h a t hx

theorem returns {Q : α → σ → Prop} (h : Outcome room x s Q) (hroom : room) :
    ∃ a t, x s = .ok (a, t) := by
  cases hs : x s with
  | error e => exact absurd hroom (Ensures.error h e hs)
  | ok r => exact ⟨r.1, r.2, rfl⟩

theorem of_eq {Q : α → σ → Prop} {a : α} {t : σ} (hx : x s = .ok (a, t)) (h : Q a t) :
    Outcome room x s Q :=
  Ensures.of_eq hx h

theorem pure {a : α} {Q : α → σ → Prop} (h : Q a s) :
    Outcome (ε := ε) room (Pure.pure a) s Q :=
  Ensures.pure h

theorem of_error {Q : α → σ → Prop} {e : ε} (hx : x s = .error e) (h : ¬ room) :
    Outcome room x s Q :=
  Ensures.of_error hx h

theorem mono {room' : Prop} {P Q : α → σ → Prop} (h : Outcome room x s P)
    (hroom : room' → room) (hPQ : ∀ a t, P a t → Q a t) : Outcome room' x s Q :=
  Ensures.mono h (fun _ hfull hr => hfull (hroom hr)) hPQ

theorem bind {P : α → σ → Prop} {Q : β → σ → Prop} (hx : Outcome room x s P)
    (hf : ∀ a t, P a t → Outcome room (f a) t Q) : Outcome room (x >>= f) s Q :=
  Ensures.bind hx hf

theorem bind_eq {Q : β → σ → Prop} {a : α} {t : σ} (hx : x s = .ok (a, t))
    (hf : Outcome room (f a) t Q) : Outcome room (x >>= f) s Q :=
  Ensures.bind_eq hx hf

theorem and {room' : Prop} {P Q : α → σ → Prop} (hP : Outcome room x s P)
    (hQ : Outcome room' x s Q) : Outcome room x s fun a t => P a t ∧ Q a t where
  post := fun _ _ hx => ⟨hP.post hx, hQ.post hx⟩
  error := Ensures.error hP

end Outcome

end SyscallSched.Foundation
