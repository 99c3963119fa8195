import SyscallSched.Xv6.Fs.Code
import SyscallSched.Xv6.Fs.Commit

/-!
# Running the functions of `fs.c`

`exec` runs the operations on the buffer cache and the log.  What a function of `fs.c`
does depends on what readers see, and not on the log: `Performs` says what it returns,
what readers see then, and the blocks that it passes to `log_write`, in order.  The
log only decides whether it gets that far.
-/

namespace SyscallSched.Xv6.Fs.Code

open SyscallSched.Foundation SyscallSched.Xv6.Fs

variable {α β : Type}

def lift (x : StoreM α) : StateT Store (Except FsError) α := fun s => (x s).mapError .log

def exec : Program.Handler Store FsError BufOp.Res
  | .bread b => lift (Fs.bread b)
  | .store b data => lift (setData b data)
  | .copyin b data _ => lift (setData b data)
  | .logWrite b => lift (Fs.logWrite b)
  | .brelse b => lift (Fs.brelse b)
  | .bwrite b => lift (Fs.bwrite b)
  | .bunpin b => lift (Fs.bunpin b)
  | .getLog => fun s => .ok (s.log, s)
  | .clearLog => lift (setLog fun l => { l with lh := [] })
  | .beginOp => lift Fs.beginOp
  | .endOp => lift Fs.endOp
  | .endCommit => lift (setLog fun l => { l with committing := false })
  | .fail e => throw e

def run (p : FsProg α) : StateT Store (Except FsError) α := p.interp exec

@[simp] theorem run_bind (p : FsProg α) (f : α → FsProg β) :
    run (p >>= f) = run p >>= fun a => run (f a) :=
  Program.interp_bind p f

@[simp] theorem run_pure (a : α) : run (pure a : FsProg α) = pure a := rfl

theorem run_op (o : BufOp) : run (Program.op o) = exec o := Program.interp_op o

/-! ## What a program does -/

/-- What readers see, and the blocks logged so far. -/
structure Trace where
  view : Nat → Block
  logged : List Nat

/-- The operations on buffers, and `log_write` of a log that has room. -/
def effects : Program.Rules Trace BufOp.Res
  | .bread b, Q, t => Q (t.view b) t
  | .store b data, Q, t => Q () { t with view := Function.update t.view b data }
  | .copyin b data _, Q, t => Q () { t with view := Function.update t.view b data }
  | .logWrite b, Q, t => Q () { t with logged := t.logged ++ [b] }
  | .brelse _, Q, t => Q () t
  | _, _, _ => False

theorem effects_monotone : effects.Monotone := by
  intro o Q Q' t hQ h
  cases o with
  | bread b => exact hQ _ _ h
  | store b data => exact hQ _ _ h
  | copyin b data ok => exact hQ _ _ h
  | logWrite b => exact hQ _ _ h
  | brelse b => exact hQ _ _ h
  | _ => exact h

theorem effects_conjunctive : effects.Conjunctive := by
  intro o Q Q' t h h'
  cases o with
  | bread b => exact ⟨h, h'⟩
  | store b data => exact ⟨h, h'⟩
  | copyin b data ok => exact ⟨h, h'⟩
  | logWrite b => exact ⟨h, h'⟩
  | brelse b => exact ⟨h, h'⟩
  | _ => exact h

/-- Where readers see `v`, `p` returns a value, changes what they see and logs blocks
as `Q` says. -/
def Performs (p : FsProg α) (v : Nat → Block)
    (Q : α → (Nat → Block) → List Nat → Prop) : Prop :=
  ∀ bs, p.wp effects (fun a t => ∃ bs', t.logged = bs ++ bs' ∧ Q a t.view bs') ⟨v, bs⟩

section

variable {p : FsProg α} {v : Nat → Block} {P Q : α → (Nat → Block) → List Nat → Prop}

theorem Performs.pure {a : α} (h : Q a v []) : Performs (Pure.pure a) v Q :=
  fun bs => ⟨[], (List.append_nil bs).symm, h⟩

theorem Performs.imp (h : Performs p v P) (hPQ : ∀ a v' bs, P a v' bs → Q a v' bs) :
    Performs p v Q := by
  intro bs
  apply Program.wp_mono effects_monotone (h bs)
  intro a t ha
  obtain ⟨bs', hlogged, hP⟩ := ha
  exact ⟨bs', hlogged, hPQ a t.view bs' hP⟩

theorem Performs.and (hP : Performs p v P) (hQ : Performs p v Q) :
    Performs p v fun a v' bs => P a v' bs ∧ Q a v' bs := by
  intro bs
  apply Program.wp_mono effects_monotone
    (Program.wp_and effects_conjunctive effects_monotone (hP bs) (hQ bs))
  intro a t ha
  obtain ⟨⟨bs', hlogged, hP'⟩, ⟨bs'', hlogged', hQ'⟩⟩ := ha
  obtain rfl : bs' = bs'' := List.append_cancel_left (hlogged.symm.trans hlogged')
  exact ⟨bs', hlogged, hP', hQ'⟩

theorem Performs.bind {f : α → FsProg β} {Q : β → (Nat → Block) → List Nat → Prop}
    (hp : Performs p v P)
    (hf : ∀ a v' bs, P a v' bs → Performs (f a) v' fun b v'' bs' => Q b v'' (bs ++ bs')) :
    Performs (p >>= f) v Q := by
  intro bs
  rw [Program.wp_bind]
  apply Program.wp_mono effects_monotone (hp bs)
  intro a t ha
  obtain ⟨bs', hlogged, hP⟩ := ha
  apply Program.wp_mono effects_monotone (hf a t.view bs' hP t.logged)
  intro b t' hb
  obtain ⟨bs'', hlogged', hQ⟩ := hb
  refine ⟨bs' ++ bs'', ?_, hQ⟩
  rw [hlogged', hlogged, List.append_assoc]

end

section

variable {v : Nat → Block} {b : Nat} {data : Block} {f : Unit → FsProg β}
  {Q : β → (Nat → Block) → List Nat → Prop}

theorem performs_bread {f : Block → FsProg β} (h : Performs (f (v b)) v Q) :
    Performs (bread b >>= f) v Q := h

theorem performs_store (h : Performs (f ()) (Function.update v b data) Q) :
    Performs (store b data >>= f) v Q := h

theorem performs_copyin {ok : Bool} (h : Performs (f ()) (Function.update v b data) Q) :
    Performs (copyin b data ok >>= f) v Q := h

theorem performs_brelse (h : Performs (f ()) v Q) : Performs (brelse b >>= f) v Q := h

theorem performs_logWrite (h : Performs (f ()) v fun a v' bs => Q a v' (b :: bs)) :
    Performs (logWrite b >>= f) v Q := by
  intro bs
  apply Program.wp_mono effects_monotone (h (bs ++ [b]))
  intro a t ha
  obtain ⟨bs', hlogged, hQ⟩ := ha
  refine ⟨b :: bs', ?_, hQ⟩
  rw [hlogged, List.append_assoc, List.singleton_append]

end

/-! ## With the log -/

def Log.absorb (l : Log) (b : Nat) : Log :=
  { l with lh := if b ∈ l.lh then l.lh else l.lh ++ [b] }

def Log.Takes : Log → List Nat → Prop
  | _, [] => True
  | l, b :: bs => (¬ l.Full ∧ 0 < l.outstanding) ∧ Takes (Log.absorb l b) bs

/-- An operation of the log has begun, and `count` more blocks fit. -/
def Log.HasRoomFor (l : Log) (count : Nat) : Prop :=
  0 < l.outstanding ∧ l.lh.length + count < logSize ∧ l.lh.length + count < l.size - 1

instance (l : Log) (count : Nat) : Decidable (Log.HasRoomFor l count) :=
  inferInstanceAs (Decidable (_ ∧ _ ∧ _))

/-- The blocks of one more operation fit. -/
def Log.HasRoom (l : Log) : Prop := Log.HasRoomFor l maxOpBlocks

instance (l : Log) : Decidable (Log.HasRoom l) := inferInstanceAs (Decidable (_ ∧ _ ∧ _))

theorem takes_of_card {l : Log} {bs : List Nat} (hout : 0 < l.outstanding)
    (hlog : l.lh.length + (bs.toFinset \ l.lh.toFinset).card < logSize)
    (hsize : l.lh.length + (bs.toFinset \ l.lh.toFinset).card < l.size - 1) :
    Log.Takes l bs := by
  induction bs generalizing l with
  | nil => trivial
  | cons b bs ih =>
      have hfree : ¬ l.Full := by
        rw [Log.Full]
        omega
      refine ⟨⟨hfree, hout⟩, ?_⟩
      have hcard : (Log.absorb l b).lh.length +
          (bs.toFinset \ (Log.absorb l b).lh.toFinset).card ≤
          l.lh.length + ((b :: bs).toFinset \ l.lh.toFinset).card := by
        by_cases hb : b ∈ l.lh
        · have hsame : Log.absorb l b = l := by simp [Log.absorb, hb]
          rw [hsame]
          apply Nat.add_le_add_left
          apply Finset.card_le_card
          apply Finset.sdiff_subset_sdiff ?_ (Finset.Subset.refl _)
          simp
        · have hnew : (Log.absorb l b).lh = l.lh ++ [b] := by simp [Log.absorb, hb]
          rw [hnew, List.length_append, List.length_singleton, Nat.add_assoc]
          apply Nat.add_le_add_left
          rw [Nat.add_comm, ← Nat.succ_eq_add_one, Nat.succ_le_iff]
          apply Finset.card_lt_card
          refine Finset.ssubset_iff_of_subset ?_ |>.mpr ⟨b, ?_, ?_⟩
          · intro c hc
            simp only [List.toFinset_append, List.toFinset_cons, Finset.mem_sdiff,
              Finset.mem_union, Finset.mem_insert, not_or] at hc ⊢
            exact ⟨Or.inr hc.1, hc.2.1⟩
          · simp [hb]
          · simp
      exact ih hout (by simp only [Log.absorb] at *; omega) (by simp only [Log.absorb] at *; omega)

theorem Log.HasRoomFor.takes {l : Log} {count : Nat} {bs : List Nat}
    (h : Log.HasRoomFor l count) (hcard : bs.toFinset.card ≤ count) : Log.Takes l bs := by
  have hnew : (bs.toFinset \ l.lh.toFinset).card ≤ bs.toFinset.card :=
    Finset.card_le_card Finset.sdiff_subset
  obtain ⟨hout, hlog, hsize⟩ := h
  exact takes_of_card hout (by omega) (by omega)

/-- `p` returns `a` if the log takes the blocks `bs`, and otherwise `log_write` panics. -/
def Runs (p : FsProg α) (s : Store) (a : α) (v : Nat → Block) (bs : List Nat) : Prop :=
  (Log.Takes s.log bs ∧
    ∃ s', run p s = .ok (a, s') ∧ s'.view = v ∧ s'.log = bs.foldl Log.absorb s.log) ∨
  (¬ Log.Takes s.log bs ∧ ∃ e, run p s = .error (.log e))

section

variable {s s' : Store} {a : α} {v : Nat → Block} {b : Nat} {bs : List Nat}

theorem Runs.returns {p : FsProg α} {count : Nat} (h : Runs p s a v bs)
    (hcard : bs.toFinset.card ≤ count) (hroom : Log.HasRoomFor s.log count) :
    ∃ s', run p s = .ok (a, s') ∧ s'.view = v := by
  cases h with
  | inl hok =>
      obtain ⟨-, s', hrun, hview, -⟩ := hok
      exact ⟨s', hrun, hview⟩
  | inr hpanic => exact absurd (hroom.takes hcard) hpanic.1

theorem Runs.step {o : BufOp} {r : o.Res} {next : o.Res → FsProg α}
    (ho : exec o s = .ok (r, s')) (hlog : s'.log = s.log) (h : Runs (next r) s' a v bs) :
    Runs (.act o next) s a v bs := by
  have hrun : run (.act o next) s = run (next r) s' := Total.run_bind ho
  rw [Runs, hrun, ← hlog]
  exact h

theorem logWrite_panics (h : ¬ (¬ s.log.Full ∧ 0 < s.log.outstanding)) :
    ∃ e, Fs.logWrite b s = .error e := by
  by_cases hfull : s.log.Full
  · exact ⟨_, logWrite_full hfull⟩
  · exact ⟨_, logWrite_outside hfull (Nat.eq_zero_of_not_pos fun ho => h ⟨hfull, ho⟩)⟩

theorem exec_logWrite (h : ¬ s.log.Full ∧ 0 < s.log.outstanding) :
    ∃ s', exec (.logWrite b) s = .ok ((), s') ∧ s'.view = s.view ∧
      s'.log = Log.absorb s.log b := by
  have hrun := logWrite_run h.1 h.2 (b := b)
  obtain ⟨-, hview, hlog, -⟩ := logWrite_effect hrun
  refine ⟨_, ?_, hview, hlog⟩
  rw [exec, lift, hrun]
  rfl

theorem Runs.logged {next : Unit → FsProg α} (hroom : ¬ s.log.Full ∧ 0 < s.log.outstanding)
    (hexec : exec (.logWrite b) s = .ok ((), s')) (hlog : s'.log = Log.absorb s.log b)
    (h : Runs (next ()) s' a v bs) : Runs (.act (.logWrite b) next) s a v (b :: bs) := by
  have hrun : run (.act (.logWrite b) next) s = run (next ()) s' := Total.run_bind hexec
  rw [Runs, hlog] at h
  rw [Runs, hrun, Log.Takes, and_iff_right hroom]
  exact h

theorem Runs.refused {next : Unit → FsProg α}
    (hroom : ¬ (¬ s.log.Full ∧ 0 < s.log.outstanding)) :
    Runs (.act (.logWrite b) next) s a v (b :: bs) := by
  obtain ⟨e, hfail⟩ := logWrite_panics (b := b) hroom
  have hexec : exec (.logWrite b) s = .error (.log e) := by
    rw [exec, lift, hfail]
    rfl
  refine Or.inr ⟨fun htakes => hroom htakes.1, e, ?_⟩
  exact congrArg (fun x => x >>= fun r => run (next r.1) r.2) hexec

theorem runs_of_wp {p : FsProg α} {Q : α → Trace → Prop} {bs : List Nat}
    (h : p.wp effects Q ⟨s.view, bs⟩) :
    ∃ a v' bs', Q a ⟨v', bs ++ bs'⟩ ∧ Runs p s a v' bs' := by
  induction p generalizing s bs with
  | ret a =>
      refine ⟨a, s.view, [], ?_, Or.inl ⟨trivial, s, rfl, rfl, rfl⟩⟩
      rw [List.append_nil]
      exact h
  | act o next ih =>
      have hstep : ∀ {r : o.Res} {s' : Store}, exec o s = .ok (r, s') → s'.log = s.log →
          (next r).wp effects Q ⟨s'.view, bs⟩ →
          ∃ a v' bs', Q a ⟨v', bs ++ bs'⟩ ∧ Runs (.act o next) s a v' bs' := by
        intro r s' hexec hlog hnext
        obtain ⟨a, v', bs', hQ, hruns⟩ := ih r hnext
        exact ⟨a, v', bs', hQ, hruns.step hexec hlog⟩
      have hsame : ∀ b refcnt, (s.setBuf b (s.view b) refcnt).view = s.view := by
        intro b refcnt
        rw [view_setBuf, Function.update_eq_self]
      cases o with
      | bread b => exact hstep rfl log_setBuf (by rw [hsame]; exact h)
      | store b data => exact hstep rfl log_setBuf (by rw [view_setBuf]; exact h)
      | copyin b data ok => exact hstep rfl log_setBuf (by rw [view_setBuf]; exact h)
      | brelse b => exact hstep rfl log_setBuf (by rw [hsame]; exact h)
      | logWrite b =>
          by_cases hroom : ¬ s.log.Full ∧ 0 < s.log.outstanding
          · obtain ⟨s', hexec, hview, hlog⟩ := exec_logWrite (b := b) hroom
            have hnext : (next ()).wp effects Q ⟨s'.view, bs ++ [b]⟩ := by
              rw [hview]
              exact h
            obtain ⟨a, v', bs', hQ, hruns⟩ := ih () hnext
            refine ⟨a, v', b :: bs', ?_, Runs.logged hroom hexec hlog hruns⟩
            rw [← List.singleton_append, ← List.append_assoc]
            exact hQ
          · have hnext : (next ()).wp effects Q ⟨s.view, bs ++ [b]⟩ := h
            obtain ⟨a, v', bs', hQ, -⟩ := ih () hnext
            refine ⟨a, v', b :: bs', ?_, Runs.refused hroom⟩
            rw [← List.singleton_append, ← List.append_assoc]
            exact hQ
      | _ => exact h.elim

/-- Whatever the log does, `p` does no other thing than it performs. -/
theorem Performs.runs {p : FsProg α} {Q : α → (Nat → Block) → List Nat → Prop}
    (h : Performs p v Q) (hs : s.view = v) : ∃ a v' bs, Q a v' bs ∧ Runs p s a v' bs := by
  rw [← hs] at h
  obtain ⟨a, v', bs, ⟨bs', hlogged, hQ⟩, hruns⟩ := runs_of_wp (h [])
  obtain rfl : bs = bs' := hlogged
  exact ⟨a, v', bs, hQ, hruns⟩

end

end SyscallSched.Xv6.Fs.Code
