import SyscallSched.Xv6.Pipes.Fifo

/-!
# Copies that fail (`pipe.c`)

`pipewrite` puts a byte in the ring when `copyin` has fetched it, and `piperead` takes one
out before `copyout` delivers it.  So a `copyin` that fails loses nothing, and a `copyout`
that fails loses the byte.
-/

namespace SyscallSched.Xv6.Pipes

/-- The step of a reader that takes a byte and cannot deliver it. -/
def State.loses (s : State) : Action → Bool
  | .run p user =>
      match s.place p with
      | .copying n i => i < n && !decide s.empty && !user.copyout
      | _ => false
  | _ => false

structure Still (s s' : State) : Prop where
  data : s'.pipe.data = s.pipe.data
  nread : s'.pipe.nread = s.pipe.nread
  nwrite : s'.pipe.nwrite = s.pipe.nwrite
  accepted : accepted s'.history = Pipes.accepted s.history
  delivered : delivered s'.history = Pipes.delivered s.history

structure Moves (s s' : State) (into out lost : List UInt8) : Prop where
  bounded : s'.held ≤ pipeSize
  accepted : accepted s'.history = Pipes.accepted s.history ++ into
  delivered : delivered s'.history = Pipes.delivered s.history ++ out
  ring : s.contents ++ into = out ++ lost ++ s'.contents

section

variable {s s' s'' : State} {p i : Nat} {n : Int} {a : Action} {into out lost : List UInt8}

/-! ## Steps that move no byte -/

theorem Still.trans (h : Still s s') (h' : Still s' s'') : Still s s'' :=
  ⟨h'.data.trans h.data, h'.nread.trans h.nread, h'.nwrite.trans h.nwrite,
    h'.accepted.trans h.accepted, h'.delivered.trans h.delivered⟩

theorem Quiet.still (h : Quiet s s') : Still s s' :=
  ⟨h.data, h.nread, h.nwrite, by rw [h.history], by rw [h.history]⟩

theorem still_goto (place : Place) : Still s (s.goto p place) := ⟨rfl, rfl, rfl, rfl, rfl⟩

theorem still_record {e : Event} (hacc : accepted [e] = []) (hdel : delivered [e] = []) :
    Still s (s.record e) := by
  refine ⟨rfl, rfl, rfl, ?_, ?_⟩
  · change accepted (s.history ++ [e]) = _
    rw [accepted_append, hacc, List.append_nil]
  · change delivered (s.history ++ [e]) = _
    rw [delivered_append, hdel, List.append_nil]

theorem still_release (value : Int) : Still s (s.release p value) := by
  have hidle : Still s ({ s with lock := none }.goto p .idle) := ⟨rfl, rfl, rfl, rfl, rfl⟩
  exact hidle.trans (still_record rfl rfl)

theorem still_writeEnd : Still s (s.writeEnd p i) :=
  (quiet_wakeup .nread).still.trans (still_release _)

theorem still_readEnd : Still s (s.readEnd p i) :=
  (quiet_wakeup .nwrite).still.trans (still_release _)

theorem still_call (place : Place) : Still s (s.call p place) := by
  rw [State.call]
  split
  · exact (still_goto place).trans (still_record rfl rfl)
  · exact (quiet_lock s.lock).still

theorem still_acquire (place : Place) : Still s (s.acquire p place) := by
  rw [State.acquire]
  split
  · exact ⟨rfl, rfl, rfl, rfl, rfl⟩
  · exact (quiet_lock s.lock).still

theorem still_wait : Still s (s.wait p n) := by
  rw [State.wait]
  split
  · split
    · exact still_release _
    · exact ⟨rfl, rfl, rfl, rfl, rfl⟩
  · exact still_goto _

theorem still_close (writable : Bool) : Still s (s.close p writable) := by
  rw [State.close]
  split
  · exact (quiet_shut writable).still.trans (still_goto _)
  · exact (quiet_lock s.lock).still

theorem Still.moves (h : Still s s') (hb : s.held ≤ pipeSize) : Moves s s' [] [] [] := by
  have hheld : s'.held = s.held := by rw [State.held, State.held, h.nread, h.nwrite]
  constructor
  case bounded =>
      rw [hheld]
      exact hb
  case accepted => rw [h.accepted, List.append_nil]
  case delivered => rw [h.delivered, List.append_nil]
  case ring =>
      rw [State.contents, State.contents, h.data, h.nread, hheld]
      simp

/-! ## Steps that move one -/

theorem write_moves (hb : s.held ≤ pipeSize) (copyin : Option UInt8) :
    ∃ into, Moves s (s.write p n i copyin) into [] [] := by
  unfold State.write
  split
  case isFalse => exact ⟨[], still_writeEnd.moves hb⟩
  split
  case isTrue => exact ⟨[], (still_release _).moves hb⟩
  split
  case isTrue =>
      have hasleep : Still (s.wakeup p .nread) ((s.wakeup p .nread).sleep p (.writeAsleep n i)) :=
        ⟨rfl, rfl, rfl, rfl, rfl⟩
      exact ⟨[], ((quiet_wakeup .nread).still.trans hasleep).moves hb⟩
  case isFalse hroom =>
      cases copyin with
      | none => exact ⟨[], still_writeEnd.moves hb⟩
      | some ch =>
          have hlt : s.held < pipeSize :=
            lt_of_le_of_ne hb fun heq => hroom (State.full_iff.mpr heq)
          refine ⟨[ch], ?_, accepted_append _ _, ?_, ?_⟩
          · change (s.store ch).held ≤ pipeSize
            rw [State.held_store ch hlt]
            exact hlt
          · exact delivered_append _ _
          · change _ = [] ++ [] ++ (s.store ch).contents
            rw [State.contents_store ch hlt]
            rfl

theorem lost_moves (hb : s.held ≤ pipeSize) (hempty : ¬ s.empty) :
    Moves s (s.take.readEnd p i) [] [] [s.next] := by
  have hpos : 0 < s.held := Nat.pos_of_ne_zero fun heq => hempty (State.empty_iff.mpr heq)
  have hheld := State.held_take hpos hb
  have hbounded : s.take.held ≤ pipeSize := by omega
  have hend : Moves s.take (s.take.readEnd p i) [] [] [] := still_readEnd.moves hbounded
  refine ⟨hend.bounded, hend.accepted, hend.delivered, ?_⟩
  rw [List.append_nil, State.contents_take hpos hb, ← List.append_nil s.take.contents, hend.ring]
  rfl

theorem delivered_moves {place : Place} (hb : s.held ≤ pipeSize) (hempty : ¬ s.empty) :
    Moves s ((s.take.goto p place).record (.delivered p s.next)) [] [s.next] [] := by
  have hpos : 0 < s.held := Nat.pos_of_ne_zero fun heq => hempty (State.empty_iff.mpr heq)
  have hheld := State.held_take hpos hb
  refine ⟨?_, accepted_append _ _, delivered_append _ _, ?_⟩
  · change s.take.held ≤ pipeSize
    omega
  · rw [List.append_nil, State.contents_take hpos hb]
    rfl

theorem copy_moves (hb : s.held ≤ pipeSize) (copyout : Bool)
    (hkeeps : i < n → ¬ s.empty → copyout = true) :
    ∃ out, Moves s (s.copy p n i copyout) [] out [] := by
  unfold State.copy
  split
  case isFalse => exact ⟨[], still_readEnd.moves hb⟩
  case isTrue hmore =>
    split
    case isTrue => exact ⟨[], still_readEnd.moves hb⟩
    case isFalse hempty =>
      rw [if_pos (hkeeps hmore hempty)]
      exact ⟨[s.next], delivered_moves hb hempty⟩

/-- A step that loses a byte drops the oldest one of the ring. -/
theorem loses_moves (hb : s.held ≤ pipeSize) (h : s.loses a = true) :
    Moves s (s.step a) [] [] [s.next] := by
  cases a with
  | run p user =>
      cases hplace : s.place p with
      | copying n i =>
          simp only [State.loses, hplace, Bool.and_eq_true, decide_eq_true_eq,
            Bool.not_eq_true', decide_eq_false_iff_not] at h
          obtain ⟨⟨hmore, hempty⟩, hfails⟩ := h
          have hstep : s.step (.run p user) = s.take.readEnd p i := by
            rw [State.step, State.resume, hplace]
            dsimp only
            rw [State.copy, if_pos hmore, if_neg hempty, hfails]
            rfl
          rw [hstep]
          exact lost_moves hb hempty
      | _ => simp [State.loses, hplace] at h
  | _ => simp [State.loses] at h

/-- Any other step loses none. -/
theorem keeps_moves (hb : s.held ≤ pipeSize) (h : s.loses a = false) :
    ∃ into out, Moves s (s.step a) into out [] := by
  cases a with
  | pipewrite p n => exact ⟨[], [], (still_call _).moves hb⟩
  | piperead p n => exact ⟨[], [], (still_call _).moves hb⟩
  | pipeclose p writable => exact ⟨[], [], (still_call _).moves hb⟩
  | kill p => exact ⟨[], [], quiet_kill.still.moves hb⟩
  | run p user =>
      rw [State.step, State.resume]
      cases hplace : s.place p with
      | copying n i =>
          have hkeeps : i < n → ¬ s.empty → user.copyout = true := by
            simpa [State.loses, hplace] using h
          exact ⟨[], copy_moves hb user.copyout hkeeps⟩
      | writing n i =>
          obtain ⟨into, hmoves⟩ := write_moves (p := p) (n := n) (i := i) hb user.copyin
          exact ⟨into, [], hmoves⟩
      | idle => exact ⟨[], [], (quiet_lock s.lock).still.moves hb⟩
      | writeEnter n => exact ⟨[], [], (still_acquire _).moves hb⟩
      | writeAsleep n i => exact ⟨[], [], (quiet_lock s.lock).still.moves hb⟩
      | writeWoken n i => exact ⟨[], [], (still_acquire _).moves hb⟩
      | readEnter n => exact ⟨[], [], (still_acquire _).moves hb⟩
      | waiting n => exact ⟨[], [], still_wait.moves hb⟩
      | readAsleep n => exact ⟨[], [], (quiet_lock s.lock).still.moves hb⟩
      | readWoken n => exact ⟨[], [], (still_acquire _).moves hb⟩
      | closeEnter writable => exact ⟨[], [], (still_close _).moves hb⟩

theorem step_moves (hb : s.held ≤ pipeSize) (a : Action) :
    ∃ into out lost, Moves s (s.step a) into out lost ∧ lost.length = (s.loses a).toNat := by
  cases h : s.loses a with
  | true => exact ⟨[], [], [s.next], loses_moves hb h, rfl⟩
  | false =>
      obtain ⟨into, out, hmoves⟩ := keeps_moves hb h
      exact ⟨into, out, [], hmoves, rfl⟩

/-! ## Runs -/

def State.losses (s : State) : List Action → Nat
  | [] => 0
  | a :: actions => (s.loses a).toNat + (s.step a).losses actions

theorem losses_eq_zero_iff {actions : List Action} : s.losses actions = 0 ↔
    ∀ before a after, actions = before ++ a :: after → (s.run before).loses a = false := by
  induction actions generalizing s with
  | nil => simp [State.losses]
  | cons a actions ih =>
      rw [State.losses, Nat.add_eq_zero_iff, ih, Bool.toNat_eq_zero]
      constructor
      · rintro ⟨hfirst, hrest⟩ before b after heq
        cases before with
        | nil =>
            cases heq
            exact hfirst
        | cons c before =>
            cases heq
            exact hrest before b after rfl
      · intro h
        refine ⟨h [] a actions rfl, ?_⟩
        intro before b after heq
        exact h (a :: before) b after (by rw [heq]; rfl)

theorem run_length (hb : s.held ≤ pipeSize) (missing : Nat) (actions : List Action)
    (h : (accepted s.history).length =
      (delivered s.history).length + s.contents.length + missing) :
    (accepted (s.run actions).history).length = (delivered (s.run actions).history).length +
      (s.run actions).contents.length + (missing + s.losses actions) := by
  induction actions generalizing s missing with
  | nil => exact h
  | cons a actions ih =>
      obtain ⟨into, out, lost, hmoves, hlost⟩ := step_moves hb a
      have hring := congrArg List.length hmoves.ring
      have hstep : (accepted (s.step a).history).length = (delivered (s.step a).history).length +
          (s.step a).contents.length + (missing + lost.length) := by
        simp only [List.length_append] at hring
        rw [hmoves.accepted, hmoves.delivered, List.length_append, List.length_append]
        omega
      rw [State.run_cons, State.losses, ← hlost, ← Nat.add_assoc missing]
      exact ih hmoves.bounded _ hstep

theorem run_conserves (hb : s.held ≤ pipeSize) {actions : List Action}
    (hbytes : accepted s.history = delivered s.history ++ s.contents)
    (hnone : s.losses actions = 0) :
    accepted (s.run actions).history =
      delivered (s.run actions).history ++ (s.run actions).contents := by
  induction actions generalizing s with
  | nil => exact hbytes
  | cons a actions ih =>
      obtain ⟨into, out, lost, hmoves, hlost⟩ := step_moves hb a
      rw [State.losses, Nat.add_eq_zero_iff] at hnone
      rw [hnone.1] at hlost
      apply ih hmoves.bounded _ hnone.2
      calc accepted (s.step a).history = (delivered s.history ++ s.contents) ++ into := by
            rw [hmoves.accepted, hbytes]
        _ = delivered s.history ++ (s.contents ++ into) := List.append_assoc _ _ _
        _ = delivered s.history ++ (out ++ (s.step a).contents) := by
            rw [hmoves.ring, List.eq_nil_of_length_eq_zero hlost, List.append_nil]
        _ = delivered (s.step a).history ++ (s.step a).contents := by
            rw [hmoves.delivered, List.append_assoc]

/-- After a run, what was accepted is what was delivered and what is in the ring exactly if
no reader took a byte for which `copyout` failed; whenever one does, the oldest byte of
the ring is gone. -/
theorem bytes_conserved_iff (page : Nat → UInt8) (actions : List Action) :
    (accepted ((State.initial page).run actions).history =
        delivered ((State.initial page).run actions).history ++
          ((State.initial page).run actions).contents ↔
      ∀ before a after, actions = before ++ a :: after →
        ((State.initial page).run before).loses a = false) ∧
    ∀ (s : State) (a : Action), s.held ≤ pipeSize → s.loses a = true →
      accepted (s.step a).history = accepted s.history ∧
      delivered (s.step a).history = delivered s.history ∧
      s.contents = s.next :: (s.step a).contents := by
  have hinitial := Fifo.initial page
  constructor
  · rw [← losses_eq_zero_iff]
    constructor
    · intro hbytes
      have hlength := run_length hinitial.bounded 0 actions
        (by rw [hinitial.bytes, List.length_append, Nat.add_zero])
      rw [hbytes, List.length_append] at hlength
      omega
    · exact run_conserves hinitial.bounded hinitial.bytes
  · intro s a hb hloses
    have hmoves := loses_moves hb hloses
    refine ⟨?_, ?_, ?_⟩
    · rw [hmoves.accepted, List.append_nil]
    · rw [hmoves.delivered, List.append_nil]
    · rw [← List.append_nil s.contents, hmoves.ring]
      rfl

end

def readerReady : List Action :=
  [.pipewrite 1 2, .run 1 ⟨some 0, true⟩, .run 1 ⟨some 65, true⟩, .run 1 ⟨some 66, true⟩,
    .run 1 ⟨some 0, true⟩,
    .piperead 2 2, .run 2 ⟨some 0, true⟩, .run 2 ⟨some 0, true⟩]

theorem bytes_conserved_readerReady :
    accepted ((State.initial fun _ => 5).run (readerReady ++ [.run 2 ⟨none, true⟩])).history =
        delivered ((State.initial fun _ => 5).run (readerReady ++ [.run 2 ⟨none, true⟩])).history ++
          ((State.initial fun _ => 5).run (readerReady ++ [.run 2 ⟨none, true⟩])).contents ∧
      ((State.initial fun _ => 5).run readerReady).contents =
        65 ::
          (((State.initial fun _ => 5).run readerReady).step (.run 2 ⟨none, false⟩)).contents := by
  constructor
  · apply (bytes_conserved_iff (fun _ => 5) _).1.mpr
    rw [← losses_eq_zero_iff]
    decide
  · exact ((bytes_conserved_iff (fun _ => 5) []).2 _ (.run 2 ⟨none, false⟩) (by decide)
      (by decide)).2.2

/-- The buffer of the reader is not mapped. -/
def unmappedReader : List Action := readerReady ++ [.run 2 ⟨none, false⟩]

theorem unmappedReader_loses :
    ((State.initial fun _ => 5).run unmappedReader).history =
        [.called 1, .accepted 1 65, .accepted 1 66, .returned 1 2, .called 2, .returned 2 0] ∧
      ((State.initial fun _ => 5).run unmappedReader).contents = [66] ∧
      ¬ accepted ((State.initial fun _ => 5).run unmappedReader).history =
        delivered ((State.initial fun _ => 5).run unmappedReader).history ++
          ((State.initial fun _ => 5).run unmappedReader).contents := by
  refine ⟨rfl, rfl, ?_⟩
  decide

end SyscallSched.Xv6.Pipes
