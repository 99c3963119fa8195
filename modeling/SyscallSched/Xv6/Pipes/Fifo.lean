import SyscallSched.Foundation.History
import SyscallSched.Foundation.Ring
import SyscallSched.Xv6.Pipes.Model

/-!
# A pipe is a queue

What the writers put in is what the readers took out followed by what the ring
holds.  `nread` and `nwrite` wrap around at 2^32; as 512 divides 2^32 and the ring
holds at most 512 bytes, their difference is the number of bytes held and their
remainders are positions in the ring.
-/

namespace SyscallSched.Xv6.Pipes

open SyscallSched.Foundation

/-! ## What the calls did -/

def accepted (history : List Event) : List UInt8 :=
  history.filterMap fun
    | .accepted _ ch => some ch
    | _ => none

def delivered (history : List Event) : List UInt8 :=
  history.filterMap fun
    | .delivered _ ch => some ch
    | _ => none

/-- One more event, for the bytes that `p` has moved since it was called. -/
def countMoved (p : Nat) (count : Nat) : Event → Nat
  | .called q => if q = p then 0 else count
  | .accepted q _ => if q = p then count + 1 else count
  | .delivered q _ => if q = p then count + 1 else count
  | .returned _ _ => count

def moved (p : Nat) (history : List Event) : Nat := history.foldl (countMoved p) 0

/-- Every call that returned, returned the number of bytes it moved or -1. -/
def CountsReturned (history : List Event) : Prop :=
  ∀ before p value rest, history = before ++ Event.returned p value :: rest →
    value = -1 ∨ value = moved p before

theorem moved_append (p : Nat) (history : List Event) (e : Event) :
    moved p (history ++ [e]) = countMoved p (moved p history) e := by
  rw [moved, List.foldl_append]
  rfl

theorem accepted_append (history : List Event) (e : Event) :
    accepted (history ++ [e]) = accepted history ++ accepted [e] :=
  List.filterMap_append

theorem delivered_append (history : List Event) (e : Event) :
    delivered (history ++ [e]) = delivered history ++ delivered [e] :=
  List.filterMap_append

theorem CountsReturned.append {history : List Event} {e : Event} (h : CountsReturned history)
    (he : ∀ p value, e = .returned p value → value = -1 ∨ value = moved p history) :
    CountsReturned (history ++ [e]) := by
  intro before p value rest hcut
  rcases cut_append hcut with ⟨rfl, heq, -⟩ | ⟨front, hfront, -⟩
  · exact he p value heq
  · exact h before p value front hfront

/-! ## The ring -/

namespace State

def held (s : State) : Nat := (s.pipe.nwrite - s.pipe.nread).toNat

/-- The bytes that the ring holds, oldest first. -/
def contents (s : State) : List UInt8 :=
  ringContents pipeSize s.pipe.data s.pipe.nread.toNat s.held

variable {s : State}

theorem held_eq : s.held =
    (2 ^ 32 - s.pipe.nread.toNat + s.pipe.nwrite.toNat) % 2 ^ 32 :=
  UInt32.toNat_sub s.pipe.nwrite s.pipe.nread

theorem full_iff : s.full ↔ s.held = pipeSize := by
  have hr := s.pipe.nread.toNat_lt
  have hw := s.pipe.nwrite.toNat_lt
  have hadd : (s.pipe.nread + UInt32.ofNat pipeSize).toNat =
      (s.pipe.nread.toNat + 512) % 2 ^ 32 := UInt32.toNat_add _ _
  rw [full, ← UInt32.toNat_inj, hadd, held_eq, pipeSize]
  omega

theorem empty_iff : s.empty ↔ s.held = 0 := by
  have hr := s.pipe.nread.toNat_lt
  have hw := s.pipe.nwrite.toNat_lt
  rw [empty, ← UInt32.toNat_inj, held_eq]
  omega

theorem nwrite_mod (s : State) :
    s.pipe.nwrite.toNat % pipeSize = (s.pipe.nread.toNat + s.held) % pipeSize := by
  have hr := s.pipe.nread.toNat_lt
  have hw := s.pipe.nwrite.toNat_lt
  rw [held_eq, pipeSize]
  omega

theorem held_store (ch : UInt8) (h : s.held < pipeSize) : (s.store ch).held = s.held + 1 := by
  have hr := s.pipe.nread.toNat_lt
  have hw := s.pipe.nwrite.toNat_lt
  have hadd : (s.pipe.nwrite + 1).toNat = (s.pipe.nwrite.toNat + 1) % 2 ^ 32 :=
    UInt32.toNat_add _ _
  rw [held_eq, pipeSize] at h
  rw [held_eq, held_eq]
  simp only [store, hadd]
  omega

theorem held_take (hpos : 0 < s.held) (h : s.held ≤ pipeSize) :
    s.take.held + 1 = s.held := by
  have hr := s.pipe.nread.toNat_lt
  have hw := s.pipe.nwrite.toNat_lt
  have hadd : (s.pipe.nread + 1).toNat = (s.pipe.nread.toNat + 1) % 2 ^ 32 :=
    UInt32.toNat_add _ _
  rw [held_eq] at hpos h ⊢
  rw [pipeSize] at h
  rw [held_eq]
  simp only [take, hadd]
  omega

theorem contents_store (ch : UInt8) (h : s.held < pipeSize) :
    (s.store ch).contents = s.contents ++ [ch] := by
  unfold contents
  rw [held_store ch h]
  simp only [store]
  rw [nwrite_mod]
  exact ringContents_push _ ch h

theorem contents_take (hpos : 0 < s.held) (h : s.held ≤ pipeSize) :
    s.contents = s.next :: s.take.contents := by
  have hadd : (s.pipe.nread + 1).toNat = (s.pipe.nread.toNat + 1) % 2 ^ 32 :=
    UInt32.toNat_add _ _
  have hmod : (s.pipe.nread.toNat + 1) % pipeSize = s.take.pipe.nread.toNat % pipeSize := by
    simp only [take, hadd, pipeSize]
    omega
  unfold contents
  rw [← held_take hpos h, ringContents_pop, ringContents_congr _ hmod]
  rfl

end State

/-! ## The invariant -/

def Place.counter : Place → Option Nat
  | .idle => none
  | .writeEnter _ => some 0
  | .writing _ i => some i
  | .writeAsleep _ i => some i
  | .writeWoken _ i => some i
  | .readEnter _ => some 0
  | .waiting _ => some 0
  | .readAsleep _ => some 0
  | .readWoken _ => some 0
  | .copying _ i => some i
  | .closeEnter _ => none

structure Fifo (s : State) : Prop where
  bounded : s.held ≤ pipeSize
  bytes : accepted s.history = delivered s.history ++ s.contents
  counts : ∀ p i, (s.place p).counter = some i → moved p s.history = i
  returns : CountsReturned s.history

structure Quiet (s s' : State) : Prop where
  data : s'.pipe.data = s.pipe.data
  nread : s'.pipe.nread = s.pipe.nread
  nwrite : s'.pipe.nwrite = s.pipe.nwrite
  history : s'.history = s.history
  counter : ∀ p i, (s'.place p).counter = some i → (s.place p).counter = some i

theorem Quiet.trans {s s' s'' : State} (h : Quiet s s') (h' : Quiet s' s'') : Quiet s s'' :=
  ⟨h'.data.trans h.data, h'.nread.trans h.nread, h'.nwrite.trans h.nwrite,
    h'.history.trans h.history, fun p i hi => h.counter p i (h'.counter p i hi)⟩

theorem Fifo.quiet {s s' : State} (h : Fifo s) (hq : Quiet s s') : Fifo s' := by
  have hheld : s'.held = s.held := by
    rw [State.held, State.held, hq.nread, hq.nwrite]
  have hcontents : s'.contents = s.contents := by
    rw [State.contents, State.contents, hq.data, hq.nread, hheld]
  constructor
  case bounded =>
      rw [hheld]
      exact h.bounded
  case bytes =>
      rw [hq.history, hcontents]
      exact h.bytes
  case counts =>
      intro p i hi
      rw [hq.history]
      exact h.counts p i (hq.counter p i hi)
  case returns =>
      rw [hq.history]
      exact h.returns

theorem Place.counter_woken (place : Place) : place.woken.counter = place.counter := by
  cases place <;> rfl

section

variable {s : State} {p : Nat} {place : Place}

theorem quiet_goto (h : place.counter = (s.place p).counter) : Quiet s (s.goto p place) := by
  constructor
  case counter =>
      intro q i hi
      by_cases hq : q = p
      · subst hq
        rw [State.goto_place_self, h] at hi
        exact hi
      · rw [State.goto_place_ne s place hq] at hi
        exact hi
  all_goals rfl

theorem quiet_lock (lock : Option Nat) : Quiet s { s with lock } :=
  ⟨rfl, rfl, rfl, rfl, fun _ _ hi => hi⟩

theorem quiet_acquire (h : place.counter = (s.place p).counter) :
    Quiet s (s.acquire p place) := by
  rw [State.acquire]
  split
  · exact (quiet_lock (some p)).trans (quiet_goto h)
  · exact quiet_lock s.lock

theorem quiet_sleep (h : place.counter = (s.place p).counter) : Quiet s (s.sleep p place) :=
  (quiet_lock none).trans (quiet_goto h)

theorem quiet_wakeup (chan : Chan) : Quiet s (s.wakeup p chan) := by
  constructor
  case counter =>
      intro q i hi
      rw [State.wakeup] at hi
      dsimp only at hi
      split at hi
      · rw [Place.counter_woken] at hi
        exact hi
      · exact hi
  all_goals rfl

theorem quiet_kill : Quiet s (s.kill p) := by
  have hkilled : Quiet s { s with killed := Function.update s.killed p true } :=
    ⟨rfl, rfl, rfl, rfl, fun _ _ hi => hi⟩
  exact hkilled.trans (quiet_goto (Place.counter_woken _))

theorem quiet_shut (writable : Bool) : Quiet s (s.shut p writable) := by
  rw [State.shut]
  split
  · have hclosed : Quiet s { s with pipe := { s.pipe with writeopen := false } } :=
      ⟨rfl, rfl, rfl, rfl, fun _ _ hi => hi⟩
    exact hclosed.trans (quiet_wakeup .nread)
  · have hclosed : Quiet s { s with pipe := { s.pipe with readopen := false } } :=
      ⟨rfl, rfl, rfl, rfl, fun _ _ hi => hi⟩
    exact hclosed.trans (quiet_wakeup .nwrite)

end

/-! ## One step -/

section

variable {s : State} {p i : Nat} {n : Int}

theorem Fifo.record {e : Event} (h : Fifo s) (hacc : accepted [e] = []) (hdel : delivered [e] = [])
    (hcounts : ∀ q i, (s.place q).counter = some i → countMoved q (moved q s.history) e = i)
    (hreturn : ∀ q value, e = .returned q value →
      value = -1 ∨ value = moved q s.history) : Fifo (s.record e) := by
  constructor
  case bounded => exact h.bounded
  case bytes =>
      change accepted (s.history ++ [e]) = delivered (s.history ++ [e]) ++ s.contents
      rw [accepted_append, delivered_append, hacc, hdel, List.append_nil, List.append_nil]
      exact h.bytes
  case counts =>
      intro q i hi
      change moved q (s.history ++ [e]) = i
      rw [moved_append]
      exact hcounts q i hi
  case returns => exact h.returns.append hreturn

theorem Fifo.release {value : Int} (h : Fifo s)
    (hvalue : value = -1 ∨ value = moved p s.history) : Fifo (s.release p value) := by
  have hidle : Fifo ({ s with lock := none }.goto p .idle) := by
    apply h.quiet ((quiet_lock none).trans ?_)
    constructor
    case counter =>
        intro q i hi
        by_cases hq : q = p
        · subst hq
          rw [State.goto_place_self] at hi
          cases hi
        · rw [State.goto_place_ne _ _ hq] at hi
          exact hi
    all_goals rfl
  apply hidle.record (e := .returned p value) rfl rfl hidle.counts
  intro q v heq
  injection heq with hq hv
  subst hq
  subst hv
  exact hvalue

theorem Fifo.call {place : Place} (h : Fifo s)
    (hplace : ∀ i, place.counter = some i → i = 0) : Fifo (s.call p place) := by
  rw [State.call]
  split
  case isFalse => exact h
  case isTrue hidle =>
      have hbytes : accepted (s.history ++ [.called p]) =
          delivered (s.history ++ [.called p]) ++ s.contents := by
        rw [accepted_append, delivered_append]
        simpa [accepted, delivered] using h.bytes
      constructor
      case bounded => exact h.bounded
      case bytes => exact hbytes
      case counts =>
          intro q i hi
          change ((s.goto p place).place q).counter = some i at hi
          change moved q (s.history ++ [.called p]) = i
          rw [moved_append, countMoved]
          by_cases hq : q = p
          · subst hq
            rw [State.goto_place_self] at hi
            rw [if_pos rfl, hplace i hi]
          · rw [State.goto_place_ne s place hq] at hi
            rw [if_neg (Ne.symm hq)]
            exact h.counts q i hi
      case returns => exact h.returns.append fun _ _ heq => (nomatch heq)

theorem Fifo.count_byte {s' : State} {e : Event} {place : Place} (h : Fifo s)
    (hi : (s.place p).counter = some i) (hplace : place.counter = some (i + 1))
    (hhistory : s'.history = s.history ++ [e])
    (hplaces : s'.place = Function.update s.place p place)
    (hbyte : ∀ q count, countMoved q count e = if p = q then count + 1 else count) :
    ∀ q j, (s'.place q).counter = some j → moved q s'.history = j := by
  intro q j hj
  rw [hplaces] at hj
  rw [hhistory, moved_append, hbyte]
  by_cases hq : q = p
  · subst hq
    rw [Function.update_self, hplace] at hj
    injection hj with hj
    rw [if_pos rfl, h.counts q i hi, hj]
  · rw [Function.update_of_ne hq] at hj
    rw [if_neg (Ne.symm hq)]
    exact h.counts q j hj

theorem Fifo.write {copyin : Option UInt8} (h : Fifo s) (hplace : s.place p = .writing n i) :
    Fifo (s.write p n i copyin) := by
  have hcount : (s.place p).counter = some i := by
    rw [hplace]
    rfl
  have hend : Fifo (s.writeEnd p i) := by
    apply (h.quiet (quiet_wakeup .nread)).release
    exact Or.inr (congrArg Int.ofNat (h.counts p i hcount).symm)
  unfold State.write
  split
  case isFalse => exact hend
  split
  case isTrue => exact h.release (Or.inl rfl)
  split
  case isTrue =>
      have hwoken := quiet_wakeup (s := s) (p := p) .nread
      apply h.quiet (hwoken.trans (quiet_sleep ?_))
      simp [State.wakeup, hplace, Place.counter]
  case isFalse hroom =>
      cases copyin with
      | none => exact hend
      | some ch =>
          have hlt : s.held < pipeSize :=
            lt_of_le_of_ne h.bounded fun heq => hroom (State.full_iff.mpr heq)
          constructor
          case bounded =>
              change (s.store ch).held ≤ pipeSize
              rw [State.held_store ch hlt]
              exact hlt
          case bytes =>
              change accepted (s.history ++ [.accepted p ch]) =
                delivered (s.history ++ [.accepted p ch]) ++ (s.store ch).contents
              rw [accepted_append, delivered_append, State.contents_store ch hlt, h.bytes]
              simp [accepted, delivered]
          case counts => exact h.count_byte hcount rfl rfl rfl fun _ _ => rfl
          case returns => exact h.returns.append fun _ _ heq => (nomatch heq)

theorem Fifo.wait (h : Fifo s) (hplace : s.place p = .waiting n) : Fifo (s.wait p n) := by
  unfold State.wait
  split
  · split
    · exact h.release (Or.inl rfl)
    · apply h.quiet (quiet_sleep _)
      rw [hplace]
      rfl
  · apply h.quiet (quiet_goto _)
    rw [hplace]
    rfl

theorem Fifo.copy (h : Fifo s) (hplace : s.place p = .copying n i) :
    Fifo (s.copy p n i true) := by
  have hcount : (s.place p).counter = some i := by
    rw [hplace]
    rfl
  have hend : Fifo (s.readEnd p i) := by
    apply (h.quiet (quiet_wakeup .nwrite)).release
    exact Or.inr (congrArg Int.ofNat (h.counts p i hcount).symm)
  unfold State.copy
  split
  case isFalse => exact hend
  split
  case isTrue => exact hend
  case isFalse hne =>
      have hpos : 0 < s.held := Nat.pos_of_ne_zero fun heq => hne (State.empty_iff.mpr heq)
      rw [if_pos rfl]
      constructor
      case bounded =>
          have hheld := State.held_take hpos h.bounded
          have hbounded := h.bounded
          change s.take.held ≤ pipeSize
          omega
      case bytes =>
          change accepted (s.history ++ [.delivered p s.next]) =
            delivered (s.history ++ [.delivered p s.next]) ++ s.take.contents
          rw [accepted_append, delivered_append, h.bytes, State.contents_take hpos h.bounded]
          simp [accepted, delivered]
      case counts => exact h.count_byte hcount rfl rfl rfl fun _ _ => rfl
      case returns => exact h.returns.append fun _ _ heq => (nomatch heq)

theorem Fifo.close {writable : Bool} (h : Fifo s) (hplace : s.place p = .closeEnter writable) :
    Fifo (s.close p writable) := by
  unfold State.close
  split
  · apply h.quiet ((quiet_shut writable).trans (quiet_goto _))
    cases writable <;> simp [State.shut, State.wakeup, hplace, Place.counter]
  · exact h

theorem Fifo.resume {user : UserCopy} (h : Fifo s) (hcopy : user.copyout = true) :
    Fifo (s.resume p user) := by
  unfold State.resume
  split
  case h_1 => exact h
  case h_2 n hplace => exact h.quiet (quiet_acquire (by rw [hplace]; rfl))
  case h_3 n i hplace => exact h.write hplace
  case h_4 => exact h
  case h_5 n i hplace => exact h.quiet (quiet_acquire (by rw [hplace]; rfl))
  case h_6 n hplace => exact h.quiet (quiet_acquire (by rw [hplace]; rfl))
  case h_7 n hplace => exact h.wait hplace
  case h_8 => exact h
  case h_9 n hplace => exact h.quiet (quiet_acquire (by rw [hplace]; rfl))
  case h_10 n i hplace =>
      rw [hcopy]
      exact h.copy hplace
  case h_11 writable hplace => exact h.close hplace

def Action.CopiesSucceed : Action → Prop
  | .run _ user => user.copyin.isSome ∧ user.copyout = true
  | _ => True

theorem Fifo.step {a : Action} (h : Fifo s) (ha : a.CopiesSucceed) : Fifo (s.step a) := by
  cases a with
  | pipewrite p n => exact h.call fun i hi => (Option.some.inj hi).symm
  | piperead p n => exact h.call fun i hi => (Option.some.inj hi).symm
  | pipeclose p writable => exact h.call fun i hi => (nomatch hi)
  | kill p => exact h.quiet quiet_kill
  | run p user => exact h.resume ha.2

end

/-! ## Whole runs -/

theorem Fifo.initial (page : Nat → UInt8) : Fifo (State.initial page) := by
  have hheld : (State.initial page).held = 0 := State.empty_iff.mp rfl
  constructor
  case bounded =>
      rw [hheld]
      exact Nat.zero_le pipeSize
  case bytes =>
      rw [State.contents, hheld]
      rfl
  case counts => exact fun p i hi => (nomatch hi)
  case returns =>
      intro before p value rest heq
      exact absurd heq.symm (List.append_ne_nil_of_right_ne_nil _ (List.cons_ne_nil _ _))

theorem Fifo.run {s : State} {actions : List Action} (h : Fifo s)
    (hcopies : ∀ a ∈ actions, a.CopiesSucceed) : Fifo (s.run actions) := by
  induction actions generalizing s with
  | nil => exact h
  | cons a actions ih =>
      rw [State.run, List.foldl_cons]
      apply ih
      · exact h.step (hcopies a List.mem_cons_self)
      · exact fun b hb => hcopies b (List.mem_cons_of_mem a hb)

/-- Over any calls and in any order of steps a pipe is a queue of at most `PIPESIZE`
bytes, and calls count what they move. -/
theorem pipe_fifo (page : Nat → UInt8) (actions : List Action)
    (hcopies : ∀ a ∈ actions, a.CopiesSucceed) :
    (((State.initial page).run actions).pipe.nwrite -
        ((State.initial page).run actions).pipe.nread).toNat ≤ pipeSize ∧
      accepted ((State.initial page).run actions).history =
        delivered ((State.initial page).run actions).history ++
          ((State.initial page).run actions).contents ∧
      CountsReturned ((State.initial page).run actions).history := by
  have h := (Fifo.initial page).run hcopies
  exact ⟨h.bounded, h.bytes, h.returns⟩

/-- A reader that finds the pipe empty and a writer of two bytes that wakes it up. -/
def readerFirst : List Action :=
  [.piperead 2 3, .run 2 ⟨some 0, true⟩, .run 2 ⟨some 0, true⟩,
    .pipewrite 1 2, .run 1 ⟨some 0, true⟩, .run 1 ⟨some 65, true⟩, .run 1 ⟨some 66, true⟩,
    .run 1 ⟨some 0, true⟩,
    .run 2 ⟨some 0, true⟩, .run 2 ⟨some 0, true⟩, .run 2 ⟨some 0, true⟩,
    .run 2 ⟨some 0, true⟩, .run 2 ⟨some 0, true⟩]

theorem pipe_fifo_readerFirst :
    ((State.initial fun _ => 5).run readerFirst).history =
        [.called 2, .called 1, .accepted 1 65, .accepted 1 66, .returned 1 2,
          .delivered 2 65, .delivered 2 66, .returned 2 2] ∧
      accepted ((State.initial fun _ => 5).run readerFirst).history =
        delivered ((State.initial fun _ => 5).run readerFirst).history ++
          ((State.initial fun _ => 5).run readerFirst).contents := by
  refine ⟨rfl, (pipe_fifo (fun _ => 5) readerFirst ?_).2.1⟩
  simp [readerFirst, Action.CopiesSucceed]

end SyscallSched.Xv6.Pipes
