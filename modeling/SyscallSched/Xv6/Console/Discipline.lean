import SyscallSched.Foundation.History
import SyscallSched.Xv6.Console.Model

/-!
# The line discipline of the console

The three counters wrap around at 2^32; as 128 divides 2^32, their differences are
numbers of bytes and their remainders positions in the buffer.  Editing moves `cons.e`
back to `cons.w` at most, storing stops when the buffer is full, and a full buffer is
committed, so a line that is too long can be read as well.  What the readers took out,
end-of-file marks included, followed by what they can still take is what was committed.
-/

namespace SyscallSched.Xv6.Console

open SyscallSched.Foundation

/-! ## What the calls did -/

def committed (history : List Event) : List UInt8 :=
  history.flatMap fun
    | .committed bytes => bytes
    | _ => []

def delivered (history : List Event) : List UInt8 :=
  history.flatMap fun
    | .delivered _ ch => [ch]
    | _ => []

/-- One more event, for the bytes delivered to `p` since it was called. -/
def countTaken (p : Nat) (count : Nat) : Event → Nat
  | .called q => if q = p then 0 else count
  | .delivered q _ => if q = p then count + 1 else count
  | _ => count

def taken (p : Nat) (history : List Event) : Nat := history.foldl (countTaken p) 0

/-- Every call that returned, returned the number of bytes it was given, or -1 when the
process had been killed. -/
def CountsReturned (history : List Event) : Prop :=
  ∀ before p value rest, history = before ++ Event.returned p value :: rest →
    value = -1 ∨ value = taken p before

theorem taken_append (p : Nat) (history : List Event) (e : Event) :
    taken p (history ++ [e]) = countTaken p (taken p history) e := by
  rw [taken, List.foldl_append]
  rfl

theorem committed_append (history : List Event) (e : Event) :
    committed (history ++ [e]) = committed history ++ committed [e] :=
  List.flatMap_append

theorem delivered_append (history : List Event) (e : Event) :
    delivered (history ++ [e]) = delivered history ++ delivered [e] :=
  List.flatMap_append

theorem CountsReturned.append {history : List Event} {e : Event} (h : CountsReturned history)
    (he : ∀ p value, e = .returned p value → value = -1 ∨ value = taken p history) :
    CountsReturned (history ++ [e]) := by
  intro before p value rest hcut
  rcases cut_append hcut with ⟨rfl, heq, -⟩ | ⟨front, hfront, -⟩
  · exact he p value heq
  · exact h before p value front hfront

/-! ## The buffer -/

namespace Cons

def ready (c : Cons) : Nat := (c.w - c.r).toNat

def pending (c : Cons) : Nat := (c.e - c.w).toNat

structure Bounded (c : Cons) : Prop where
  room : c.ready + c.pending ≤ inputBufSize

variable {c : Cons}

theorem ready_eq : c.ready = (2 ^ 32 - c.r.toNat + c.w.toNat) % 2 ^ 32 :=
  UInt32.toNat_sub c.w c.r

theorem pending_eq : c.pending = (2 ^ 32 - c.w.toNat + c.e.toNat) % 2 ^ 32 :=
  UInt32.toNat_sub c.e c.w

/-- `cons.e - cons.r` -/
theorem held_eq (h : c.Bounded) : (c.e - c.r).toNat = c.ready + c.pending := by
  have hr := c.r.toNat_lt
  have hw := c.w.toNat_lt
  have he := c.e.toNat_lt
  have hroom := h.room
  rw [ready_eq, pending_eq, inputBufSize] at hroom
  rw [ready_eq, pending_eq, UInt32.toNat_sub]
  omega

theorem ready_pos_iff : c.r ≠ c.w ↔ 0 < c.ready := by
  have hr := c.r.toNat_lt
  have hw := c.w.toNat_lt
  rw [Ne, ← UInt32.toNat_inj, ready_eq]
  omega

theorem pending_pos_iff : c.e ≠ c.w ↔ 0 < c.pending := by
  have hw := c.w.toNat_lt
  have he := c.e.toNat_lt
  rw [Ne, ← UInt32.toNat_inj, pending_eq]
  omega

theorem w_mod (c : Cons) : c.w.toNat % inputBufSize = (c.r.toNat + c.ready) % inputBufSize := by
  have hr := c.r.toNat_lt
  have hw := c.w.toNat_lt
  rw [ready_eq, inputBufSize]
  omega

theorem e_mod (c : Cons) :
    c.e.toNat % inputBufSize = (c.r.toNat + (c.ready + c.pending)) % inputBufSize := by
  have hr := c.r.toNat_lt
  have hw := c.w.toNat_lt
  have he := c.e.toNat_lt
  rw [ready_eq, pending_eq, inputBufSize]
  omega

theorem unread_eq (c : Cons) :
    c.unread = ringContents inputBufSize c.buf c.r.toNat c.ready := rfl

theorem unread_append_edited (c : Cons) :
    c.unread ++ c.edited =
      ringContents inputBufSize c.buf c.r.toNat (c.ready + c.pending) := by
  rw [ringContents_append, unread_eq]
  congr 1
  exact ringContents_congr _ c.w_mod

/-! ### Editing -/

/-- Only `cons.e` moves, and not past `cons.w`. -/
structure Edits (c c' : Cons) : Prop where
  buf : c'.buf = c.buf
  r : c'.r = c.r
  w : c'.w = c.w
  pending : c'.pending ≤ c.pending

theorem edits_erase (hpos : 0 < c.pending) : Edits c { c with e := c.e - 1 } := by
  have hw := c.w.toNat_lt
  have he := c.e.toNat_lt
  constructor
  case pending =>
    rw [pending_eq] at hpos ⊢
    rw [pending_eq]
    simp only [UInt32.toNat_sub]
    have hone : (1 : UInt32).toNat = 1 := rfl
    rw [hone]
    omega
  all_goals rfl

theorem edits_refl (c : Cons) : Edits c c := ⟨rfl, rfl, rfl, Nat.le_refl _⟩

theorem Edits.trans {c' c'' : Cons} (h : Edits c c') (h' : Edits c' c'') : Edits c c'' :=
  ⟨h'.buf.trans h.buf, h'.r.trans h.r, h'.w.trans h.w, h'.pending.trans h.pending⟩

theorem edits_backspace (c : Cons) : Edits c c.backspace := by
  unfold backspace
  split
  case isTrue hne => exact edits_erase (pending_pos_iff.mp hne)
  case isFalse => exact edits_refl c

theorem edits_killLine (fuel : Nat) (c : Cons) : Edits c (c.killLine fuel) := by
  induction fuel generalizing c with
  | zero => exact edits_refl c
  | succ fuel ih =>
      rw [killLine]
      split
      case isTrue hne => exact (edits_erase (pending_pos_iff.mp hne.1)).trans (ih _)
      case isFalse => exact edits_refl c

theorem Edits.ready_eq {c' : Cons} (h : Edits c c') : c'.ready = c.ready := by
  unfold ready
  rw [h.r, h.w]

theorem Edits.unread_eq {c' : Cons} (h : Edits c c') : c'.unread = c.unread := by
  unfold unread
  rw [h.buf, h.r, h.w]

theorem Edits.bounded {c' : Cons} (h : Edits c c') (hc : c.Bounded) : c'.Bounded := by
  have hroom := hc.room
  have hle := h.pending
  constructor
  rw [h.ready_eq]
  omega

/-! ### Storing and committing -/

theorem pending_store (ch : UInt8) (h : c.ready + c.pending < inputBufSize) :
    (c.store ch).pending = c.pending + 1 := by
  have hw := c.w.toNat_lt
  have he := c.e.toNat_lt
  have hadd : (c.e + 1).toNat = (c.e.toNat + 1) % 2 ^ 32 := UInt32.toNat_add _ _
  rw [pending_eq, inputBufSize] at h
  rw [pending_eq, pending_eq]
  simp only [store, hadd]
  omega

theorem unread_store (ch : UInt8) (h : c.ready + c.pending < inputBufSize) :
    (c.store ch).unread = c.unread := by
  rw [unread_eq, unread_eq]
  simp only [store]
  rw [e_mod]
  exact ringContents_store _ ch (Nat.le_add_right _ _) h

theorem bounded_store (ch : UInt8) (h : c.ready + c.pending < inputBufSize) :
    (c.store ch).Bounded := by
  constructor
  rw [pending_store ch h]
  exact h

theorem unread_commit (c : Cons) (h : c.Bounded) :
    ({ c with w := c.e } : Cons).unread = c.unread ++ c.edited := by
  rw [unread_append_edited, ← held_eq h]
  rfl

theorem bounded_commit (h : c.Bounded) : ({ c with w := c.e } : Cons).Bounded := by
  have hready : ({ c with w := c.e } : Cons).ready = c.ready + c.pending := held_eq h
  have hpending : ({ c with w := c.e } : Cons).pending = 0 := by
    simp [pending]
  constructor
  rw [hready, hpending]
  exact h.room

/-! ### Taking -/

theorem ready_take (hpos : 0 < c.ready) (h : c.Bounded) :
    ({ c with r := c.r + 1 } : Cons).ready + 1 = c.ready := by
  have hr := c.r.toNat_lt
  have hw := c.w.toNat_lt
  have hroom := h.room
  have hadd : (c.r + 1).toNat = (c.r.toNat + 1) % 2 ^ 32 := UInt32.toNat_add _ _
  rw [ready_eq, inputBufSize] at hroom
  rw [ready_eq] at hpos ⊢
  rw [ready_eq]
  simp only [hadd]
  omega

theorem bounded_take (hpos : 0 < c.ready) (h : c.Bounded) :
    ({ c with r := c.r + 1 } : Cons).Bounded := by
  have hready := ready_take hpos h
  have hpending : ({ c with r := c.r + 1 } : Cons).pending = c.pending := rfl
  have hroom := h.room
  constructor
  rw [hpending]
  omega

theorem unread_take (hpos : 0 < c.ready) (h : c.Bounded) :
    c.unread = c.cell c.r :: ({ c with r := c.r + 1 } : Cons).unread := by
  have hadd : (c.r + 1).toNat = (c.r.toNat + 1) % 2 ^ 32 := UInt32.toNat_add _ _
  have hmod : (c.r.toNat + 1) % inputBufSize = (c.r + 1).toNat % inputBufSize := by
    rw [hadd, inputBufSize]
    omega
  rw [unread_eq, ← ready_take hpos h, ringContents_pop, ringContents_congr _ hmod]
  rfl

end Cons

/-! ## The invariant -/

/-- How many bytes the call has been given by its own count. -/
def Place.counter : Place → Option Int
  | .idle => none
  | .enter _ => some 0
  | .reading target n => some (target - n)
  | .asleep target n => some (target - n)
  | .woken target n => some (target - n)

structure Discipline (s : State) : Prop where
  bounded : s.cons.Bounded
  bytes : ∃ consumed, committed s.history = consumed ++ s.cons.unread ∧
    delivered s.history = consumed.filter fun ch => ch ≠ ctrlD
  counts : ∀ p i, (s.place p).counter = some i → taken p s.history = i
  returns : CountsReturned s.history

/-- The buffer and the history stay, and no call counts anew. -/
structure Quiet (s s' : State) : Prop where
  cons : s'.cons = s.cons
  history : s'.history = s.history
  counter : ∀ p i, (s'.place p).counter = some i → (s.place p).counter = some i

theorem Quiet.trans {s s' s'' : State} (h : Quiet s s') (h' : Quiet s' s'') : Quiet s s'' :=
  ⟨h'.cons.trans h.cons, h'.history.trans h.history,
    fun p i hi => h.counter p i (h'.counter p i hi)⟩

theorem Discipline.quiet {s s' : State} (h : Discipline s) (hq : Quiet s s') : Discipline s' := by
  constructor
  case bounded =>
    rw [hq.cons]
    exact h.bounded
  case bytes =>
    rw [hq.cons, hq.history]
    exact h.bytes
  case counts =>
    intro p i hi
    rw [hq.history]
    exact h.counts p i (hq.counter p i hi)
  case returns =>
    rw [hq.history]
    exact h.returns

theorem Place.counter_wake (place : Place) : place.wake.counter = place.counter := by
  cases place <;> rfl

section

variable {s : State} {p : Nat} {place : Place}

theorem quiet_goto (h : ∀ i, place.counter = some i → (s.place p).counter = some i) :
    Quiet s (s.goto p place) := by
  constructor
  case cons => rfl
  case history => rfl
  case counter =>
    intro q i hi
    simp only [State.goto, Function.update_apply] at hi
    split at hi
    case isTrue hq =>
      rw [hq]
      exact h i hi
    case isFalse => exact hi

theorem quiet_lock (lock : Option Nat) : Quiet s { s with lock } :=
  ⟨rfl, rfl, fun _ _ hi => hi⟩

theorem quiet_acquire (h : place.counter = (s.place p).counter) :
    Quiet s (s.acquire p place) := by
  rw [State.acquire]
  split
  · exact (quiet_lock (some p)).trans (quiet_goto fun _ hi => h ▸ hi)
  · exact quiet_lock s.lock

theorem quiet_sleep (h : place.counter = (s.place p).counter) : Quiet s (s.sleep p place) :=
  (quiet_lock none).trans (quiet_goto fun _ hi => h ▸ hi)

theorem quiet_wakeup : Quiet s s.wakeup := by
  constructor
  case cons => rfl
  case history => rfl
  case counter =>
    intro q i hi
    simp only [State.wakeup, Place.counter_wake] at hi
    exact hi

theorem quiet_kill : Quiet s (s.kill p) := by
  have hkilled : Quiet s { s with killed := Function.update s.killed p true } :=
    ⟨rfl, rfl, fun _ _ hi => hi⟩
  apply hkilled.trans (quiet_goto _)
  intro i hi
  rw [Place.counter_wake] at hi
  exact hi

end

/-! ## Readers -/

section

variable {s : State} {p : Nat} {target n : Int}

theorem Discipline.record {e : Event} (h : Discipline s) (hcommitted : committed [e] = [])
    (hdelivered : delivered [e] = [])
    (hcounts : ∀ q i, (s.place q).counter = some i → (countTaken q (taken q s.history) e : Int) = i)
    (hreturn : ∀ q value, e = .returned q value → value = -1 ∨ value = taken q s.history) :
    Discipline (s.record e) := by
  obtain ⟨consumed, hin, hout⟩ := h.bytes
  constructor
  case bounded => exact h.bounded
  case bytes =>
    refine ⟨consumed, ?_, ?_⟩
    · simp only [State.record]
      rw [committed_append, hcommitted, List.append_nil]
      exact hin
    · simp only [State.record]
      rw [delivered_append, hdelivered, List.append_nil]
      exact hout
  case counts =>
    intro q i hi
    simp only [State.record]
    rw [taken_append]
    exact hcounts q i hi
  case returns => exact h.returns.append hreturn

theorem Discipline.release {value : Int} (h : Discipline s)
    (hvalue : value = -1 ∨ value = taken p s.history) : Discipline (s.release p value) := by
  have hidle : Discipline ({ s with lock := none }.goto p .idle) := by
    apply h.quiet ((quiet_lock none).trans (quiet_goto _))
    intro i hi
    cases hi
  apply hidle.record (e := .returned p value) rfl rfl hidle.counts
  intro q v heq
  injection heq with hq hv
  subst q v
  exact hvalue

theorem release_goto (s : State) (p : Nat) (place : Place) (value : Int) :
    (s.goto p place).release p value = s.release p value := by
  simp [State.release, State.goto, State.record]

/-- The end-of-file mark that a call meets first is consumed. -/
theorem Discipline.takeMark (h : Discipline s) (hne : s.cons.r ≠ s.cons.w)
    (hmark : s.next = ctrlD) : Discipline s.take := by
  have hpos := Cons.ready_pos_iff.mp hne
  obtain ⟨consumed, hin, hout⟩ := h.bytes
  have hunread : s.cons.unread = ctrlD :: s.take.cons.unread := by
    rw [← hmark]
    exact Cons.unread_take hpos h.bounded
  constructor
  case bounded => exact Cons.bounded_take hpos h.bounded
  case bytes =>
    refine ⟨consumed ++ [ctrlD], ?_, ?_⟩
    · rw [List.append_assoc, List.singleton_append, ← hunread]
      exact hin
    · rw [List.filter_append, List.filter_cons_of_neg (by simp), List.filter_nil, List.append_nil]
      exact hout
  case counts => exact h.counts
  case returns => exact h.returns

theorem untake_take (s : State) : s.take.untake = s := by
  simp [State.take, State.untake]

theorem Discipline.takeByte (h : Discipline s) (hplace : s.place p = .reading target n)
    (hne : s.cons.r ≠ s.cons.w) (hbyte : s.next ≠ ctrlD) :
    Discipline ((s.take.record (.delivered p s.next)).goto p (.reading target (n - 1))) := by
  have hpos := Cons.ready_pos_iff.mp hne
  obtain ⟨consumed, hin, hout⟩ := h.bytes
  have hunread : s.cons.unread = s.next :: s.take.cons.unread :=
    Cons.unread_take hpos h.bounded
  constructor
  case bounded => exact Cons.bounded_take hpos h.bounded
  case bytes =>
    refine ⟨consumed ++ [s.next], ?_, ?_⟩
    · change committed (s.history ++ [.delivered p s.next]) = _ ++ s.take.cons.unread
      rw [committed_append, List.append_assoc, List.singleton_append, ← hunread, hin]
      exact List.append_nil _
    · change delivered (s.history ++ [.delivered p s.next]) = _
      rw [delivered_append, hout, List.filter_append,
        List.filter_cons_of_pos (by simpa using hbyte)]
      rfl
  case counts =>
    intro q i hi
    change (taken q (s.history ++ [.delivered p s.next]) : Int) = i
    simp only [State.goto, Function.update_apply] at hi
    rw [taken_append, countTaken]
    split at hi
    case isTrue hq =>
      subst q
      have hcount := h.counts p (target - n) (by rw [hplace]; rfl)
      injection hi with hi
      rw [if_pos rfl]
      push_cast
      omega
    case isFalse hq =>
      rw [if_neg (Ne.symm hq)]
      exact h.counts q i hi
  case returns => exact h.returns.append fun q value heq => by cases heq

theorem Discipline.deliver (h : Discipline s) (hplace : s.place p = .reading target n)
    (hne : s.cons.r ≠ s.cons.w) (hbyte : s.next ≠ ctrlD) :
    Discipline (s.take.deliver p target n s.next) := by
  have hnext := h.takeByte hplace hne hbyte
  unfold State.deliver
  split
  case isTrue =>
    rw [← release_goto _ p (.reading target (n - 1))]
    apply hnext.release
    right
    have hcount := hnext.counts p (target - (n - 1)) (by
      simp [State.goto, Place.counter])
    exact hcount.symm
  case isFalse => exact hnext

theorem Discipline.read (h : Discipline s) (hplace : s.place p = .reading target n) :
    Discipline (s.read p target n true) := by
  have hcount : (taken p s.history : Int) = target - n :=
    h.counts p (target - n) (by rw [hplace]; rfl)
  unfold State.read
  split
  case isFalse => exact h.release (.inr hcount.symm)
  split
  case isTrue =>
    split
    · exact h.release (.inl rfl)
    · apply h.quiet (quiet_sleep _)
      rw [hplace]
      rfl
  case isFalse hne =>
    simp only
    split
    case isTrue hmark =>
      split
      · rw [untake_take]
        exact h.release (.inr hcount.symm)
      · exact (h.takeMark hne hmark).release (.inr hcount.symm)
    case isFalse hbyte =>
      rw [if_pos trivial]
      exact h.deliver hplace hne hbyte

theorem read_mark (h : Discipline s) (hplace : s.place p = .reading target n) (hn : 0 < n)
    (hne : s.cons.r ≠ s.cons.w) (hmark : s.next = ctrlD) (copyout : Bool) :
    (s.read p target n copyout).history = s.history ++ [.returned p (taken p s.history)] ∧
      (0 < taken p s.history → (s.read p target n copyout).cons = s.cons) ∧
      (taken p s.history = 0 →
        s.cons.unread = ctrlD :: (s.read p target n copyout).cons.unread) := by
  have hcount : (taken p s.history : Int) = target - n :=
    h.counts p (target - n) (by rw [hplace]; rfl)
  have hunread : s.cons.unread = ctrlD :: s.take.cons.unread := by
    rw [← hmark]
    exact Cons.unread_take (Cons.ready_pos_iff.mp hne) h.bounded
  unfold State.read
  rw [if_pos hn, if_neg hne]
  simp only [if_pos hmark]
  rw [hcount]
  split
  case isTrue hlt =>
    rw [untake_take]
    refine ⟨rfl, fun _ => rfl, ?_⟩
    intro hzero
    omega
  case isFalse hge =>
    refine ⟨rfl, ?_, fun _ => hunread⟩
    intro hpos
    omega

end

/-! ## Characters -/

section

variable {s : State}

theorem Discipline.edit {c : Cons} (h : Discipline s) (hc : Cons.Edits s.cons c) :
    Discipline { s with cons := c } := by
  constructor
  case bounded => exact hc.bounded h.bounded
  case bytes =>
    simp only [hc.unread_eq]
    exact h.bytes
  case counts => exact h.counts
  case returns => exact h.returns

theorem Discipline.store (h : Discipline s) (ch : UInt8)
    (hroom : s.cons.ready + s.cons.pending < inputBufSize) :
    Discipline { s with cons := s.cons.store ch } := by
  constructor
  case bounded => exact Cons.bounded_store ch hroom
  case bytes =>
    simp only [Cons.unread_store ch hroom]
    exact h.bytes
  case counts => exact h.counts
  case returns => exact h.returns

theorem Discipline.commit (h : Discipline s) : Discipline s.commit := by
  obtain ⟨consumed, hin, hout⟩ := h.bytes
  constructor
  case bounded => exact Cons.bounded_commit h.bounded
  case bytes =>
    refine ⟨consumed, ?_, ?_⟩
    · change committed (s.history ++ [.committed s.cons.edited]) =
        consumed ++ ({ s.cons with w := s.cons.e } : Cons).unread
      rw [committed_append, hin, Cons.unread_commit s.cons h.bounded, List.append_assoc]
      simp [committed]
    · change delivered (s.history ++ [.committed s.cons.edited]) = _
      rw [delivered_append, hout]
      exact List.append_nil _
  case counts =>
    intro q i hi
    change (taken q (s.history ++ [.committed s.cons.edited]) : Int) = i
    rw [taken_append]
    simp only [State.commit, State.record, State.wakeup, Place.counter_wake] at hi
    exact h.counts q i hi
  case returns => exact h.returns.append fun q value heq => by cases heq

theorem Discipline.consoleintr (h : Discipline s) (c : UInt8) : Discipline (s.consoleintr c) := by
  unfold State.consoleintr
  split
  case isTrue => exact h
  split
  case isTrue => exact h.edit (Cons.edits_killLine _ s.cons)
  split
  case isTrue => exact h.edit (Cons.edits_backspace s.cons)
  unfold State.input
  split
  case isFalse => exact h
  case isTrue hroom =>
    rw [Cons.held_eq h.bounded] at hroom
    simp only
    generalize (if c = carriageReturn then newline else c) = ch
    have hstored := h.store ch hroom.2
    split
    · exact hstored.commit
    · exact hstored

theorem consoleintr_cons (h : s.cons.Bounded) (c : UInt8) :
    (s.consoleintr c).cons.r = s.cons.r ∧ s.cons.unread <+: (s.consoleintr c).cons.unread ∧
      ∀ k, k < s.cons.ready → (s.consoleintr c).cons.buf ((s.cons.r.toNat + k) % inputBufSize) =
        s.cons.buf ((s.cons.r.toNat + k) % inputBufSize) := by
  have hedit : ∀ {c : Cons}, Cons.Edits s.cons c → c.r = s.cons.r ∧ s.cons.unread <+: c.unread ∧
      ∀ k, k < s.cons.ready → c.buf ((s.cons.r.toNat + k) % inputBufSize) =
        s.cons.buf ((s.cons.r.toNat + k) % inputBufSize) := by
    intro c hc
    refine ⟨hc.r, hc.unread_eq ▸ List.prefix_rfl, ?_⟩
    intro k _
    rw [hc.buf]
  unfold State.consoleintr
  split
  case isTrue => exact hedit (Cons.edits_refl s.cons)
  split
  case isTrue => exact hedit (Cons.edits_killLine _ s.cons)
  split
  case isTrue => exact hedit (Cons.edits_backspace s.cons)
  unfold State.input
  split
  case isFalse => exact hedit (Cons.edits_refl s.cons)
  case isTrue hroom =>
    rw [Cons.held_eq h] at hroom
    have hcells : ∀ ch k, k < s.cons.ready →
        (s.cons.store ch).buf ((s.cons.r.toNat + k) % inputBufSize) =
          s.cons.buf ((s.cons.r.toNat + k) % inputBufSize) := by
      intro ch k hk
      simp only [Cons.store]
      rw [Cons.e_mod, Function.update_of_ne]
      exact ring_next_free (hk.trans_le (Nat.le_add_right _ _)) hroom.2
    simp only
    generalize (if c = carriageReturn then newline else c) = ch
    split
    · refine ⟨rfl, ?_, hcells ch⟩
      change s.cons.unread <+: ({ s.cons.store ch with w := (s.cons.store ch).e } : Cons).unread
      rw [Cons.unread_commit _ (Cons.bounded_store ch hroom.2), Cons.unread_store ch hroom.2]
      exact List.prefix_append _ _
    · exact ⟨rfl, Cons.unread_store ch hroom.2 ▸ List.prefix_rfl, hcells ch⟩

end

/-! ## Runs -/

def Action.CopiesSucceed : Action → Prop
  | .run _ copyout => copyout = true
  | _ => True

theorem Discipline.call {s : State} (h : Discipline s) (p : Nat) (n : Int) :
    Discipline (s.call p n) := by
  unfold State.call
  split
  case isFalse => exact h
  case isTrue =>
    obtain ⟨consumed, hin, hout⟩ := h.bytes
    constructor
    case bounded => exact h.bounded
    case bytes =>
      refine ⟨consumed, ?_, ?_⟩
      · change committed (s.history ++ [.called p]) = consumed ++ s.cons.unread
        rw [committed_append, hin]
        exact List.append_nil _
      · change delivered (s.history ++ [.called p]) = _
        rw [delivered_append, hout]
        exact List.append_nil _
    case counts =>
      intro q i hi
      change (taken q (s.history ++ [.called p]) : Int) = i
      simp only [State.record, State.goto, Function.update_apply] at hi
      rw [taken_append, countTaken]
      split at hi
      case isTrue hq =>
        injection hi with hi
        rw [if_pos hq.symm, ← hi]
        rfl
      case isFalse hq =>
        rw [if_neg (Ne.symm hq)]
        exact h.counts q i hi
    case returns => exact h.returns.append fun q value heq => by cases heq

theorem Discipline.step {s : State} {a : Action} (h : Discipline s) (ha : a.CopiesSucceed) :
    Discipline (s.step a) := by
  cases a with
  | consoleread p n => exact h.call p n
  | intr c =>
      simp only [State.step]
      split
      · exact h.consoleintr c
      · exact h
  | kill p => exact h.quiet quiet_kill
  | run p copyout =>
      simp only [Action.CopiesSucceed] at ha
      subst copyout
      simp only [State.step, State.resume]
      split
      case h_1 => exact h
      case h_2 n hplace => exact h.quiet (quiet_acquire (by rw [hplace]; simp [Place.counter]))
      case h_3 target n hplace => exact h.read hplace
      case h_4 => exact h
      case h_5 target n hplace => exact h.quiet (quiet_acquire (by rw [hplace]; rfl))

theorem Discipline.initial : Discipline State.initial := by
  constructor
  case bounded => exact ⟨by decide⟩
  case bytes => exact ⟨[], rfl, rfl⟩
  case counts =>
    intro p i hi
    cases hi
  case returns =>
    intro before p value rest heq
    exact absurd heq.symm (List.append_ne_nil_of_right_ne_nil _ (List.cons_ne_nil _ _))

theorem Discipline.run {s : State} {actions : List Action} (h : Discipline s)
    (hcopies : ∀ a ∈ actions, a.CopiesSucceed) : Discipline (s.run actions) := by
  induction actions generalizing s with
  | nil => exact h
  | cons a actions ih =>
      rw [State.run, List.foldl_cons]
      apply ih
      · exact h.step (hcopies a List.mem_cons_self)
      · exact fun b hb => hcopies b (List.mem_cons_of_mem a hb)

theorem buf_acquire (s : State) (p : Nat) (place : Place) :
    (s.acquire p place).cons.buf = s.cons.buf := by
  unfold State.acquire
  split <;> rfl

theorem buf_read (s : State) (p : Nat) (target n : Int) (copyout : Bool) :
    (s.read p target n copyout).cons.buf = s.cons.buf := by
  have hdeliver : (s.take.deliver p target n s.next).cons.buf = s.cons.buf := by
    unfold State.deliver
    split <;> rfl
  unfold State.read
  split
  case isFalse => rfl
  split
  case isTrue => split <;> rfl
  simp only
  split
  case isTrue => split <;> rfl
  split
  case isTrue => exact hdeliver
  case isFalse => rfl

theorem buf_step (s : State) (a : Action) :
    (∃ c, a = .intr c ∧ s.step a = s.consoleintr c) ∨ (s.step a).cons.buf = s.cons.buf := by
  cases a with
  | consoleread p n =>
      right
      simp only [State.step, State.call]
      split <;> rfl
  | intr c =>
      simp only [State.step]
      split
      · exact .inl ⟨c, rfl, rfl⟩
      · exact .inr rfl
  | kill p => exact .inr rfl
  | run p copyout =>
      right
      simp only [State.step, State.resume]
      split
      case h_1 => rfl
      case h_2 => exact buf_acquire s p _
      case h_3 => exact buf_read s p _ _ copyout
      case h_4 => rfl
      case h_5 => exact buf_acquire s p _

/-- Over any characters and calls in any order of steps, the counters stay in order,
committed bytes stay as they are, readers are given the committed bytes in order, and
an end-of-file mark ends a call. -/
theorem console_lineDiscipline (actions : List Action)
    (hcopies : ∀ a ∈ actions, a.CopiesSucceed) :
    let s := State.initial.run actions
    ((s.cons.w - s.cons.r).toNat ≤ (s.cons.e - s.cons.r).toNat ∧
      (s.cons.e - s.cons.r).toNat ≤ inputBufSize) ∧
    (∀ a k, k < (s.cons.w - s.cons.r).toNat →
      (s.step a).cons.buf ((s.cons.r.toNat + k) % inputBufSize) =
        s.cons.buf ((s.cons.r.toNat + k) % inputBufSize)) ∧
    (∀ c, (s.step (.intr c)).cons.r = s.cons.r ∧
      s.cons.unread <+: (s.step (.intr c)).cons.unread) ∧
    (∃ consumed, committed s.history = consumed ++ s.cons.unread ∧
      delivered s.history = consumed.filter fun ch => ch ≠ ctrlD) ∧
    CountsReturned s.history ∧
    ∀ p target n copyout, s.place p = .reading target n → 0 < n → s.cons.r ≠ s.cons.w →
      s.next = ctrlD →
      (s.step (.run p copyout)).history = s.history ++ [.returned p (taken p s.history)] ∧
      (0 < taken p s.history → (s.step (.run p copyout)).cons = s.cons) ∧
      (taken p s.history = 0 →
        s.cons.unread = ctrlD :: (s.step (.run p copyout)).cons.unread) := by
  intro s
  have h : Discipline s := Discipline.initial.run hcopies
  have hheld := Cons.held_eq h.bounded
  have hroom := h.bounded.room
  have hready : (s.cons.w - s.cons.r).toNat = s.cons.ready := rfl
  refine ⟨⟨by omega, by omega⟩, ?_, ?_, h.bytes, h.returns, ?_⟩
  · intro a k hk
    rcases buf_step s a with ⟨c, _, hstep⟩ | hbuf
    · rw [hstep]
      exact (consoleintr_cons h.bounded c).2.2 k hk
    · rw [hbuf]
  · intro c
    simp only [State.step]
    split
    · obtain ⟨hr, hunread, _⟩ := consoleintr_cons h.bounded c
      exact ⟨hr, hunread⟩
    · exact ⟨rfl, List.prefix_rfl⟩
  · intro p target n copyout hplace hn hne hmark
    simp only [State.step, State.resume, hplace]
    exact read_mark h hplace hn hne hmark copyout

/-- A reader that sleeps, a line with a byte erased, and an end-of-file mark behind it. -/
def lineAndMark : List Action :=
  [.consoleread 1 9, .run 1 true, .run 1 true, .intr 65, .intr 66, .intr ctrlH, .intr ctrlD,
    .run 1 true, .run 1 true, .run 1 true]

theorem console_lineDiscipline_mark :
    (State.initial.run lineAndMark).history =
        [.called 1, .committed [65, ctrlD], .delivered 1 65, .returned 1 1] ∧
      ∃ consumed, committed (State.initial.run lineAndMark).history =
          consumed ++ (State.initial.run lineAndMark).cons.unread ∧
        delivered (State.initial.run lineAndMark).history =
          consumed.filter fun ch => ch ≠ ctrlD := by
  refine ⟨by decide, (console_lineDiscipline lineAndMark ?_).2.2.2.1⟩
  simp [lineAndMark, Action.CopiesSucceed]

end SyscallSched.Xv6.Console
