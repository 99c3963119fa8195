import SyscallSched.Xv6.Virtio.Requests

/-!
# The disk driver in every run

A step stores at most one entry in a ring, where there is room for it, and clears a
buffer only for a request that the device has completed.
-/

namespace SyscallSched.Xv6.Virtio

open SyscallSched.Foundation

variable {P B : Type} [DecidableEq P] [DecidableEq B]

/-! ## What a step does to the rings and the buffers -/

/-- The rings and the buffers stay, and no buffer is cleared. -/
structure Quiet (s s' : State P B) : Prop where
  avail : s'.disk.avail.ring = s.disk.avail.ring
  used : s'.disk.used.ring = s.disk.used.ring
  bufDisk : s'.bufDisk = s.bufDisk
  history : ∀ b, s'.history ≠ s.history ++ [⟨.cleared, b⟩]

inductive Effect (s s' : State P B) : Prop
  | quiet (h : Quiet s s')
  | submit (b : B) (hbuf : s'.bufDisk = Function.update s.bufDisk b true)
      (havail : s'.disk.avail.ring = s.disk.avail.ring)
      (hused : s'.disk.used.ring = s.disk.used.ring)
      (hhistory : s'.history = s.history)
  | enter (p : P) (r : Request B) (idx : Idx) (hp : s.proc p = .formatted r idx)
      (havail : s'.disk.avail.ring =
        Function.update s.disk.avail.ring (s.disk.avail.idx.toNat % num) (.ofNat idx.i0))
      (hused : s'.disk.used.ring = s.disk.used.ring) (hbuf : s'.bufDisk = s.bufDisk)
      (hhistory : s'.history = s.history)
  | complete (i : Nat) (hi : i ∈ s.finished) (havail : s'.disk.avail.ring = s.disk.avail.ring)
      (hused : s'.disk.used.ring =
        Function.update s.disk.used.ring (s.disk.used.idx.toNat % num) (.ofNat i))
      (hbuf : s'.bufDisk = s.bufDisk) (hhistory : ∀ b, s'.history ≠ s.history ++ [⟨.cleared, b⟩])
  | clear (b : B) (hdisk : s.bufDisk b = true) (havail : s'.disk.avail.ring = s.disk.avail.ring)
      (hused : s'.disk.used.ring = s.disk.used.ring)
      (hbuf : s'.bufDisk = Function.update s.bufDisk b false)
      (hhistory : s'.history = s.history ++ [⟨.cleared, b⟩])

namespace Effect

variable {s s' : State P B} {G : Ghost P}

omit [DecidableEq P] [DecidableEq B] in
theorem history_ne (s : State P B) (b : B) : s.history ≠ s.history ++ [⟨.cleared, b⟩] := by
  simp

omit [DecidableEq P] [DecidableEq B] in
theorem record_ne (s : State P B) {kind : Kind} (hkind : kind ≠ .cleared) (b b' : B) :
    s.history ++ [⟨kind, b'⟩] ≠ s.history ++ [⟨.cleared, b⟩] := by
  simp [hkind]

omit [DecidableEq P] in
theorem refl (s : State P B) : Effect s s := .quiet ⟨rfl, rfl, rfl, history_ne s⟩

theorem of_alloc {p : P} (hstep : s.alloc p = .ok s') : Effect s s' := by
  unfold State.alloc at hstep
  split at hstep
  case h_2 =>
    cases hstep
    exact refl s
  case h_1 r hnone hp =>
    cases s.disk.alloc3Desc_cases with
    | inl htaken =>
        obtain ⟨idx, _, _, heq⟩ := htaken
        rw [heq] at hstep
        cases hstep
        exact .quiet ⟨rfl, rfl, rfl, history_ne s⟩
    | inr hfailed =>
        obtain ⟨desc, _, heq⟩ := hfailed
        rw [heq] at hstep
        cases hstep
        exact .quiet ⟨rfl, rfl, rfl, history_ne s⟩

theorem of_format (s : State P B) (p : P) : Effect s (s.format p) := by
  unfold State.format
  split
  case h_1 r idx hp => exact .submit r.buf rfl rfl rfl rfl
  case h_2 => exact refl s

theorem of_enter (s : State P B) (p : P) : Effect s (s.enter p) := by
  unfold State.enter
  split
  case h_1 r idx hp => exact .enter p r idx hp rfl rfl rfl rfl
  case h_2 => exact refl s

theorem of_publish (s : State P B) (p : P) : Effect s (s.publish p) := by
  unfold State.publish
  split
  case h_1 r idx hp => exact .quiet ⟨rfl, rfl, rfl, fun b => record_ne s (by simp) b r.buf⟩
  case h_2 => exact refl s

theorem of_test {p : P} {r : Request B} {idx : Idx} (hstep : s.test p r idx = .ok s') :
    Effect s s' := by
  unfold State.test at hstep
  split at hstep
  case isTrue =>
    cases hstep
    exact .quiet ⟨rfl, rfl, rfl, history_ne s⟩
  case isFalse =>
    simp only at hstep
    cases hfree :
        (s.disk.setInfo idx.i0 { s.disk.info idx.i0 with b := none }).freeChain idx.i0 with
    | error e =>
        simp only [hfree] at hstep
        cases hstep
    | ok disk =>
        simp only [hfree] at hstep
        cases hstep
        obtain ⟨havail, hused⟩ := Disk.freeLoop_rings hfree
        refine .quiet ⟨?_, ?_, rfl, fun b => record_ne s (by simp) b r.buf⟩
        · exact congrArg Avail.ring havail
        · exact congrArg Used.ring hused

theorem of_await {p : P} (hstep : s.await p = .ok s') : Effect s s' := by
  unfold State.await at hstep
  split at hstep
  case h_1 => exact of_test hstep
  case h_2 =>
    split at hstep
    case isTrue => exact of_test hstep
    case isFalse =>
      cases hstep
      exact refl s
  case h_3 =>
    cases hstep
    exact refl s

theorem of_intrNext (h : Inv s G) (hstep : s.intrNext = .ok s') : Effect s s' := by
  by_cases hlock : s.lock = some .intr
  · by_cases heq : s.disk.usedIdx = s.disk.used.idx
    · rw [(h.release hlock heq).1] at hstep
      cases hstep
      exact .quiet ⟨rfl, rfl, rfl, history_ne s⟩
    · obtain ⟨p, r, idx, used, -, -, -, hdisk, -, hrun, -⟩ := h.clear hlock heq
      rw [hrun] at hstep
      cases hstep
      exact .clear r.buf hdisk rfl rfl rfl rfl
  · rw [State.intrNext, if_neg hlock] at hstep
    cases hstep
    exact refl s

omit [DecidableEq P] in
theorem of_finish (s : State P B) (k : Nat) : Effect s (s.finish k) := by
  unfold State.finish
  split
  case h_2 => exact refl s
  case h_1 i hk =>
    have hrings : (s.disk.writeStatus i).avail = s.disk.avail ∧
        (s.disk.writeStatus i).used = s.disk.used := by
      unfold Disk.writeStatus
      split
      case h_1 => exact ⟨rfl, rfl⟩
      case h_2 => exact ⟨rfl, rfl⟩
    exact .quiet ⟨congrArg Avail.ring hrings.1, congrArg Used.ring hrings.2, rfl, history_ne s⟩

omit [DecidableEq P] in
theorem of_complete (s : State P B) (k : Nat) : Effect s (s.complete k) := by
  unfold State.complete
  split
  case h_2 => exact refl s
  case h_1 i hk =>
    have hi : i ∈ s.finished := List.mem_of_getElem? hk
    split
    case h_1 b _ => exact .complete i hi rfl rfl rfl fun b' => record_ne s (by simp) b' b
    case h_2 => exact .complete i hi rfl rfl rfl (history_ne s)

theorem of_step (h : Inv s G) {a : Action P B} (hstep : s.step a = .ok s') : Effect s s' := by
  cases a with
  | call p r =>
      cases hstep
      exact .quiet ⟨rfl, rfl, rfl, history_ne s⟩
  | alloc p => exact of_alloc hstep
  | format p =>
      cases hstep
      exact of_format s p
  | enter p =>
      cases hstep
      exact of_enter s p
  | publish p =>
      cases hstep
      exact of_publish s p
  | await p => exact of_await hstep
  | intr =>
      cases hstep
      unfold State.intr
      split
      case isTrue => exact .quiet ⟨rfl, rfl, rfl, history_ne s⟩
      case isFalse => exact refl s
  | intrNext => exact of_intrNext h hstep
  | fetch =>
      cases hstep
      unfold State.fetch
      split
      case isTrue => exact .quiet ⟨rfl, rfl, rfl, history_ne s⟩
      case isFalse => exact refl s
  | finish k =>
      cases hstep
      exact of_finish s k
  | complete k =>
      cases hstep
      exact of_complete s k

omit [DecidableEq P] in
theorem avail_kept (h : Inv s G) (he : Effect s s') {k : Nat}
    (hk : k < (s.disk.avail.idx - s.lastAvail).toNat) :
    s'.disk.avail.ring ((s.lastAvail.toNat + k) % num) =
      s.disk.avail.ring ((s.lastAvail.toNat + k) % num) := by
  cases he with
  | quiet hq => rw [hq.avail]
  | submit b _ havail _ _ => rw [havail]
  | complete i _ havail _ _ _ => rw [havail]
  | clear b _ havail _ _ _ => rw [havail]
  | enter p r idx hp havail _ _ _ =>
      have hstage : G.stage p = .formatted := by
        have hof := (h.fits p).stage
        rwa [hp] at hof
      have hroom := h.room_avail (p := p) (by simp [hstage]) (by simp [hstage])
      rw [havail, Function.update_of_ne (slot_ne Inv.num_dvd hroom hk)]

omit [DecidableEq P] in
/-- No entry is overwritten that the driver has not looked at. -/
theorem used_kept (h : Inv s G) (he : Effect s s') {k : Nat}
    (hk : k < (s.disk.used.idx - s.disk.usedIdx).toNat) :
    s'.disk.used.ring ((s.disk.usedIdx.toNat + k) % num) =
      s.disk.used.ring ((s.disk.usedIdx.toNat + k) % num) := by
  cases he with
  | quiet hq => rw [hq.used]
  | submit b _ _ hused _ => rw [hused]
  | enter p r idx _ _ hused _ _ => rw [hused]
  | clear b _ _ hused _ _ => rw [hused]
  | complete i hi _ hused _ _ =>
      rw [h.rings.finished] at hi
      obtain ⟨p, hp, _⟩ := List.mem_map.mp hi
      have hstage : G.stage p = .finished := (h.rings.finished_mem.mem p).mp hp
      have hroom := h.room_used (p := p) (by simp [hstage]) (by simp [hstage])
      rw [hused, Function.update_of_ne (slot_ne Inv.num_dvd hroom hk)]

omit [DecidableEq P] in
/-- The steps recorded as clearing a buffer are those that set its `b->disk` to 0. -/
theorem cleared_iff (he : Effect s s') (b : B) :
    s.bufDisk b = true ∧ s'.bufDisk b = false ↔ s'.history = s.history ++ [⟨.cleared, b⟩] := by
  have hsame : s'.bufDisk = s.bufDisk → ¬ (s.bufDisk b = true ∧ s'.bufDisk b = false) := by
    rintro heq ⟨htrue, hfalse⟩
    rw [heq, htrue] at hfalse
    cases hfalse
  cases he with
  | quiet hq => exact iff_of_false (hsame hq.bufDisk) (hq.history b)
  | enter p r idx _ _ _ hbuf hhistory =>
      refine iff_of_false (hsame hbuf) ?_
      rw [hhistory]
      exact history_ne s b
  | complete i _ _ _ hbuf hhistory => exact iff_of_false (hsame hbuf) (hhistory b)
  | submit b' hbuf _ _ hhistory =>
      refine iff_of_false ?_ ?_
      · rintro ⟨htrue, hfalse⟩
        rw [hbuf, Function.update_apply] at hfalse
        split at hfalse
        case isTrue => cases hfalse
        case isFalse =>
          rw [htrue] at hfalse
          cases hfalse
      · rw [hhistory]
        exact history_ne s b
  | clear b' hdisk _ _ hbuf hhistory =>
      rw [hbuf, hhistory]
      constructor
      · rintro ⟨htrue, hfalse⟩
        rw [Function.update_apply] at hfalse
        split at hfalse
        case isTrue heq => rw [heq]
        case isFalse =>
          rw [htrue] at hfalse
          cases hfalse
      · intro heq
        have hlast := List.append_cancel_left heq
        injection hlast with hlast
        injection hlast with _ hb
        rw [← hb]
        exact ⟨hdisk, Function.update_self _ _ _⟩

end Effect

/-! ## The protocol -/

namespace State

structure Sound (s : State P B) : Prop where
  /-- The device finds the three descriptors that the call has taken. -/
  chained : ∀ p r idx, (s.proc p).submitted = some (r, idx) →
    Formatted s.disk r idx ∧ Chained s.disk.desc idx.toList ∧ (s.proc p).chain = idx.toList
  triples : ∀ p, (s.proc p).chain.Nodup ∧ ∀ i ∈ (s.proc p).chain, i < num
  disjoint : ∀ p q i, i ∈ (s.proc p).chain → i ∈ (s.proc q).chain → p = q
  free : ∀ i, i < num → (s.disk.free i = true ↔ ∀ p, i ∉ (s.proc p).chain)
  /-- No step overwrites an entry of the avail ring that the device has not taken. -/
  avail : ∀ a s' k, s.Allowed a → s.step a = .ok s' → k < (s.disk.avail.idx - s.lastAvail).toNat →
    s'.disk.avail.ring ((s.lastAvail.toNat + k) % num) =
      s.disk.avail.ring ((s.lastAvail.toNat + k) % num)
  /-- No step overwrites an entry of the used ring that the driver has not looked at. -/
  used : ∀ a s' k, s.Allowed a → s.step a = .ok s' →
    k < (s.disk.used.idx - s.disk.usedIdx).toNat →
    s'.disk.used.ring ((s.disk.usedIdx.toNat + k) % num) =
      s.disk.used.ring ((s.disk.usedIdx.toNat + k) % num)
  /-- One call at a time for each buffer. -/
  exclusive : ∀ p q b, (s.proc p).buf = some b → (s.proc q).buf = some b → p = q
  /-- `b->disk` becomes 0 in the steps that are recorded as clearing `b`, -/
  cleared : ∀ a s' b, s.Allowed a → s.step a = .ok s' →
    (s.bufDisk b = true ∧ s'.bufDisk b = false ↔ s'.history = s.history ++ [⟨.cleared, b⟩])
  /-- and these come once for each call, after the device has completed the request and
  before the call returns. -/
  orderly : Orderly s.history
  /-- The interrupt takes the next entry of the used ring, which is the head of a completed
  request, and clears the buffer of this request. -/
  turn : s.lock = some .intr → s.disk.usedIdx ≠ s.disk.used.idx → ∃ p r idx s',
    (s.proc p).submitted = some (r, idx) ∧
      (s.disk.used.ring (s.disk.usedIdx.toNat % num)).toNat = idx.i0 ∧
      lastKind r.buf s.history = .completed ∧ s.step .intrNext = .ok s' ∧
      s'.disk.usedIdx = s.disk.usedIdx + 1 ∧ s'.bufDisk = Function.update s.bufDisk r.buf false
  /-- In the end it has cleared the buffers of all completed requests and no others. -/
  drained : s.lock = some .intr → ∃ s', s.intrLoop (num + 1) = .ok s' ∧ Drained s s'
  /-- There is no panic. -/
  succeeds : ∀ a, s.Allowed a → ∃ s', s.step a = .ok s'

end State

theorem disk_sound {s : State P B} (h : Reachable s) : s.Sound := by
  obtain ⟨G, hinv⟩ := Inv.of_reachable h
  constructor
  case chained =>
    intro p r idx hsub
    have hchain := Proc.chain_of_submitted hsub
    have hformatted := ((hinv.fits p).submitted r idx hsub).formatted
    refine ⟨hformatted, hformatted.chained ?_, hchain⟩
    rw [← hchain]
    exact hinv.chains.lt p
  case triples => exact fun p => ⟨hinv.chains.nodup p, hinv.chains.lt p⟩
  case disjoint => exact hinv.chains.disjoint
  case free => exact hinv.chains.free
  case avail =>
    intro a s' k _ hstep hk
    exact (Effect.of_step hinv hstep).avail_kept hinv hk
  case used =>
    intro a s' k _ hstep hk
    exact (Effect.of_step hinv hstep).used_kept hinv hk
  case exclusive => exact hinv.exclusive
  case cleared =>
    intro a s' b _ hstep
    exact (Effect.of_step hinv hstep).cleared_iff b
  case orderly => exact hinv.orderly
  case turn =>
    intro hlock hne
    obtain ⟨p, r, idx, used, -, hsub, hid, -, hlast, hrun, -⟩ := hinv.clear hlock hne
    exact ⟨p, r, idx, _, hsub, hid, hlast, hrun, rfl, rfl⟩
  case drained =>
    intro hlock
    exact hinv.drain hlock (Nat.lt_succ_of_le hinv.used_length_le)
  case succeeds =>
    intro a ha
    obtain ⟨s', _, hstep, _⟩ := hinv.step a ha
    exact ⟨s', hstep⟩

/-- Two processes read a block each, and the device completes the second request first. -/
def outOfOrder : List (Action Bool Bool) :=
  let call (p : Bool) : List (Action Bool Bool) :=
    [.call p ⟨p, 0, false⟩, .alloc p, .format p, .enter p, .publish p, .await p]
  call false ++ call true ++
    [.fetch, .fetch, .finish 1, .complete 0, .finish 0, .complete 0, .intr, .intrNext]

theorem disk_sound_out_of_order : ∃ s : State Bool Bool, State.initial.run outOfOrder = some s ∧
    s.history = [⟨.published, false⟩, ⟨.published, true⟩, ⟨.completed, true⟩,
      ⟨.completed, false⟩, ⟨.cleared, true⟩] ∧ s.lock = some .intr ∧
    s.bufDisk = (! ·) ∧ s.Sound := by
  have heval : (State.initial.run outOfOrder).map (fun s : State Bool Bool =>
      (s.history, s.lock, s.bufDisk)) =
      some ([⟨.published, false⟩, ⟨.published, true⟩, ⟨.completed, true⟩, ⟨.completed, false⟩,
        ⟨.cleared, true⟩], some .intr, (! ·)) := by
    decide +kernel
  obtain ⟨s, hrun, hs⟩ := Option.map_eq_some_iff.1 heval
  simp only [Prod.mk.injEq] at hs
  obtain ⟨hhistory, hlock, hdisk⟩ := hs
  exact ⟨s, hrun, hhistory, hlock, hdisk, disk_sound (Reachable.initial.run hrun)⟩

end SyscallSched.Xv6.Virtio
