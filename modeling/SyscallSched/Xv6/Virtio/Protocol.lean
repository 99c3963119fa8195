import Mathlib.Data.List.InsertIdx
import Mathlib.Data.List.Nodup
import SyscallSched.Foundation.History
import SyscallSched.Xv6.Virtio.Chains

/-!
# The disk request protocol

A request goes through stages: from the avail ring to the device, from there to the used
ring, and back to its process.  The two rings and the two sets of the device hold the
heads of the requests that are at one stage each; as heads are descriptors, there are at
most `NUM` of them, so no ring overflows, however often the indices wrap around.
-/

namespace SyscallSched.Xv6.Virtio

open SyscallSched.Foundation

variable {P B : Type}

/-! ## What happened to requests -/

def Kind.previous : Kind → Kind
  | .published => .returned
  | .completed => .published
  | .cleared => .completed
  | .returned => .cleared

section

variable [DecidableEq B]

/-- The last event of `b`; nothing has happened yet as after a return. -/
def lastKind (b : B) (history : List (Event B)) : Kind :=
  history.foldl (fun kind e => if e.buf = b then e.kind else kind) .returned

/-- Calls for one buffer come one after the other, and each is published, completed,
cleared and returned in this order. -/
def Orderly (history : List (Event B)) : Prop :=
  ∀ before e rest, history = before ++ e :: rest → lastKind e.buf before = e.kind.previous

theorem lastKind_append (b : B) (history : List (Event B)) (e : Event B) :
    lastKind b (history ++ [e]) = if e.buf = b then e.kind else lastKind b history := by
  rw [lastKind, List.foldl_append]
  rfl

theorem Orderly.append {history : List (Event B)} {e : Event B} (h : Orderly history)
    (he : lastKind e.buf history = e.kind.previous) : Orderly (history ++ [e]) :=
  forall_cut_append h he

end

/-! ## Processes -/

namespace Proc

def submitted : Proc B → Option (Request B × Idx)
  | .formatted r idx => some (r, idx)
  | .entered r idx => some (r, idx)
  | .published r idx => some (r, idx)
  | .waiting r idx => some (r, idx)
  | _ => none

/-- The descriptors that the call has taken. -/
def chain : Proc B → List Nat
  | .idle => []
  | .allocating _ => []
  | .allocated _ idx => idx.toList
  | .formatted _ idx => idx.toList
  | .entered _ idx => idx.toList
  | .published _ idx => idx.toList
  | .waiting _ idx => idx.toList

def head (proc : Proc B) : Nat := proc.chain.headD 0

def critical : Proc B → Bool
  | .allocated _ _ => true
  | .formatted _ _ => true
  | .entered _ _ => true
  | .published _ _ => true
  | _ => false

variable {proc : Proc B} {r : Request B} {idx : Idx}

theorem chain_of_submitted (h : proc.submitted = some (r, idx)) : proc.chain = idx.toList := by
  cases proc <;> cases h <;> rfl

theorem buf_of_submitted (h : proc.submitted = some (r, idx)) : proc.buf = some r.buf := by
  cases proc <;> cases h <;> rfl

theorem head_of_submitted (h : proc.submitted = some (r, idx)) : proc.head = idx.i0 := by
  rw [head, chain_of_submitted h]
  rfl

end Proc

@[simp] theorem State.goto_self [DecidableEq P] (s : State P B) (p : P) (proc : Proc B) :
    (s.goto p proc).proc p = proc :=
  Function.update_self _ _ _

/-! ## The descriptors -/

/-- The calls have separate descriptors, and the others are free. -/
structure Chains (proc : P → Proc B) (free : Nat → Bool) : Prop where
  nodup : ∀ p, (proc p).chain.Nodup
  lt : ∀ p, ∀ i ∈ (proc p).chain, i < num
  disjoint : ∀ p q i, i ∈ (proc p).chain → i ∈ (proc q).chain → p = q
  free : ∀ i, i < num → (free i = true ↔ ∀ p, i ∉ (proc p).chain)

namespace Chains

variable {proc proc' : P → Proc B} {free : Nat → Bool} {p : P}

theorem congr (h : Chains proc free) (hchain : ∀ p, (proc' p).chain = (proc p).chain) :
    Chains proc' free := by
  constructor
  case nodup =>
    intro p
    rw [hchain]
    exact h.nodup p
  case lt =>
    intro p
    rw [hchain]
    exact h.lt p
  case disjoint =>
    intro p q i
    rw [hchain, hchain]
    exact h.disjoint p q i
  case free =>
    intro i hi
    rw [h.free i hi]
    simp only [hchain]

theorem not_free (h : Chains proc free) {i : Nat} (hi : i ∈ (proc p).chain) : free i = false := by
  cases hfree : free i with
  | false => rfl
  | true => exact absurd hi ((h.free i (h.lt p i hi)).mp hfree p)

theorem length_le (h : Chains proc free) {l : List P} (hnodup : l.Nodup)
    (hl : ∀ p ∈ l, (proc p).head ∈ (proc p).chain) : l.length ≤ num := by
  have hheads : (l.map fun p => (proc p).head).Nodup := by
    refine List.Nodup.map_on ?_ hnodup
    intro p hp q hq heq
    have hmem := hl q hq
    rw [← heq] at hmem
    exact h.disjoint p q _ (hl p hp) hmem
  have hsub : (l.map fun p => (proc p).head) ⊆ List.range num := by
    intro i hi
    obtain ⟨p, hp, rfl⟩ := List.mem_map.mp hi
    exact List.mem_range.mpr (h.lt p _ (hl p hp))
  have hle := List.Nodup.length_le_of_subset hheads hsub
  rwa [List.length_map, List.length_range] at hle

variable [DecidableEq P]

theorem take (h : Chains proc free) (hp : (proc p).chain = []) {new : Proc B}
    (hnodup : new.chain.Nodup)
    (hfree : ∀ i ∈ new.chain, i < num ∧ free i = true) :
    Chains (Function.update proc p new) (Disk.taken free new.chain) := by
  have hself : (Function.update proc p new) p = new := Function.update_self _ _ _
  have hout : ∀ q, ∀ i ∈ new.chain, i ∉ (proc q).chain := by
    intro q i hi
    exact (h.free i (hfree i hi).1).mp (hfree i hi).2 q
  constructor
  case nodup =>
    intro q
    cases eq_or_ne q p with
    | inl heq =>
        rw [heq, hself]
        exact hnodup
    | inr hne =>
        rw [Function.update_of_ne hne]
        exact h.nodup q
  case lt =>
    intro q i
    cases eq_or_ne q p with
    | inl heq =>
        rw [heq, hself]
        exact fun hi => (hfree i hi).1
    | inr hne =>
        rw [Function.update_of_ne hne]
        exact h.lt q i
  case disjoint =>
    intro q q' i hi hi'
    cases eq_or_ne q p with
    | inl heq =>
        cases eq_or_ne q' p with
        | inl heq' => rw [heq, heq']
        | inr hne' =>
            rw [heq, hself] at hi
            rw [Function.update_of_ne hne'] at hi'
            exact absurd hi' (hout q' i hi)
    | inr hne =>
        rw [Function.update_of_ne hne] at hi
        cases eq_or_ne q' p with
        | inl heq' =>
            rw [heq', hself] at hi'
            exact absurd hi (hout q i hi')
        | inr hne' =>
            rw [Function.update_of_ne hne'] at hi'
            exact h.disjoint q q' i hi hi'
  case free =>
    intro i hi
    unfold Disk.taken
    cases em (i ∈ new.chain) with
    | inl hmem =>
        rw [if_pos hmem]
        constructor
        · intro hfalse
          cases hfalse
        · intro hall
          have hp' := hall p
          rw [hself] at hp'
          exact absurd hmem hp'
    | inr hmem =>
        rw [if_neg hmem, h.free i hi]
        constructor
        · intro hall q
          cases eq_or_ne q p with
          | inl heq =>
              rw [heq, hself]
              exact hmem
          | inr hne =>
              rw [Function.update_of_ne hne]
              exact hall q
        · intro hall q
          cases eq_or_ne q p with
          | inl heq =>
              rw [heq, hp]
              exact List.not_mem_nil
          | inr hne =>
              have hq := hall q
              rwa [Function.update_of_ne hne] at hq

theorem give (h : Chains proc free) (p : P) (new : Proc B) (hnew : new.chain = []) :
    Chains (Function.update proc p new) fun i => if i ∈ (proc p).chain then true else free i := by
  have hself : (Function.update proc p new) p = new := Function.update_self _ _ _
  have hsub : ∀ q i, i ∈ (Function.update proc p new q).chain → q ≠ p ∧ i ∈ (proc q).chain := by
    intro q i hi
    cases eq_or_ne q p with
    | inl heq =>
        rw [heq, hself, hnew] at hi
        cases hi
    | inr hne =>
        rw [Function.update_of_ne hne] at hi
        exact ⟨hne, hi⟩
  constructor
  case nodup =>
    intro q
    cases eq_or_ne q p with
    | inl heq =>
        rw [heq, hself, hnew]
        exact List.nodup_nil
    | inr hne =>
        rw [Function.update_of_ne hne]
        exact h.nodup q
  case lt =>
    intro q i hi
    exact h.lt q i (hsub q i hi).2
  case disjoint =>
    intro q q' i hi hi'
    exact h.disjoint q q' i (hsub q i hi).2 (hsub q' i hi').2
  case free =>
    intro i hi
    split
    case isTrue hmem =>
      simp only [true_iff]
      intro q hq
      obtain ⟨hne, hq⟩ := hsub q i hq
      exact hne (h.disjoint q p i hq hmem)
    case isFalse hmem =>
      rw [h.free i hi]
      constructor
      · intro hall q hq
        exact hall q (hsub q i hq).2
      · intro hall q hq
        cases eq_or_ne q p with
        | inl heq =>
            rw [heq] at hq
            exact hmem hq
        | inr hne =>
            have hq' := hall q
            rw [Function.update_of_ne hne] at hq'
            exact hq' hq

end Chains

/-! ## Stages -/

/-- How far the request of a process has come. -/
inductive Stage where
  /-- not in a call, or before the descriptors are filled in -/
  | fresh
  | formatted
  | entered
  /-- in the avail ring -/
  | queued
  | fetched
  | finished
  /-- in the used ring -/
  | used
  /-- cleared, and the process has not noticed -/
  | cleared
  deriving DecidableEq

namespace Stage

def kind : Stage → Kind
  | .fresh => .returned
  | .formatted => .returned
  | .entered => .returned
  | .queued => .published
  | .fetched => .published
  | .finished => .published
  | .used => .completed
  | .cleared => .cleared

def disk : Stage → Bool
  | .fresh => false
  | .cleared => false
  | _ => true

def sent : Stage → Bool
  | .fresh => false
  | .formatted => false
  | .entered => false
  | _ => true

theorem eq_cleared {g : Stage} (hsent : g.sent = true) (hdisk : g.disk = false) : g = .cleared := by
  cases g <;> first | rfl | exact absurd hsent (by decide) | exact absurd hdisk (by decide)

def listed : Stage → Bool
  | .queued => true
  | .fetched => true
  | .finished => true
  | .used => true
  | _ => false

def Of (g : Stage) : Proc B → Prop
  | .idle => g = .fresh
  | .allocating _ => g = .fresh
  | .allocated _ _ => g = .fresh
  | .formatted _ _ => g = .formatted
  | .entered _ _ => g = .entered
  | .published _ _ => g.sent = true
  | .waiting _ _ => g.sent = true

end Stage

structure Submitted (s : State P B) (r : Request B) (idx : Idx) (g : Stage) : Prop where
  formatted : Formatted s.disk r idx
  info : g.disk = true → (s.disk.info idx.i0).b = some r.buf
  status : g = .finished ∨ g = .used → (s.disk.info idx.i0).status = 0
  slot : g = .entered → s.disk.avail.ring (s.disk.avail.idx.toNat % num) = .ofNat idx.i0

theorem Submitted.frame {s s' : State P B} {r : Request B} {idx : Idx} {g : Stage}
    (h : Submitted s r idx g)
    (hcells : ∀ i ∈ idx.toList, s'.disk.desc i = s.disk.desc i ∧ s'.disk.info i = s.disk.info i ∧
      s'.disk.ops i = s.disk.ops i)
    (havail : g = .entered → s'.disk.avail = s.disk.avail) : Submitted s' r idx g := by
  have hfirst := hcells idx.i0 (by simp [Idx.toList])
  constructor
  case formatted => exact h.formatted.frame (fun i hi => (hcells i hi).1) hfirst.2.2
  case info =>
    rw [hfirst.2.1]
    exact h.info
  case status =>
    rw [hfirst.2.1]
    exact h.status
  case slot =>
    intro hg
    rw [havail hg]
    exact h.slot hg

structure Fits [DecidableEq B] (s : State P B) (proc : Proc B) (g : Stage) : Prop where
  stage : g.Of proc
  buf : ∀ b, proc.buf = some b → s.bufDisk b = g.disk ∧ lastKind b s.history = g.kind
  submitted : ∀ r idx, proc.submitted = some (r, idx) → Submitted s r idx g

/-! ### Queues -/

structure Queue (stage : P → Stage) (g : Stage) (l : List P) : Prop where
  nodup : l.Nodup
  mem : ∀ p, p ∈ l ↔ stage p = g

namespace Queue

variable [DecidableEq P] {stage : P → Stage} {g g' : Stage} {l : List P} {p : P}

theorem push (h : Queue stage g l) (hp : stage p ≠ g) :
    Queue (Function.update stage p g) g (l ++ [p]) := by
  have hout : p ∉ l := fun hmem => hp ((h.mem p).mp hmem)
  constructor
  case nodup =>
    rw [← List.concat_eq_append]
    exact List.Nodup.concat hout h.nodup
  case mem =>
    intro q
    rw [List.mem_append, List.mem_singleton]
    cases eq_or_ne q p with
    | inl heq => simp [heq]
    | inr hne => simp [hne, h.mem q]

theorem erase (h : Queue stage g l) {k : Nat} (hk : l[k]? = some p) (hg : g' ≠ g) :
    Queue (Function.update stage p g') g (l.eraseIdx k) := by
  obtain ⟨hlt, heq⟩ := List.getElem?_eq_some_iff.mp hk
  have herase : l.eraseIdx k = l.erase p := by
    rw [← heq]
    exact (List.Nodup.erase_getElem h.nodup k hlt).symm
  constructor
  case nodup => exact h.nodup.sublist (List.eraseIdx_sublist l k)
  case mem =>
    intro q
    rw [herase, List.Nodup.mem_erase_iff h.nodup]
    cases eq_or_ne q p with
    | inl hq => simp [hq, hg]
    | inr hne => simp [hne, h.mem q]

theorem pop (h : Queue stage g (p :: l)) (hg : g' ≠ g) : Queue (Function.update stage p g') g l :=
  h.erase (k := 0) rfl hg

theorem other (h : Queue stage g l) (hp : stage p ≠ g) (hg : g' ≠ g) :
    Queue (Function.update stage p g') g l := by
  constructor
  case nodup => exact h.nodup
  case mem =>
    intro q
    rw [h.mem q]
    cases eq_or_ne q p with
    | inl hq => simp [hq, hp, hg]
    | inr hne => simp [hne]

end Queue

/-- The stages of all requests, and the order of those in the rings and in the device. -/
structure Ghost (P : Type) where
  stage : P → Stage
  queued : List P
  fetched : List P
  finished : List P
  used : List P

def State.head (s : State P B) (p : P) : Nat := (s.proc p).head

structure Rings (s : State P B) (G : Ghost P) : Prop where
  avail : window num s.disk.avail.ring s.lastAvail s.disk.avail.idx =
    G.queued.map fun p => UInt16.ofNat (s.head p)
  fetched : s.fetched = G.fetched.map s.head
  finished : s.finished = G.finished.map s.head
  used : window num s.disk.used.ring s.disk.usedIdx s.disk.used.idx =
    G.used.map fun p => UInt32.ofNat (s.head p)
  queued_mem : Queue G.stage .queued G.queued
  fetched_mem : Queue G.stage .fetched G.fetched
  finished_mem : Queue G.stage .finished G.finished
  used_mem : Queue G.stage .used G.used

theorem Rings.frame {s s' : State P B} {G : Ghost P} (h : Rings s G)
    (hhead : ∀ p, (G.stage p).listed = true → s'.head p = s.head p)
    (havail : window num s'.disk.avail.ring s'.lastAvail s'.disk.avail.idx =
      window num s.disk.avail.ring s.lastAvail s.disk.avail.idx)
    (hfetched : s'.fetched = s.fetched) (hfinished : s'.finished = s.finished)
    (hused : s'.disk.used = s.disk.used) (husedIdx : s'.disk.usedIdx = s.disk.usedIdx) :
    Rings s' G := by
  have hkept : ∀ {g : Stage} {l : List P}, Queue G.stage g l → g.listed = true →
      ∀ p ∈ l, s'.head p = s.head p := by
    intro g l hl hg p hp
    apply hhead
    rw [(hl.mem p).mp hp]
    exact hg
  constructor
  case avail =>
    rw [havail, h.avail]
    apply List.map_congr_left
    intro p hp
    rw [hkept h.queued_mem rfl p hp]
  case fetched =>
    rw [hfetched, h.fetched]
    apply List.map_congr_left
    intro p hp
    rw [hkept h.fetched_mem rfl p hp]
  case finished =>
    rw [hfinished, h.finished]
    apply List.map_congr_left
    intro p hp
    rw [hkept h.finished_mem rfl p hp]
  case used =>
    rw [hused, husedIdx, h.used]
    apply List.map_congr_left
    intro p hp
    rw [hkept h.used_mem rfl p hp]
  case queued_mem => exact h.queued_mem
  case fetched_mem => exact h.fetched_mem
  case finished_mem => exact h.finished_mem
  case used_mem => exact h.used_mem

/-- A request that is neither in a ring nor in the device goes on to such a stage. -/
theorem Rings.pass [DecidableEq P] {s s' : State P B} {G : Ghost P} {p : P} {g' : Stage}
    (h : Rings s G) (hothers : ∀ q, q ≠ p → s'.proc q = s.proc q)
    (hp : (G.stage p).listed = false) (hg : g'.listed = false)
    (havail : window num s'.disk.avail.ring s'.lastAvail s'.disk.avail.idx =
      window num s.disk.avail.ring s.lastAvail s.disk.avail.idx)
    (hfetched : s'.fetched = s.fetched) (hfinished : s'.finished = s.finished)
    (hused : s'.disk.used = s.disk.used) (husedIdx : s'.disk.usedIdx = s.disk.usedIdx) :
    Rings s' { G with stage := Function.update G.stage p g' } := by
  have hne : ∀ {g g'' : Stage}, g.listed = false → g''.listed = true → g ≠ g'' := by
    rintro g g'' hg hg'' rfl
    rw [hg] at hg''
    cases hg''
  have hhead : ∀ q, (G.stage q).listed = true → s'.head q = s.head q := by
    intro q hq
    have hqp : q ≠ p := by
      rintro rfl
      rw [hp] at hq
      cases hq
    rw [State.head, State.head, hothers q hqp]
  have hframe := h.frame hhead havail hfetched hfinished hused husedIdx
  constructor
  case avail => exact hframe.avail
  case fetched => exact hframe.fetched
  case finished => exact hframe.finished
  case used => exact hframe.used
  case queued_mem => exact h.queued_mem.other (hne hp rfl) (hne hg rfl)
  case fetched_mem => exact h.fetched_mem.other (hne hp rfl) (hne hg rfl)
  case finished_mem => exact h.finished_mem.other (hne hp rfl) (hne hg rfl)
  case used_mem => exact h.used_mem.other (hne hp rfl) (hne hg rfl)

namespace Rings

variable [DecidableEq P] {s s' : State P B} {G : Ghost P} {p : P}

theorem publish (h : Rings s G) (hp : G.stage p = .entered) (hhead : s'.head = s.head)
    (havail : window num s'.disk.avail.ring s'.lastAvail s'.disk.avail.idx =
      window num s.disk.avail.ring s.lastAvail s.disk.avail.idx ++ [UInt16.ofNat (s.head p)])
    (hfetched : s'.fetched = s.fetched) (hfinished : s'.finished = s.finished)
    (hused : s'.disk.used = s.disk.used) (husedIdx : s'.disk.usedIdx = s.disk.usedIdx) :
    Rings s' { G with stage := Function.update G.stage p .queued, queued := G.queued ++ [p] } := by
  constructor
  case avail => rw [havail, hhead, h.avail, List.map_append, List.map_singleton]
  case fetched => rw [hfetched, hhead, h.fetched]
  case finished => rw [hfinished, hhead, h.finished]
  case used => rw [hused, husedIdx, hhead, h.used]
  case queued_mem => exact h.queued_mem.push (by simp [hp])
  case fetched_mem => exact h.fetched_mem.other (by simp [hp]) (by simp)
  case finished_mem => exact h.finished_mem.other (by simp [hp]) (by simp)
  case used_mem => exact h.used_mem.other (by simp [hp]) (by simp)

theorem fetch (h : Rings s G) {queued : List P} (hp : G.queued = p :: queued)
    (hhead : s'.head = s.head)
    (havail : window num s'.disk.avail.ring s'.lastAvail s'.disk.avail.idx =
      queued.map fun p => UInt16.ofNat (s.head p))
    (hfetched : s'.fetched = s.fetched ++ [s.head p]) (hfinished : s'.finished = s.finished)
    (hused : s'.disk.used = s.disk.used) (husedIdx : s'.disk.usedIdx = s.disk.usedIdx) :
    Rings s' { G with
      stage := Function.update G.stage p .fetched, queued, fetched := G.fetched ++ [p] } := by
  have hqueued := h.queued_mem
  rw [hp] at hqueued
  have hstage : G.stage p = .queued := (hqueued.mem p).mp (by simp)
  constructor
  case avail => rw [havail, hhead]
  case fetched => rw [hfetched, hhead, h.fetched, List.map_append, List.map_singleton]
  case finished => rw [hfinished, hhead, h.finished]
  case used => rw [hused, husedIdx, hhead, h.used]
  case queued_mem => exact hqueued.pop (by simp)
  case fetched_mem => exact h.fetched_mem.push (by simp [hstage])
  case finished_mem => exact h.finished_mem.other (by simp [hstage]) (by simp)
  case used_mem => exact h.used_mem.other (by simp [hstage]) (by simp)

theorem finish (h : Rings s G) {k : Nat} (hp : G.fetched[k]? = some p) (hhead : s'.head = s.head)
    (havail : s'.disk.avail = s.disk.avail) (hlastAvail : s'.lastAvail = s.lastAvail)
    (hfetched : s'.fetched = s.fetched.eraseIdx k)
    (hfinished : s'.finished = s.finished ++ [s.head p])
    (hused : s'.disk.used = s.disk.used) (husedIdx : s'.disk.usedIdx = s.disk.usedIdx) :
    Rings s' { G with
      stage := Function.update G.stage p .finished, fetched := G.fetched.eraseIdx k
      finished := G.finished ++ [p] } := by
  have hstage : G.stage p = .fetched := (h.fetched_mem.mem p).mp (List.mem_of_getElem? hp)
  constructor
  case avail => rw [havail, hlastAvail, hhead, h.avail]
  case fetched => rw [hfetched, hhead, h.fetched, List.eraseIdx_map]
  case finished => rw [hfinished, hhead, h.finished, List.map_append, List.map_singleton]
  case used => rw [hused, husedIdx, hhead, h.used]
  case queued_mem => exact h.queued_mem.other (by simp [hstage]) (by simp)
  case fetched_mem => exact h.fetched_mem.erase hp (by simp)
  case finished_mem => exact h.finished_mem.push (by simp [hstage])
  case used_mem => exact h.used_mem.other (by simp [hstage]) (by simp)

theorem complete (h : Rings s G) {k : Nat} (hp : G.finished[k]? = some p) (hhead : s'.head = s.head)
    (havail : s'.disk.avail = s.disk.avail) (hlastAvail : s'.lastAvail = s.lastAvail)
    (hfetched : s'.fetched = s.fetched) (hfinished : s'.finished = s.finished.eraseIdx k)
    (hused : window num s'.disk.used.ring s'.disk.usedIdx s'.disk.used.idx =
      window num s.disk.used.ring s.disk.usedIdx s.disk.used.idx ++ [UInt32.ofNat (s.head p)]) :
    Rings s' { G with
      stage := Function.update G.stage p .used, finished := G.finished.eraseIdx k
      used := G.used ++ [p] } := by
  have hstage : G.stage p = .finished := (h.finished_mem.mem p).mp (List.mem_of_getElem? hp)
  constructor
  case avail => rw [havail, hlastAvail, hhead, h.avail]
  case fetched => rw [hfetched, hhead, h.fetched]
  case finished => rw [hfinished, hhead, h.finished, List.eraseIdx_map]
  case used => rw [hused, hhead, h.used, List.map_append, List.map_singleton]
  case queued_mem => exact h.queued_mem.other (by simp [hstage]) (by simp)
  case fetched_mem => exact h.fetched_mem.other (by simp [hstage]) (by simp)
  case finished_mem => exact h.finished_mem.erase hp (by simp)
  case used_mem => exact h.used_mem.push (by simp [hstage])

theorem clear (h : Rings s G) {used : List P} (hp : G.used = p :: used) (hhead : s'.head = s.head)
    (havail : s'.disk.avail = s.disk.avail) (hlastAvail : s'.lastAvail = s.lastAvail)
    (hfetched : s'.fetched = s.fetched) (hfinished : s'.finished = s.finished)
    (hused : window num s'.disk.used.ring s'.disk.usedIdx s'.disk.used.idx =
      used.map fun p => UInt32.ofNat (s.head p)) :
    Rings s' { G with stage := Function.update G.stage p .cleared, used } := by
  have hused_mem := h.used_mem
  rw [hp] at hused_mem
  have hstage : G.stage p = .used := (hused_mem.mem p).mp (by simp)
  constructor
  case avail => rw [havail, hlastAvail, hhead, h.avail]
  case fetched => rw [hfetched, hhead, h.fetched]
  case finished => rw [hfinished, hhead, h.finished]
  case used => rw [hused, hhead]
  case queued_mem => exact h.queued_mem.other (by simp [hstage]) (by simp)
  case fetched_mem => exact h.fetched_mem.other (by simp [hstage]) (by simp)
  case finished_mem => exact h.finished_mem.other (by simp [hstage]) (by simp)
  case used_mem => exact hused_mem.pop (by simp)

end Rings

structure Inv [DecidableEq B] (s : State P B) (G : Ghost P) : Prop where
  chains : Chains s.proc s.disk.free
  lock : ∀ p, (s.proc p).critical = true → s.lock = some (.process p)
  exclusive : ∀ p q b, (s.proc p).buf = some b → (s.proc q).buf = some b → p = q
  unused : ∀ b, (∀ p, (s.proc p).buf ≠ some b) →
    s.bufDisk b = false ∧ lastKind b s.history = .returned
  fits : ∀ p, Fits s (s.proc p) (G.stage p)
  rings : Rings s G
  orderly : Orderly s.history

end SyscallSched.Xv6.Virtio
