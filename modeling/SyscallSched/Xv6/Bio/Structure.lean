import Mathlib.Data.Fintype.Card
import SyscallSched.Xv6.Bio.Model

/-!
# The structure of the buffer cache

All buffers are in the ring, in the order in which `brelse` last took their `refcnt` to
zero.  All keys are equal at first; what stays true is that of two buffers with one key
the later one in the ring has not been used since it got it.
-/

namespace SyscallSched.Xv6.Bio

open SyscallSched.Foundation

def Buf.key (v : Buf) : UInt32 × UInt32 := (v.dev, v.blockno)

/-- The buffer holds no block that someone may look for. -/
def Buf.Unused (v : Buf) : Prop := v.valid = false ∧ v.refcnt = 0

def Bcache.Apart (c : Bcache) (x y : Fin nbuf) : Prop :=
  (c.buf x).key = (c.buf y).key → (c.buf y).Unused

def State.Younger (released : Fin nbuf → Nat) (x y : Fin nbuf) : Prop :=
  released y < released x ∨ released x = 0 ∧ released y = 0

def State.references (s : State) (b : Fin nbuf) : Nat :=
  s.waiting b + (if s.locked b = true then 1 else 0) + s.releasing b + s.pins b

structure Inv (s : State) (xs : List (Fin nbuf)) : Prop where
  ring : s.cache.links.Ring .head (xs.map .buf)
  all : ∀ b, b ∈ xs
  apart : xs.Pairwise s.cache.Apart
  aged : xs.Pairwise (State.Younger s.released)
  recent : ∀ b, s.released b ≤ s.now
  counts : ∀ b, (s.cache.buf b).refcnt = s.references b

/-! ## The ring -/

theorem buf_injective : Function.Injective Node.buf := by
  intro b c h
  injection h

theorem ring_nodup {l : Links Node} {xs : List (Fin nbuf)} (h : l.Ring .head (xs.map .buf)) :
    xs.Nodup :=
  (List.nodup_map_iff buf_injective).mp (List.nodup_cons.mp h.nodup).2

theorem ring_length {l : Links Node} {xs : List (Fin nbuf)} (h : l.Ring .head (xs.map .buf)) :
    xs.length ≤ nbuf := by
  have hle := List.Nodup.length_le_card (ring_nodup h)
  rwa [Fintype.card_fin] at hle

theorem ring_binit (c : Bcache) :
    c.binit.links.Ring .head ((List.finRange nbuf).reverse.map .buf) := by
  have halone := Links.ring_alone c.links Node.head
  have hnodup : ((List.finRange nbuf).map Node.buf).Nodup :=
    (List.nodup_map_iff buf_injective).mpr (List.nodup_finRange nbuf)
  have hall := halone.insertAll hnodup (by simp)
  rw [List.foldl_map, List.append_nil, ← List.map_reverse] at hall
  exact hall

theorem ring_front {l : Links Node} {front back : List (Fin nbuf)} {b : Fin nbuf}
    (h : l.Ring .head ((front ++ b :: back).map .buf)) :
    ((l.unlink (.buf b)).insertAfter .head (.buf b)).Ring .head
      ((b :: (front ++ back)).map .buf) := by
  have hb : b ∉ front ++ back := (List.nodup_middle.mp (ring_nodup h)).notMem
  rw [List.map_append, List.map_cons] at h
  rw [List.map_cons, List.map_append]
  apply h.unlink.insertAfter
  rw [← List.map_append]
  simpa using hb

def found (b : Option (Fin nbuf)) : Node := (b.map Node.buf).getD .head

theorem find_test (p : Fin nbuf → Bool) (xs : List (Fin nbuf)) :
    ((xs.map Node.buf).find? (Bcache.test p)).getD .head = found (xs.find? p) := by
  rw [List.find?_map]
  rfl

theorem searchNext_eq {c : Bcache} {xs : List (Fin nbuf)} (h : c.links.Ring .head (xs.map .buf))
    (p : Fin nbuf → Bool) : c.searchNext p = some (found (xs.find? p)) := by
  have hlength := ring_length h
  have hfirst : c.links.next .head = (xs.map Node.buf).headD .head := h.next.1
  rw [Bcache.searchNext, hfirst,
    h.next.2.search_eq (List.nodup_cons.mp h.nodup).1 _ (by simp; omega),
    find_test]

theorem searchPrev_eq {c : Bcache} {xs : List (Fin nbuf)} (h : c.links.Ring .head (xs.map .buf))
    (p : Fin nbuf → Bool) : c.searchPrev p = some (found (xs.reverse.find? p)) := by
  have hlength := ring_length h
  have hprev := h.prev
  rw [← List.map_reverse] at hprev
  have hlast : c.links.prev .head = (xs.reverse.map Node.buf).headD .head := hprev.1
  rw [Bcache.searchPrev, hlast, hprev.2.search_eq (by simp) _ (by simp; omega), find_test]

/-! ## Changing one buffer -/

namespace Bcache

variable {c : Bcache} {b y : Fin nbuf} {v : Buf} {front back xs : List (Fin nbuf)}

@[simp] theorem setBuf_links (c : Bcache) (b : Fin nbuf) (v : Buf) :
    (c.setBuf b v).links = c.links := rfl

@[simp] theorem setBuf_self (c : Bcache) (b : Fin nbuf) (v : Buf) : (c.setBuf b v).buf b = v := by
  simp [setBuf]

theorem setBuf_ne (c : Bcache) (v : Buf) (h : y ≠ b) : (c.setBuf b v).buf y = c.buf y := by
  simp [setBuf, h]

theorem apart_setBuf (h : (front ++ b :: back).Pairwise c.Apart)
    (hnodup : (front ++ b :: back).Nodup)
    (hfront : ∀ x ∈ front, (c.buf x).key ≠ v.key)
    (hback : ∀ y ∈ back, v.key = (c.buf y).key → (c.buf y).Unused) :
    (front ++ b :: back).Pairwise (c.setBuf b v).Apart := by
  have hb : b ∉ front ++ back := (List.nodup_middle.mp hnodup).notMem
  have hkept : ∀ x ∈ front ++ back, (c.setBuf b v).buf x = c.buf x := by
    intro x hx
    apply setBuf_ne
    rintro rfl
    exact hb hx
  rw [List.pairwise_append, List.pairwise_cons] at h ⊢
  obtain ⟨hfirst, ⟨_, hlast⟩, hcross⟩ := h
  refine ⟨hfirst.imp_of_mem ?_, ⟨?_, hlast.imp_of_mem ?_⟩, ?_⟩
  · intro x y hx hy hxy
    rw [Apart, hkept x (by simp [hx]), hkept y (by simp [hy])]
    exact hxy
  · intro y hy
    rw [Apart, setBuf_self, hkept y (by simp [hy])]
    exact hback y hy
  · intro x y hx hy hxy
    rw [Apart, hkept x (by simp [hx]), hkept y (by simp [hy])]
    exact hxy
  · intro x hx y hy
    rw [Apart, hkept x (by simp [hx])]
    cases List.mem_cons.mp hy with
    | inl heq =>
        rw [heq, setBuf_self]
        intro hkey
        exact absurd hkey (hfront x hx)
    | inr hmem =>
        rw [hkept y (by simp [hmem])]
        exact hcross x hx y hy

theorem key_ne_of_apart (h : (front ++ b :: back).Pairwise c.Apart) (hb : 0 < (c.buf b).refcnt) :
    ∀ x ∈ front, (c.buf x).key ≠ (c.buf b).key := by
  intro x hx hkey
  have hunused := (List.pairwise_append.mp h).2.2 x hx b (by simp) hkey
  have hzero := hunused.2
  omega

theorem apart_touch (h : xs.Pairwise c.Apart) (hnodup : xs.Nodup) (hmem : b ∈ xs)
    (hb : 0 < (c.buf b).refcnt) (hkey : v.key = (c.buf b).key) :
    xs.Pairwise (c.setBuf b v).Apart := by
  obtain ⟨front, back, rfl⟩ := List.append_of_mem hmem
  apply apart_setBuf h hnodup
  · rw [hkey]
    exact key_ne_of_apart h hb
  · intro y hy hvy
    rw [hkey] at hvy
    exact (List.pairwise_cons.mp (List.pairwise_append.mp h).2.1).1 y hy hvy

theorem apart_front (h : (front ++ b :: back).Pairwise c.Apart) (hb : 0 < (c.buf b).refcnt) :
    (b :: (front ++ back)).Pairwise c.Apart := by
  have hne := key_ne_of_apart h hb
  rw [List.pairwise_append, List.pairwise_cons] at h
  obtain ⟨hfirst, ⟨hb', hlast⟩, hcross⟩ := h
  rw [List.pairwise_cons, List.pairwise_append]
  refine ⟨?_, hfirst, hlast, ?_⟩
  · intro y hy hkey
    cases List.mem_append.mp hy with
    | inl hmem => exact absurd hkey.symm (hne y hmem)
    | inr hmem => exact hb' y hmem hkey
  · intro x hx y hy
    exact hcross x hx y (by simp [hy])

theorem counts_setBuf {r r' : Fin nbuf → Nat} (h : ∀ y, (c.buf y).refcnt = r y)
    (hb : v.refcnt = r' b)
    (hother : ∀ y, y ≠ b → r' y = r y) (y : Fin nbuf) : ((c.setBuf b v).buf y).refcnt = r' y := by
  cases eq_or_ne y b with
  | inl heq => rw [heq, setBuf_self, hb]
  | inr hne => rw [setBuf_ne c v hne, h, hother y hne]

/-! ## What the functions do -/

theorem unref_buf (c : Bcache) (b : Fin nbuf) :
    (c.unref b).buf = (c.setBuf b { c.buf b with refcnt := (c.buf b).refcnt - 1 }).buf := by
  simp only [unref]
  split
  case isTrue => rfl
  case isFalse => rfl

theorem caches_iff (c : Bcache) (dev blockno : UInt32) (b : Fin nbuf) :
    c.Caches dev blockno b ↔ (c.buf b).key = (dev, blockno) := by
  rw [Caches, Buf.key, Prod.mk.injEq]

/-- `bget` takes the first buffer with the key if there is one. -/
theorem bget_cases (h : c.links.Ring .head (xs.map .buf)) (dev blockno : UInt32) :
    (∃ front b back, xs = front ++ b :: back ∧ (c.buf b).key = (dev, blockno) ∧
      (∀ x ∈ front, (c.buf x).key ≠ (dev, blockno)) ∧
      c.bget dev blockno = .ok (b, c.setBuf b { c.buf b with refcnt := (c.buf b).refcnt + 1 })) ∨
    (∀ x ∈ xs, (c.buf x).key ≠ (dev, blockno)) ∧ c.bget dev blockno = c.recycle dev blockno := by
  unfold bget
  rw [searchNext_eq h]
  cases hfind : xs.find? fun b => decide (c.Caches dev blockno b) with
  | none =>
      right
      have hnone := List.find?_eq_none.mp hfind
      simp only [decide_eq_true_eq, caches_iff] at hnone
      exact ⟨hnone, rfl⟩
  | some b =>
      left
      obtain ⟨hb, front, back, hxs, hfront⟩ := List.find?_eq_some_iff_append.mp hfind
      simp only [decide_eq_true_eq, caches_iff, Bool.not_eq_true', decide_eq_false_iff_not]
        at hb hfront
      exact ⟨front, b, back, hxs, hb, hfront, rfl⟩

/-- The last buffer of the ring that is not in use is recycled if there is one. -/
theorem recycle_cases (h : c.links.Ring .head (xs.map .buf)) (dev blockno : UInt32) :
    (∀ x ∈ xs, 0 < (c.buf x).refcnt) ∧ c.recycle dev blockno = .error .noBuffers ∨
    ∃ front b back, xs = front ++ b :: back ∧ (c.buf b).refcnt = 0 ∧
      (∀ x ∈ back, 0 < (c.buf x).refcnt) ∧
      c.recycle dev blockno =
        .ok (b, c.setBuf b { dev, blockno, valid := false, refcnt := 1 }) := by
  unfold recycle
  rw [searchPrev_eq h]
  cases hfind : xs.reverse.find? fun b => (c.buf b).refcnt == 0 with
  | none =>
      left
      have hnone := List.find?_eq_none.mp hfind
      simp only [beq_iff_eq, List.mem_reverse] at hnone
      exact ⟨fun x hx => Nat.pos_of_ne_zero (hnone x hx), rfl⟩
  | some b =>
      right
      obtain ⟨hb, back, front, hxs, hback⟩ := List.find?_eq_some_iff_append.mp hfind
      have hsplit : xs = front.reverse ++ b :: back.reverse := by
        rw [← List.reverse_reverse xs, hxs]
        simp
      simp only [beq_iff_eq, Bool.not_eq_true', beq_eq_false_iff_ne] at hb hback
      refine ⟨front.reverse, b, back.reverse, hsplit, hb, ?_, rfl⟩
      intro x hx
      exact Nat.pos_of_ne_zero (hback x (List.mem_reverse.mp hx))

end Bcache

/-! ## The invariant -/

namespace Inv

variable {s s' : State} {xs : List (Fin nbuf)} {b : Fin nbuf}

theorem initial (links : Links Node) : Inv (State.initial links) (List.finRange nbuf).reverse := by
  constructor
  case ring => exact ring_binit _
  case all => simp
  case apart => exact List.pairwise_of_forall fun x y _ => ⟨rfl, rfl⟩
  case aged => exact List.pairwise_of_forall fun x y => Or.inr ⟨rfl, rfl⟩
  case recent => exact fun b => Nat.le_refl 0
  case counts => exact fun b => rfl

theorem bget (h : Inv s xs) {dev blockno : UInt32} {cache : Bcache}
    (hget : s.cache.bget dev blockno = .ok (b, cache)) :
    Inv { s with cache, waiting := Function.update s.waiting b (s.waiting b + 1) } xs := by
  have hcounts := h.counts b
  unfold State.references at hcounts
  have hother : ∀ y, y ≠ b → State.references
      { s with cache, waiting := Function.update s.waiting b (s.waiting b + 1) } y =
        s.references y := by
    intro y hne
    simp [State.references, hne]
  cases s.cache.bget_cases h.ring dev blockno with
  | inl hhit =>
      obtain ⟨front, b', back, rfl, hkey, hfront, heq⟩ := hhit
      rw [hget] at heq
      injection heq with heq
      injection heq with hb hcache
      subst hb hcache
      constructor
      case ring => exact h.ring
      case all => exact h.all
      case aged => exact h.aged
      case recent => exact h.recent
      case apart =>
        apply Bcache.apart_setBuf h.apart (ring_nodup h.ring)
        · intro x hx hsame
          exact hfront x hx (hsame.trans hkey)
        · intro y hy hvy
          exact (List.pairwise_cons.mp (List.pairwise_append.mp h.apart).2.1).1 y hy hvy
      case counts =>
        apply Bcache.counts_setBuf h.counts _ hother
        simp [State.references]
        omega
  | inr hmiss =>
      obtain ⟨hnone, heq⟩ := hmiss
      cases s.cache.recycle_cases h.ring dev blockno with
      | inl hfull =>
          rw [hget, hfull.2] at heq
          cases heq
      | inr hfree =>
          obtain ⟨front, b', back, rfl, hzero, hback, hrecycle⟩ := hfree
          rw [hget, hrecycle] at heq
          injection heq with heq
          injection heq with hb hcache
          subst hb hcache
          constructor
          case ring => exact h.ring
          case all => exact h.all
          case aged => exact h.aged
          case recent => exact h.recent
          case apart =>
            apply Bcache.apart_setBuf h.apart (ring_nodup h.ring)
            · intro x hx
              exact hnone x (by simp [hx])
            · intro y hy hvy
              exact absurd hvy.symm (hnone y (by simp [hy]))
          case counts =>
            apply Bcache.counts_setBuf h.counts _ hother
            simp [State.references]
            omega

theorem passed (h : Inv s xs) (hcache : s'.cache = s.cache) (hreleased : s'.released = s.released)
    (hnow : s'.now = s.now) (hcounts : ∀ y, s'.references y = s.references y) : Inv s' xs := by
  constructor
  case ring =>
    rw [hcache]
    exact h.ring
  case all => exact h.all
  case apart =>
    rw [hcache]
    exact h.apart
  case aged =>
    rw [hreleased]
    exact h.aged
  case recent =>
    rw [hreleased, hnow]
    exact h.recent
  case counts =>
    intro y
    rw [hcache, hcounts]
    exact h.counts y

theorem touched (h : Inv s xs) {v : Buf} (hb : 0 < (s.cache.buf b).refcnt)
    (hkey : v.key = (s.cache.buf b).key) (hcache : s'.cache = s.cache.setBuf b v)
    (hreleased : s'.released = s.released) (hnow : s'.now = s.now)
    (hcounts : v.refcnt = s'.references b)
    (hother : ∀ y, y ≠ b → s'.references y = s.references y) :
    Inv s' xs := by
  constructor
  case ring =>
    rw [hcache]
    exact h.ring
  case all => exact h.all
  case apart =>
    rw [hcache]
    exact Bcache.apart_touch h.apart (ring_nodup h.ring) (h.all b) hb hkey
  case aged =>
    rw [hreleased]
    exact h.aged
  case recent =>
    rw [hreleased, hnow]
    exact h.recent
  case counts =>
    rw [hcache]
    exact Bcache.counts_setBuf h.counts hcounts hother

theorem younger_front {released : Fin nbuf → Nat} {front back : List (Fin nbuf)} {now : Nat}
    (h : (front ++ b :: back).Pairwise (State.Younger released)) (hb : b ∉ front ++ back)
    (hrecent : ∀ y, released y ≤ now) :
    (b :: (front ++ back)).Pairwise (State.Younger (Function.update released b (now + 1))) := by
  rw [List.pairwise_cons]
  constructor
  · intro y hy
    left
    have hne : y ≠ b := by
      rintro rfl
      exact hb hy
    rw [Function.update_self, Function.update_of_ne hne]
    exact Nat.lt_succ_of_le (hrecent y)
  · have hrest : (front ++ back).Pairwise (State.Younger released) := h.sublist (by simp)
    refine hrest.imp_of_mem ?_
    intro x y hx hy hxy
    have hx' : x ≠ b := by
      rintro rfl
      exact hb hx
    have hy' : y ≠ b := by
      rintro rfl
      exact hb hy
    unfold State.Younger
    rw [Function.update_of_ne hx', Function.update_of_ne hy']
    exact hxy

theorem moved (h : Inv s xs) {v : Buf} (hb : 0 < (s.cache.buf b).refcnt)
    (hkey : v.key = (s.cache.buf b).key) (hbuf : s'.cache.buf = (s.cache.setBuf b v).buf)
    (hlinks : s'.cache.links = (s.cache.links.unlink (.buf b)).insertAfter .head (.buf b))
    (hreleased : s'.released = Function.update s.released b (s.now + 1)) (hnow : s'.now = s.now + 1)
    (hcounts : v.refcnt = s'.references b)
    (hother : ∀ y, y ≠ b → s'.references y = s.references y) :
    ∃ ys, Inv s' ys := by
  have hnodup := ring_nodup h.ring
  obtain ⟨front, back, rfl⟩ := List.append_of_mem (h.all b)
  have hout := List.nodup_cons.mp (List.nodup_middle.mp hnodup)
  refine ⟨b :: (front ++ back), ?_⟩
  constructor
  case ring =>
    rw [hlinks]
    exact ring_front h.ring
  case all =>
    intro y
    have hy := h.all y
    simp only [List.mem_append, List.mem_cons] at hy ⊢
    tauto
  case apart =>
    have hfront := Bcache.apart_touch (Bcache.apart_front h.apart hb) (List.nodup_middle.mp hnodup)
      (by simp) hb hkey
    refine hfront.imp ?_
    intro x y hxy
    unfold Bcache.Apart
    rw [hbuf]
    exact hxy
  case aged =>
    rw [hreleased]
    exact younger_front h.aged hout.1 h.recent
  case recent =>
    intro y
    rw [hreleased, hnow]
    cases eq_or_ne y b with
    | inl heq => rw [heq, Function.update_self]
    | inr hne =>
        rw [Function.update_of_ne hne]
        exact Nat.le_succ_of_le (h.recent y)
  case counts =>
    rw [hbuf]
    exact Bcache.counts_setBuf h.counts hcounts hother

theorem unref (h : Inv s xs) (ha : 0 < s.releasing b) : ∃ ys, Inv (s.unref b) ys := by
  have hcounts := h.counts b
  unfold State.references at hcounts
  have hb : 0 < (s.cache.buf b).refcnt := by omega
  cases Nat.eq_zero_or_pos ((s.cache.buf b).refcnt - 1) with
  | inl hzero =>
      apply h.moved (b := b)
        (v := { s.cache.buf b with refcnt := (s.cache.buf b).refcnt - 1 }) hb rfl
      all_goals simp [State.unref, Bcache.unref, hzero, State.references]
      · omega
      · intro y hne
        simp [hne]
  | inr hpos =>
      have hne : (s.cache.buf b).refcnt - 1 ≠ 0 := Nat.ne_of_gt hpos
      refine ⟨xs, h.touched (b := b)
        (v := { s.cache.buf b with refcnt := (s.cache.buf b).refcnt - 1 })
        hb rfl ?_ ?_ ?_ ?_ ?_⟩
      all_goals simp [State.unref, Bcache.unref, hne, State.references]
      · omega
      · intro y hne
        simp [hne]

theorem step (h : Inv s xs) (a : Action) (ha : s.Allowed a) (hstep : s.step a = .ok s') :
    ∃ ys, Inv s' ys := by
  cases a with
  | bget dev blockno =>
      cases hget : s.cache.bget dev blockno with
      | error e =>
          rw [State.step, hget] at hstep
          cases hstep
      | ok r =>
          rw [State.step, hget] at hstep
          cases hstep
          exact ⟨xs, h.bget hget⟩
  | acquiresleep b =>
      obtain ⟨hwaiting, hlocked⟩ := ha
      cases hstep
      refine ⟨xs, h.passed rfl rfl rfl ?_⟩
      intro y
      cases eq_or_ne y b with
      | inl heq =>
          rw [heq]
          simp [State.references, hlocked]
          omega
      | inr hne => simp [State.references, hne]
  | fill b =>
      have hcounts := h.counts b
      cases hstep
      have hb : 0 < (s.cache.buf b).refcnt := by
        rw [hcounts, State.references, if_pos ha.1]
        omega
      exact ⟨xs, h.touched (b := b) (v := { s.cache.buf b with valid := true }) hb rfl rfl rfl rfl
        hcounts fun _ _ => rfl⟩
  | brelse b =>
      have hlocked : s.locked b = true := ha
      rw [State.step, if_pos hlocked] at hstep
      cases hstep
      refine ⟨xs, h.passed rfl rfl rfl ?_⟩
      intro y
      cases eq_or_ne y b with
      | inl heq =>
          rw [heq]
          simp [State.references, hlocked]
          omega
      | inr hne => simp [State.references, hne]
  | unref b =>
      cases hstep
      exact h.unref ha
  | bpin b =>
      have hlocked : s.locked b = true := ha
      have hcounts := h.counts b
      cases hstep
      have hb : 0 < (s.cache.buf b).refcnt := by
        rw [hcounts, State.references, if_pos hlocked]
        omega
      refine ⟨xs, h.touched (b := b)
        (v := { s.cache.buf b with refcnt := (s.cache.buf b).refcnt + 1 })
        hb rfl rfl rfl rfl ?_ ?_⟩
      · simp [hcounts, State.references]
        omega
      · intro y hne
        simp [State.references, hne]
  | bunpin b =>
      have hpins : 0 < s.pins b := ha
      have hcounts := h.counts b
      cases hstep
      have hb : 0 < (s.cache.buf b).refcnt := by
        rw [hcounts, State.references]
        omega
      refine ⟨xs, h.touched (b := b)
        (v := { s.cache.buf b with refcnt := (s.cache.buf b).refcnt - 1 })
        hb rfl rfl rfl rfl ?_ ?_⟩
      · simp [hcounts, State.references]
        omega
      · intro y hne
        simp [State.references, hne]

theorem of_reachable (h : Reachable s) : ∃ xs, Inv s xs := by
  induction h with
  | initial links => exact ⟨_, initial links⟩
  | step a _ ha hstep ih =>
      obtain ⟨xs, hxs⟩ := ih
      exact hxs.step a ha hstep

theorem eq_of_key (h : Inv s xs) {b c : Fin nbuf} (hb : ¬ (s.cache.buf b).Unused)
    (hc : ¬ (s.cache.buf c).Unused) (hkey : (s.cache.buf b).key = (s.cache.buf c).key) : b = c := by
  obtain ⟨front, back, rfl⟩ := List.append_of_mem (h.all b)
  have hapart := List.pairwise_append.mp h.apart
  cases List.mem_append.mp (h.all c) with
  | inl hfront => exact absurd (hapart.2.2 c hfront b (by simp) hkey.symm) hb
  | inr hrest =>
      cases List.mem_cons.mp hrest with
      | inl heq => exact heq.symm
      | inr hback => exact absurd ((List.pairwise_cons.mp hapart.2.1).1 c hback hkey) hc

/-- Every call but a miss with all buffers in use succeeds. -/
theorem error_of_step (h : Inv s xs) {a : Action} {e : Panic} (ha : s.Allowed a)
    (hstep : s.step a = .error e) : e = .noBuffers ∧ ∀ b, 0 < (s.cache.buf b).refcnt := by
  cases a with
  | bget dev blockno =>
      cases s.cache.bget_cases h.ring dev blockno with
      | inl hhit =>
          obtain ⟨front, b, back, _, _, _, hget⟩ := hhit
          rw [State.step, hget] at hstep
          cases hstep
      | inr hmiss =>
          cases s.cache.recycle_cases h.ring dev blockno with
          | inl hfull =>
              rw [State.step, hmiss.2, hfull.2] at hstep
              cases hstep
              exact ⟨rfl, fun b => hfull.1 b (h.all b)⟩
          | inr hfree =>
              obtain ⟨front, b, back, _, _, _, hrecycle⟩ := hfree
              rw [State.step, hmiss.2, hrecycle] at hstep
              cases hstep
  | brelse b =>
      have hlocked : s.locked b = true := ha
      rw [State.step, if_pos hlocked] at hstep
      cases hstep
  | acquiresleep b => cases hstep
  | fill b => cases hstep
  | unref b => cases hstep
  | bpin b => cases hstep
  | bunpin b => cases hstep

end Inv

/-! ## What holds in every run -/

namespace State

def Keeps (s s' : State) (b : Fin nbuf) : Prop :=
  (s'.cache.buf b).key = (s.cache.buf b).key ∧
    ((s.cache.buf b).valid = true → (s'.cache.buf b).valid = true)

theorem keeps_setBuf {s s' : State} {b y : Fin nbuf} {v : Buf}
    (h : s'.cache.buf = (s.cache.setBuf b v).buf)
    (hkey : v.key = (s.cache.buf b).key) (hvalid : (s.cache.buf b).valid = true → v.valid = true) :
    s.Keeps s' y := by
  unfold Keeps
  rw [h]
  cases eq_or_ne y b with
  | inl heq =>
      rw [heq, Bcache.setBuf_self]
      exact ⟨hkey, hvalid⟩
  | inr hne =>
      rw [Bcache.setBuf_ne s.cache v hne]
      exact ⟨rfl, id⟩

theorem keeps_refl (s s' : State) (b : Fin nbuf) (h : s'.cache.buf = s.cache.buf) :
    s.Keeps s' b := by
  unfold Keeps
  rw [h]
  exact ⟨rfl, id⟩

theorem unref_cache (s : State) (b : Fin nbuf) : (s.unref b).cache = s.cache.unref b := by
  simp only [unref]
  split
  case isTrue => rfl
  case isFalse => rfl

/-- A buffer in use keeps its block. -/
theorem keeps_of_step {s s' : State} {xs : List (Fin nbuf)} (h : Inv s xs) {a : Action}
    (hstep : s.step a = .ok s') {b : Fin nbuf} (hb : 0 < (s.cache.buf b).refcnt) :
    s.Keeps s' b := by
  cases a with
  | bget dev blockno =>
      cases s.cache.bget_cases h.ring dev blockno with
      | inl hhit =>
          obtain ⟨front, b', back, _, _, _, hget⟩ := hhit
          rw [step, hget] at hstep
          cases hstep
          exact keeps_setBuf rfl rfl id
      | inr hmiss =>
          cases s.cache.recycle_cases h.ring dev blockno with
          | inl hfull =>
              rw [step, hmiss.2, hfull.2] at hstep
              cases hstep
          | inr hfree =>
              obtain ⟨front, b', back, _, hzero, _, hrecycle⟩ := hfree
              rw [step, hmiss.2, hrecycle] at hstep
              cases hstep
              have hne : b ≠ b' := by
                rintro rfl
                omega
              unfold Keeps
              rw [Bcache.setBuf_ne s.cache _ hne]
              exact ⟨rfl, id⟩
  | acquiresleep b' =>
      cases hstep
      exact keeps_refl _ _ _ rfl
  | fill b' =>
      cases hstep
      exact keeps_setBuf rfl rfl fun _ => rfl
  | brelse b' =>
      rw [step] at hstep
      split at hstep
      case isTrue =>
        cases hstep
        exact keeps_refl _ _ _ rfl
      case isFalse => cases hstep
  | unref b' =>
      cases hstep
      have hbuf := s.cache.unref_buf b'
      rw [← unref_cache] at hbuf
      exact keeps_setBuf hbuf rfl id
  | bpin b' =>
      cases hstep
      exact keeps_setBuf rfl rfl id
  | bunpin b' =>
      cases hstep
      exact keeps_setBuf rfl rfl id

/-- What a miss does: it takes, of the buffers that nobody uses, the one that was released
first, and there is no panic unless all are in use. -/
def Recycles (s : State) (dev blockno : UInt32) : Prop :=
  (∀ b, 0 < (s.cache.buf b).refcnt) ∧ s.cache.bget dev blockno = .error .noBuffers ∨
  ∃ b, (s.cache.buf b).refcnt = 0 ∧
    s.cache.bget dev blockno =
      .ok (b, s.cache.setBuf b { dev, blockno, valid := false, refcnt := 1 }) ∧
    ∀ c, c ≠ b → (s.cache.buf c).refcnt = 0 → Younger s.released c b

theorem recycles {s : State} {xs : List (Fin nbuf)} (h : Inv s xs) {dev blockno : UInt32}
    (hmiss : ∀ b, ¬ s.cache.Caches dev blockno b) : s.Recycles dev blockno := by
  have hget : s.cache.bget dev blockno = s.cache.recycle dev blockno := by
    cases s.cache.bget_cases h.ring dev blockno with
    | inl hhit =>
        obtain ⟨front, b, back, _, hkey, _⟩ := hhit
        exact absurd ((s.cache.caches_iff dev blockno b).mpr hkey) (hmiss b)
    | inr hmiss => exact hmiss.2
  unfold Recycles
  rw [hget]
  cases s.cache.recycle_cases h.ring dev blockno with
  | inl hfull => exact Or.inl ⟨fun b => hfull.1 b (h.all b), hfull.2⟩
  | inr hfree =>
      obtain ⟨front, b, back, rfl, hzero, hback, hrecycle⟩ := hfree
      refine Or.inr ⟨b, hzero, hrecycle, ?_⟩
      intro c hne hc
      cases List.mem_append.mp (h.all c) with
      | inl hfront => exact (List.pairwise_append.mp h.aged).2.2 c hfront b (by simp)
      | inr hrest =>
          cases List.mem_cons.mp hrest with
          | inl heq => exact absurd heq hne
          | inr hmem =>
              have hpos := hback c hmem
              omega

structure Sound (s : State) : Prop where
  ring : ∃ xs : List (Fin nbuf), s.cache.links.Ring .head (xs.map .buf) ∧ xs.Nodup ∧ ∀ b, b ∈ xs
  distinct : ∀ b c : Fin nbuf,
    0 < (s.cache.buf b).refcnt ∨ (s.cache.buf b).valid = true →
    0 < (s.cache.buf c).refcnt ∨ (s.cache.buf c).valid = true →
    (s.cache.buf b).dev = (s.cache.buf c).dev → (s.cache.buf b).blockno = (s.cache.buf c).blockno →
      b = c
  pinned : ∀ b, 0 < s.pins b → 0 < (s.cache.buf b).refcnt
  kept : ∀ a s', s.Allowed a → s.step a = .ok s' → ∀ b, 0 < (s.cache.buf b).refcnt → s.Keeps s' b
  miss : ∀ dev blockno, (∀ b, ¬ s.cache.Caches dev blockno b) → s.Recycles dev blockno
  ends : ∀ a e, s.Allowed a → s.step a = .error e →
    e = .noBuffers ∧ ∀ b, 0 < (s.cache.buf b).refcnt

end State

theorem not_unused {v : Buf} (h : 0 < v.refcnt ∨ v.valid = true) : ¬ v.Unused := by
  intro hunused
  cases h with
  | inl hpos => exact Nat.ne_of_gt hpos hunused.2
  | inr hvalid =>
      rw [hunused.1] at hvalid
      cases hvalid

theorem bufferCache_sound {s : State} (h : Reachable s) : s.Sound := by
  obtain ⟨xs, hinv⟩ := Inv.of_reachable h
  constructor
  case ring => exact ⟨xs, hinv.ring, ring_nodup hinv.ring, hinv.all⟩
  case distinct =>
    intro b c hb hc hdev hblockno
    exact hinv.eq_of_key (not_unused hb) (not_unused hc) (Prod.ext hdev hblockno)
  case pinned =>
    intro b hb
    rw [hinv.counts b, State.references]
    omega
  case kept =>
    intro a s' _ hstep b hb
    exact State.keeps_of_step hinv hstep hb
  case miss =>
    intro dev blockno hmiss
    exact State.recycles hinv hmiss
  case ends =>
    intro a e ha hstep
    exact hinv.error_of_step ha hstep

/-- The block 1 is pinned, and read once more after 29 others have been read: the block 31
then takes the buffer of the block 2. -/
def pinAndRecycle : List Action :=
  let use (k : Nat) : List Action :=
    let b : Fin nbuf := Fin.ofNat 30 k
    [.bget 1 (UInt32.ofNat (k + 1)), .acquiresleep b, .fill b] ++
      (if k = 0 then [.bpin b] else []) ++ [.brelse b, .unref b]
  (List.range 30).flatMap use ++ [.bget 1 1, .bget 1 31]

theorem bufferCache_sound_recycled : ∃ s : State,
    (State.initial ⟨id, id⟩).run pinAndRecycle = some s ∧ s.pins (Fin.ofNat 30 0) = 1 ∧
      s.cache.buf (Fin.ofNat 30 0) = ⟨1, 1, true, 2⟩ ∧
      s.cache.buf (Fin.ofNat 30 1) = ⟨1, 31, false, 1⟩ ∧ s.Sound := by
  have heval : ((State.initial ⟨id, id⟩).run pinAndRecycle).map (fun s =>
      (s.pins (Fin.ofNat 30 0), s.cache.buf (Fin.ofNat 30 0), s.cache.buf (Fin.ofNat 30 1))) =
      some (1, ⟨1, 1, true, 2⟩, ⟨1, 31, false, 1⟩) := by
    decide +kernel
  obtain ⟨s, hrun, hs⟩ := Option.map_eq_some_iff.1 heval
  simp only [Prod.mk.injEq] at hs
  obtain ⟨hpins, hpinned, hrecycled⟩ := hs
  have h : Reachable s := (Reachable.initial ⟨id, id⟩).run hrun
  exact ⟨s, hrun, hpins, hpinned, hrecycled, bufferCache_sound h⟩

end SyscallSched.Xv6.Bio
