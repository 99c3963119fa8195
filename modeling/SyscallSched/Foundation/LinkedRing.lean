import Mathlib.Data.List.Basic
import Mathlib.Logic.Function.Basic

/-!
# Paths through linked cells

`Path next l y` says that `next` leads from each element of `l` to the following one,
and from the last one to `y`.  A cycle is a path that leads back to its first element.
-/

namespace SyscallSched.Foundation

variable {α : Type}

def Path (next : α → α) : List α → α → Prop
  | [], _ => True
  | x :: l, y => next x = l.headD y ∧ Path next l y

namespace Path

variable {next next' : α → α} {l l' : List α} {x y : α}

theorem headD_append (l l' : List α) (y : α) :
    (l ++ l').headD y = l.headD (l'.headD y) := by
  cases l <;> rfl

theorem append_iff : Path next (l ++ l') y ↔ Path next l (l'.headD y) ∧ Path next l' y := by
  induction l with
  | nil => exact (iff_of_eq (true_and _)).symm
  | cons x l ih =>
      rw [List.cons_append, Path, Path, ih, headD_append, and_assoc]

theorem split_iff : Path next (l ++ x :: l') y ↔
    Path next l x ∧ next x = l'.headD y ∧ Path next l' y :=
  append_iff

theorem congr (h : Path next l y) (hnext : ∀ x ∈ l, next' x = next x) : Path next' l y := by
  induction l with
  | nil => trivial
  | cons x l ih =>
      refine ⟨?_, ih h.2 fun z hz => hnext z (List.mem_cons_of_mem x hz)⟩
      rw [hnext x List.mem_cons_self]
      exact h.1

theorem rotate (h : Path next (l ++ x :: l') (l.headD x)) : Path next (x :: (l' ++ l)) x := by
  obtain ⟨hfirst, hx, hlast⟩ := split_iff.mp h
  have hround : Path next ((x :: l') ++ l) x := append_iff.mpr ⟨⟨hx, hlast⟩, hfirst⟩
  exact hround

end Path

end SyscallSched.Foundation

/-!
## Doubly linked rings

`l.Ring head xs` says that the links `next` lead from `head` through the elements of
`xs` in order and back to `head`, and the links `prev` the other way round.  Taking an
element out and putting one in behind `head` are a few assignments to links; as each of
them reads links that earlier ones may have written, they are performed one by one.
-/

namespace SyscallSched.Foundation

variable {α : Type} [DecidableEq α]

namespace Path

variable {next : α → α} {front back : List α} {u b y : α}

theorem skip (h : Path next (front ++ u :: b :: back) y)
    (hnodup : (front ++ u :: b :: back).Nodup) :
    Path (Function.update next u (next b)) (front ++ u :: back) y := by
  obtain ⟨hfront, _, hb, hback⟩ := split_iff.mp h
  have hdistinct := List.nodup_append.mp hnodup
  have hu := List.nodup_cons.mp hdistinct.2.1
  refine split_iff.mpr ⟨hfront.congr ?_, ?_, hback.congr ?_⟩
  · intro x hx
    exact Function.update_of_ne (hdistinct.2.2 x hx u (by simp)) _ _
  · rw [Function.update_self, hb]
  · intro x hx
    apply Function.update_of_ne
    rintro rfl
    exact hu.1 (by simp [hx])

theorem insert (front back : List α) (h : Path next (front ++ u :: back) y)
    (hnodup : (front ++ u :: back).Nodup)
    (hb : b ∉ front ++ u :: back) :
    Path (Function.update (Function.update next b (back.headD y)) u b)
      (front ++ u :: b :: back) y := by
  obtain ⟨hfront, _, hback⟩ := split_iff.mp h
  have hdistinct := List.nodup_append.mp hnodup
  have hu := List.nodup_cons.mp hdistinct.2.1
  have hkept : ∀ x, x ∈ front ++ u :: back → x ≠ u →
      Function.update (Function.update next b (back.headD y)) u b x = next x := by
    intro x hx hne
    rw [Function.update_of_ne hne, Function.update_of_ne]
    rintro rfl
    exact hb hx
  have hbu : b ≠ u := by
    rintro rfl
    exact hb (by simp)
  refine split_iff.mpr ⟨hfront.congr ?_, Function.update_self _ _ _, ?_, hback.congr ?_⟩
  · intro x hx
    exact hkept x (by simp [hx]) (hdistinct.2.2 x hx u (by simp))
  · rw [Function.update_of_ne hbu, Function.update_self]
  · intro x hx
    apply hkept x (by simp [hx])
    rintro rfl
    exact hu.1 hx

end Path

/-! ## Links in both directions -/

structure Links (α : Type) where
  next : α → α
  prev : α → α

namespace Links

def setNext (l : Links α) (x y : α) : Links α := { l with next := Function.update l.next x y }

def setPrev (l : Links α) (x y : α) : Links α := { l with prev := Function.update l.prev x y }

def unlink (l : Links α) (b : α) : Links α :=
  let l := l.setPrev (l.next b) (l.prev b)
  l.setNext (l.prev b) (l.next b)

def insertAfter (l : Links α) (head b : α) : Links α :=
  let l := l.setNext b (l.next head)
  let l := l.setPrev b head
  let l := l.setPrev (l.next head) b
  l.setNext head b

structure Ring (l : Links α) (head : α) (xs : List α) : Prop where
  nodup : (head :: xs).Nodup
  next : Path l.next (head :: xs) head
  prev : Path l.prev (head :: xs.reverse) head

variable {l : Links α} {head b : α} {xs front back : List α}

omit [DecidableEq α] in
theorem exists_last (head : α) (xs : List α) :
    ∃ front, head :: xs = front ++ [xs.reverse.headD head] := by
  cases List.eq_nil_or_concat xs with
  | inl hnil =>
      rw [hnil]
      exact ⟨[], rfl⟩
  | inr hconcat =>
      obtain ⟨front, last, rfl⟩ := hconcat
      exact ⟨head :: front, by simp⟩

theorem Ring.unlink (h : l.Ring head (front ++ b :: back)) :
    (l.unlink b).Ring head (front ++ back) := by
  obtain ⟨hnodup, hnext, hprev⟩ := h
  have hreverse : (front ++ b :: back).reverse = back.reverse ++ b :: front.reverse := by simp
  rw [hreverse] at hprev
  have hnodup' : (head :: (back.reverse ++ b :: front.reverse)).Nodup := by
    rw [← hreverse]
    exact (List.reverse_perm _).cons head |>.nodup_iff.mpr hnodup
  have hb : l.next b = back.headD head :=
    (Path.split_iff.mp (show Path l.next ((head :: front) ++ b :: back) head from hnext)).2.1
  have hb' : l.prev b = front.reverse.headD head :=
    (Path.split_iff.mp
      (show Path l.prev ((head :: back.reverse) ++ b :: front.reverse) head from hprev)).2.1
  obtain ⟨before, hbefore⟩ := exists_last head front
  obtain ⟨after, hafter⟩ := exists_last head back.reverse
  rw [List.reverse_reverse] at hafter
  have hne : b ≠ l.next b := by
    rw [hb]
    rintro heq
    have hmem : b ∈ head :: back.reverse := by
      rw [hafter, heq]
      simp
    rw [← List.cons_append, List.nodup_append] at hnodup'
    exact hnodup'.2.2 b hmem b (by simp) rfl
  have hlinks : l.unlink b =
      { next := Function.update l.next (front.reverse.headD head) (l.next b)
        prev := Function.update l.prev (back.headD head) (l.prev b) } := by
    simp only [Links.unlink, setPrev, setNext]
    rw [Function.update_of_ne hne, hb', hb]
  rw [hlinks]
  constructor
  case nodup => exact hnodup.sublist (by simp)
  case next =>
    rw [← List.cons_append, hbefore, List.append_assoc] at hnext hnodup ⊢
    exact hnext.skip hnodup
  case prev =>
    rw [← List.cons_append, hafter, List.append_assoc] at hprev hnodup'
    rw [List.reverse_append, ← List.cons_append, hafter, List.append_assoc]
    exact hprev.skip hnodup'

theorem Ring.insertAfter (h : l.Ring head xs) (hb : b ∉ head :: xs) :
    (l.insertAfter head b).Ring head (b :: xs) := by
  obtain ⟨hnodup, hnext, hprev⟩ := h
  have hfirst : l.next head = xs.headD head := hnext.1
  have hne : head ≠ b := by
    rintro rfl
    exact hb (by simp)
  have hlinks : l.insertAfter head b =
      { next := Function.update (Function.update l.next b (xs.headD head)) head b
        prev := Function.update (Function.update l.prev b head) (xs.headD head) b } := by
    simp only [Links.insertAfter, setPrev, setNext]
    rw [Function.update_of_ne hne, hfirst]
  obtain ⟨after, hafter⟩ := exists_last head xs.reverse
  rw [List.reverse_reverse] at hafter
  rw [hlinks]
  constructor
  case nodup =>
    have hswap : (head :: b :: xs).Perm (b :: head :: xs) := List.Perm.swap b head xs
    exact hswap.nodup_iff.mpr (List.nodup_cons.mpr ⟨hb, hnodup⟩)
  case next => exact Path.insert [] xs hnext hnodup hb
  case prev =>
    have hnodup' : (head :: xs.reverse).Nodup :=
      (List.reverse_perm xs).cons head |>.nodup_iff.mpr hnodup
    have hb' : b ∉ head :: xs.reverse := by simpa using hb
    rw [hafter] at hprev hnodup' hb'
    rw [List.reverse_cons, ← List.cons_append, hafter, List.append_assoc]
    exact Path.insert after [] hprev hnodup' hb'

theorem ring_alone (l : Links α) (head : α) :
    ((l.setPrev head head).setNext head head).Ring head [] := by
  constructor
  case nodup => simp
  case next => exact ⟨Function.update_self _ _ _, trivial⟩
  case prev => exact ⟨Function.update_self _ _ _, trivial⟩

theorem Ring.insertAll (h : l.Ring head xs) {bs : List α} (hnodup : bs.Nodup)
    (hout : ∀ b ∈ bs, b ∉ head :: xs) :
    (bs.foldl (fun l b => l.insertAfter head b) l).Ring head (bs.reverse ++ xs) := by
  induction bs generalizing l xs with
  | nil => exact h
  | cons b bs ih =>
      obtain ⟨hb, hnodup⟩ := List.nodup_cons.mp hnodup
      have hrest : ∀ c ∈ bs, c ∉ head :: b :: xs := by
        intro c hc hmem
        have hc' := hout c (by simp [hc])
        have hne : c ≠ b := by
          rintro rfl
          exact hb hc
        simp_all
      rw [List.foldl_cons, List.reverse_cons, List.append_assoc]
      exact ih (h.insertAfter (hout b (by simp))) hnodup hrest

end Links

/-! ## Going round -/

/-- Where a loop ends that goes on from `x` until it is at `stop` or at an element with
`p`; `none` when this takes more than `fuel` tests. -/
def search (next : α → α) (stop : α) (p : α → Bool) : Nat → α → Option α
  | 0, _ => none
  | fuel + 1, x =>
      if x = stop then some stop
      else if p x then some x
      else search next stop p fuel (next x)

theorem Path.search_eq {next : α → α} {stop : α} {xs : List α} (h : Path next xs stop)
    (hstop : stop ∉ xs) (p : α → Bool) {fuel : Nat} (hfuel : xs.length < fuel) :
    search next stop p fuel (xs.headD stop) = some ((xs.find? p).getD stop) := by
  induction xs generalizing fuel with
  | nil =>
      cases fuel with
      | zero => simp at hfuel
      | succ fuel => simp [search]
  | cons x xs ih =>
      cases fuel with
      | zero => simp at hfuel
      | succ fuel =>
          have hx : x ≠ stop := by
            rintro rfl
            exact hstop (by simp)
          rw [List.headD_cons, search, if_neg hx, List.find?_cons]
          cases p x with
          | true => rfl
          | false =>
              have hlt : xs.length < fuel := by simpa using hfuel
              have hrest := ih h.2 (fun hmem => hstop (by simp [hmem])) hlt
              rw [← h.1] at hrest
              exact hrest

end SyscallSched.Foundation
