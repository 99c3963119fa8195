import Mathlib.Data.List.Nodup
import Mathlib.Data.List.ReduceOption
import Mathlib.Logic.Function.Basic

/-!
# Maps in slots

A row of slots, each of which is free or holds a key with its value.  It is a map when
no key is in two slots.  A key is added in a free slot or behind the last one, and
removed by freeing its slot.
-/

namespace SyscallSched.Foundation

abbrev Slots (κ β : Type) := List (Option (κ × β))

namespace SlotMap

/-! ## Slots -/

section

variable {κ β : Type} {slots a c : Slots κ β} {k : κ} {x : β} {i : Nat}

def keys (slots : Slots κ β) : List κ := slots.reduceOption.map Prod.fst

def Distinct (slots : Slots κ β) : Prop := (keys slots).Nodup

def freeSlot (slots : Slots κ β) : Nat := slots.findIdx Option.isNone

def put (slots : Slots κ β) (i : Nat) (x : Option (κ × β)) : Slots κ β :=
  slots.take i ++ x :: slots.drop (i + 1)

theorem put_middle (s s' : Option (κ × β)) :
    put (a ++ s :: c) a.length s' = a ++ s' :: c := by
  rw [put, List.take_left, ← List.drop_drop, List.drop_left, List.drop_one, List.tail_cons]

theorem length_put (s : Option (κ × β)) (h : i < slots.length) :
    (put slots i s).length = slots.length := by
  rw [put, List.length_append, List.length_cons, List.length_take, List.length_drop]
  omega

theorem keys_append : keys (a ++ c) = keys a ++ keys c := by
  rw [keys, List.reduceOption_append, List.map_append]
  rfl

theorem distinct_cons_none : Distinct (a ++ none :: c) ↔ Distinct (a ++ c) := by
  rw [Distinct, Distinct, keys_append, keys_append, keys, keys, keys,
    List.reduceOption_cons_of_none]

theorem distinct_cons_some :
    Distinct (a ++ some (k, x) :: c) ↔ k ∉ keys (a ++ c) ∧ Distinct (a ++ c) := by
  have hcons : keys (some (k, x) :: c) = k :: keys c := by
    rw [keys, List.reduceOption_cons_of_some]
    rfl
  rw [Distinct, keys_append, hcons, List.nodup_middle, List.nodup_cons, ← keys_append]
  rfl

theorem reduceOption_skip (h : ∀ s, slots[i]? = some s → s = none) :
    (slots.take i ++ slots.drop (i + 1)).reduceOption = slots.reduceOption := by
  by_cases hi : i < slots.length
  · have hnone := h _ (List.getElem?_eq_getElem hi)
    conv_rhs => rw [← List.take_append_drop i slots, List.drop_eq_getElem_cons hi, hnone]
    rw [List.reduceOption_append, List.reduceOption_append, List.reduceOption_cons_of_none]
  · rw [List.take_of_length_le (Nat.le_of_not_lt hi), List.drop_eq_nil_of_le (by omega),
      List.append_nil]

theorem eq_none_of_freeSlot {s : Option (κ × β)} (h : slots[freeSlot slots]? = some s) :
    s = none := by
  obtain ⟨hlt, hs⟩ := List.getElem?_eq_some_iff.mp h
  have hfree := List.findIdx_getElem (w := hlt)
  rw [← hs]
  exact Option.isNone_iff_eq_none.mp hfree

end

/-! ## The map -/

section

variable {κ β : Type} [DecidableEq κ] {slots a c : Slots κ β} {k k' : κ} {x : β} {i j : Nat}

instance (slots : Slots κ β) : Decidable (Distinct slots) :=
  inferInstanceAs (Decidable (List.Nodup _))

def toMap (slots : Slots κ β) (k : κ) : Option β := slots.reduceOption.lookup k

def scan (k : κ) : Nat → Slots κ β → Option (β × Nat)
  | _, [] => none
  | i, none :: slots => scan k (i + 1) slots
  | i, some (k', x) :: slots => if k' = k then some (x, i) else scan k (i + 1) slots

theorem toMap_append : toMap (a ++ c) k = (toMap a k).or (toMap c k) := by
  rw [toMap, List.reduceOption_append, List.lookup_append]
  rfl

@[simp] theorem toMap_cons_none : toMap (none :: slots) k = toMap slots k := by
  rw [toMap, List.reduceOption_cons_of_none]
  rfl

@[simp] theorem toMap_cons_some :
    toMap (some (k, x) :: slots) k' = if k' = k then some x else toMap slots k' := by
  rw [toMap, List.reduceOption_cons_of_some, List.lookup_cons]
  by_cases hk : k' = k
  · simp [hk]
  · simp [hk, toMap, beq_eq_false_iff_ne.mpr hk]

theorem toMap_eq_none_iff : toMap slots k = none ↔ k ∉ keys slots := by
  rw [toMap, keys, List.lookup_eq_none_iff, List.mem_map, not_exists]
  apply forall_congr'
  intro p
  rw [not_and, bne_iff_ne, ne_comm]

/-! ## Looking for a key -/

theorem map_scan : (scan k i slots).map Prod.fst = toMap slots k := by
  induction slots generalizing i with
  | nil => rfl
  | cons s slots ih =>
      cases s with
      | none => rw [scan, ih, toMap_cons_none]
      | some p =>
          rw [scan, toMap_cons_some]
          by_cases hk : p.1 = k
          · simp [hk]
          · simp [hk, Ne.symm hk, ih]

theorem scan_some (h : scan k i slots = some (x, j)) :
    ∃ a c, slots = a ++ some (k, x) :: c ∧ j = i + a.length := by
  induction slots generalizing i with
  | nil => cases h
  | cons s slots ih =>
      have hlater : scan k (i + 1) slots = some (x, j) →
          ∃ a c, s :: slots = a ++ some (k, x) :: c ∧ j = i + a.length := by
        intro hscan
        obtain ⟨a, c, rfl, rfl⟩ := ih hscan
        refine ⟨s :: a, c, rfl, ?_⟩
        rw [List.length_cons]
        omega
      cases s with
      | none => exact hlater h
      | some p =>
          rw [scan] at h
          by_cases hk : p.1 = k
          · rw [if_pos hk] at h
            cases h
            exact ⟨[], slots, by rw [← hk]; rfl, rfl⟩
          · rw [if_neg hk] at h
            exact hlater h

/-! ## Adding a key -/

theorem toMap_put (hfree : ∀ s, slots[i]? = some s → s = none) (h : toMap slots k = none) :
    toMap (put slots i (some (k, x))) = Function.update (toMap slots) k (some x) := by
  have hskip := reduceOption_skip hfree
  funext k'
  have hsame : toMap slots k' = (toMap (slots.take i) k').or (toMap (slots.drop (i + 1)) k') := by
    rw [← toMap_append, toMap, toMap, hskip]
  rw [put, toMap_append, toMap_cons_some]
  by_cases hk : k' = k
  · subst hk
    rw [h] at hsame
    have hnone := (Option.or_eq_none_iff.mp hsame.symm).1
    simp [hnone]
  · rw [if_neg hk, Function.update_of_ne hk, hsame]

theorem distinct_put (hfree : ∀ s, slots[i]? = some s → s = none) (hd : Distinct slots)
    (h : toMap slots k = none) : Distinct (put slots i (some (k, x))) := by
  have hskip : keys (slots.take i ++ slots.drop (i + 1)) = keys slots := by
    rw [keys, reduceOption_skip hfree]
    rfl
  rw [put, distinct_cons_some, Distinct, hskip]
  exact ⟨toMap_eq_none_iff.mp h, hd⟩

/-! ## Removing a key -/

theorem toMap_put_none (hd : Distinct slots) (h : scan k 0 slots = some (x, j)) :
    toMap (put slots j none) = Function.update (toMap slots) k none := by
  obtain ⟨a, c, rfl, rfl⟩ := scan_some h
  rw [Nat.zero_add, put_middle]
  funext k'
  rw [toMap_append, toMap_cons_none]
  by_cases hk : k' = k
  · subst hk
    rw [Function.update_self, ← toMap_append]
    exact toMap_eq_none_iff.mpr (distinct_cons_some.mp hd).1
  · rw [Function.update_of_ne hk, toMap_append, toMap_cons_some, if_neg hk]

theorem distinct_put_none (hd : Distinct slots) (h : scan k 0 slots = some (x, j)) :
    Distinct (put slots j none) := by
  obtain ⟨a, c, rfl, rfl⟩ := scan_some h
  rw [Nat.zero_add, put_middle, distinct_cons_none]
  exact (distinct_cons_some.mp hd).2

end

end SlotMap

end SyscallSched.Foundation
