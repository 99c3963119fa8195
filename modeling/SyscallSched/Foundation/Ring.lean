import Mathlib.Data.Nat.ModEq
import Mathlib.Logic.Function.Basic
import Mathlib.Data.List.Basic

/-!
# Rings

A ring of `size` cells holds `count` elements from position `first` on, where
positions are counted on past the end and taken modulo `size`.
-/

namespace SyscallSched.Foundation

variable {α : Type} {size : Nat}

def ringContents (size : Nat) (data : Nat → α) (first count : Nat) : List α :=
  (List.range count).map fun k => data ((first + k) % size)

theorem ringContents_congr {data : Nat → α} {first first' : Nat} (count : Nat)
    (h : first % size = first' % size) :
    ringContents size data first count = ringContents size data first' count := by
  unfold ringContents
  apply List.map_congr_left
  intro k _
  rw [Nat.add_mod, h, ← Nat.add_mod]

theorem ring_next_free {first count k : Nat} (hk : k < count) (hcount : count < size) :
    (first + k) % size ≠ (first + count) % size := by
  intro h
  have hmod : k ≡ count [MOD size] := Nat.ModEq.add_left_cancel' first h
  have heq : k = count := hmod.eq_of_lt_of_lt (hk.trans hcount) hcount
  exact hk.ne heq

theorem ringContents_append (data : Nat → α) (first m n : Nat) :
    ringContents size data first (m + n) =
      ringContents size data first m ++ ringContents size data (first + m) n := by
  unfold ringContents
  rw [List.range_add, List.map_append, List.map_map]
  congr 2
  funext k
  simp only [Function.comp_apply, Nat.add_assoc]

theorem ringContents_store (data : Nat → α) {first count total : Nat} (x : α)
    (hcount : count ≤ total) (htotal : total < size) :
    ringContents size (Function.update data ((first + total) % size) x) first count =
      ringContents size data first count := by
  unfold ringContents
  apply List.map_congr_left
  intro k hk
  have hlt : k < total := (List.mem_range.mp hk).trans_le hcount
  exact Function.update_of_ne (ring_next_free hlt htotal) x data

theorem ringContents_push (data : Nat → α) {first count : Nat} (x : α) (hcount : count < size) :
    ringContents size (Function.update data ((first + count) % size) x) first (count + 1) =
      ringContents size data first count ++ [x] := by
  rw [ringContents_append, ringContents_store data x (Nat.le_refl count) hcount]
  simp [ringContents]

theorem ringContents_pop (data : Nat → α) (first count : Nat) :
    ringContents size data first (count + 1) =
      data (first % size) :: ringContents size data (first + 1) count := by
  unfold ringContents
  rw [List.range_succ_eq_map, List.map_cons, List.map_map, Nat.add_zero]
  congr 1
  apply List.map_congr_left
  intro k _
  simp only [Function.comp_apply]
  rw [Nat.add_right_comm, Nat.add_assoc]

end SyscallSched.Foundation

/-!
## Rings between free-running indices

A producer and a consumer count in 16 bits, past the end of the ring and past the end of
the 16 bits.  When the size of the ring divides 2^16, the entries between the indices
are those that have been put in and not yet taken out, as long as the ring is not full.
-/

namespace SyscallSched.Foundation

variable {α : Type} {size : Nat} {data : Nat → α} {first last : UInt16}

def window (size : Nat) (data : Nat → α) (first last : UInt16) : List α :=
  ringContents size data first.toNat (last - first).toNat

theorem length_window : (window size data first last).length = (last - first).toNat := by
  simp [window, ringContents]

theorem toNat_sub_uint16 : (last - first).toNat = (65536 - first.toNat + last.toNat) % 65536 :=
  UInt16.toNat_sub last first

theorem toNat_succ_uint16 (i : UInt16) : (i + 1).toNat = (i.toNat + 1) % 65536 :=
  UInt16.toNat_add i 1

theorem succ_mod (hsize : size ∣ 65536) (i : UInt16) :
    (i + 1).toNat % size = (i.toNat + 1) % size := by
  rw [toNat_succ_uint16, Nat.mod_mod_of_dvd _ hsize]

theorem last_mod (first last : UInt16) (hsize : size ∣ 65536) :
    last.toNat % size = (first.toNat + (last - first).toNat) % size := by
  have hfirst := first.toNat_lt
  have hlast := last.toNat_lt
  have hwrap : last.toNat = (first.toNat + (last - first).toNat) % 65536 := by
    rw [toNat_sub_uint16]
    omega
  rw [hwrap, Nat.mod_mod_of_dvd _ hsize]

theorem toNat_sub_succ (hlt : (last - first).toNat < size) (hsize : size < 65536) :
    (last + 1 - first).toNat = (last - first).toNat + 1 := by
  have hfirst := first.toNat_lt
  have hlast := last.toNat_lt
  rw [toNat_sub_uint16] at hlt
  rw [toNat_sub_uint16, toNat_sub_uint16, toNat_succ_uint16]
  omega

theorem toNat_succ_sub (hne : first ≠ last) :
    (last - first).toNat = (last - (first + 1)).toNat + 1 := by
  have hfirst := first.toNat_lt
  have hlast := last.toNat_lt
  have hne' : first.toNat ≠ last.toNat := fun h => hne (UInt16.toNat_inj.mp h)
  rw [toNat_sub_uint16, toNat_sub_uint16, toNat_succ_uint16]
  omega

theorem window_self : window size data first first = [] := by
  simp [window, ringContents]

theorem window_store (hsize : size ∣ 65536) (hroom : (window size data first last).length < size)
    (x : α) :
    window size (Function.update data (last.toNat % size) x) first last =
      window size data first last := by
  rw [length_window] at hroom
  unfold window
  rw [last_mod first last hsize]
  exact ringContents_store data x (Nat.le_refl _) hroom

theorem slot_ne (hsize : size ∣ 65536) (hroom : (window size data first last).length < size)
    {k : Nat}
    (hk : k < (last - first).toNat) : (first.toNat + k) % size ≠ last.toNat % size := by
  rw [length_window] at hroom
  rw [last_mod first last hsize]
  exact ring_next_free hk hroom

theorem window_succ (hsize : size ∣ 65536) (hlt : size < 65536)
    (hroom : (window size data first last).length < size) :
    window size data first (last + 1) =
      window size data first last ++ [data (last.toNat % size)] := by
  rw [length_window] at hroom
  unfold window
  rw [toNat_sub_succ hroom hlt, ringContents_append, last_mod first last hsize]
  rfl

theorem window_push (hsize : size ∣ 65536) (hlt : size < 65536)
    (hroom : (window size data first last).length < size) (x : α) :
    window size (Function.update data (last.toNat % size) x) first (last + 1) =
      window size data first last ++ [x] := by
  have hstore := window_store hsize hroom x
  have hroom' :
      (window size (Function.update data (last.toNat % size) x) first last).length < size := by
    rw [hstore]
    exact hroom
  rw [window_succ hsize hlt hroom', hstore, Function.update_self]

theorem window_pop (hsize : size ∣ 65536) (hne : first ≠ last) :
    window size data first last =
      data (first.toNat % size) :: window size data (first + 1) last := by
  unfold window
  rw [toNat_succ_sub hne, ringContents_pop, ringContents_congr _ (succ_mod hsize first).symm]

end SyscallSched.Foundation

/-!
## Cells used by a rotating queue

A queue of tasks, each with the number of rounds it still takes.  The first
task is served for one round and, unless that was its last one, appended again.
Appending takes a new cell as long as another task is queued; a task that is
alone starts again at the first cell.  `slots` is the number of cells that are
taken before that happens, in closed form: a task takes a cell for each of its
rounds that some task before it, or some task behind it one round earlier,
also takes.
-/

namespace SyscallSched.Foundation.Rotation

/-- The largest number of a list, 0 if it is empty. -/
def top (ks : List Nat) : Nat := ks.foldr max 0

def slotsFrom (m : Nat) : List Nat → Nat
  | [] => 0
  | k :: behind =>
      min k (max 1 (max m (top (behind.map Nat.succ)))) +
        slotsFrom (max m k) behind

def slots (ks : List Nat) : Nat := slotsFrom 0 ks

/-- The queue after a task with `k` rounds left was served for one. -/
def turn (k : Nat) (rest : List Nat) : List Nat :=
  if k ≤ 1 then rest else rest ++ [k - 1]

@[simp] theorem top_nil : top [] = 0 := rfl

@[simp] theorem top_cons (k : Nat) (ks : List Nat) :
    top (k :: ks) = max k (top ks) := rfl

theorem top_append (ks ls : List Nat) :
    top (ks ++ ls) = max (top ks) (top ls) := by
  induction ks with
  | nil => simp
  | cons k ks ih =>
      simp only [List.cons_append, top_cons, ih]
      omega

theorem top_map_succ {ks : List Nat} (h : ks ≠ []) :
    top (ks.map Nat.succ) = top ks + 1 := by
  induction ks with
  | nil => contradiction
  | cons k ks ih =>
      cases ks with
      | nil => simp
      | cons l ks =>
          simp only [List.map_cons, top_cons] at ih ⊢
          have hrest := ih (by simp)
          omega

theorem top_pos {ks : List Nat} (hne : ks ≠ []) (hpos : ∀ k ∈ ks, 1 ≤ k) :
    1 ≤ top ks := by
  cases ks with
  | nil => contradiction
  | cons k ks =>
      have hk := hpos k (by simp)
      simp only [top_cons]
      omega

@[simp] theorem slots_nil : slots [] = 0 := rfl

@[simp] theorem slots_singleton (k : Nat) : slots [k] = min k 1 := by
  simp [slots, slotsFrom]

theorem slotsFrom_max_one (m : Nat) (ks : List Nat) :
    slotsFrom (max m 1) ks = slotsFrom m ks := by
  induction ks generalizing m with
  | nil => rfl
  | cons k ks ih =>
      have hmax : max (max m 1) k = max (max m k) 1 := by omega
      simp only [slotsFrom, hmax, ih]
      omega

theorem slotsFrom_append (m : Nat) (ks : List Nat) (j : Nat) :
    slotsFrom m (ks ++ [j]) =
      slotsFrom (max m (j + 1)) ks + min j (max 1 (max m (top ks))) := by
  induction ks generalizing m with
  | nil => simp [slotsFrom]
  | cons k ks ih =>
      have hmax : max (max m k) (j + 1) = max (max m (j + 1)) k := Nat.max_right_comm m k (j + 1)
      have hbehind : max m (top ((ks ++ [j]).map Nat.succ)) =
          max (max m (j + 1)) (top (ks.map Nat.succ)) := by
        rw [List.map_append, top_append, List.map_singleton, top_cons, top_nil, Nat.max_zero,
          Nat.succ_eq_add_one, Nat.max_right_comm, Nat.max_assoc]
      rw [List.cons_append, slotsFrom, slotsFrom, ih, hmax, hbehind, top_cons, Nat.max_assoc m k,
        Nat.add_assoc]

theorem slots_cons {k : Nat} {rest : List Nat} (hk : 1 ≤ k) (hne : rest ≠ [])
    (hpos : ∀ j ∈ rest, 1 ≤ j) :
    slots (k :: rest) = slots (turn k rest) + 1 := by
  have htop := top_pos hne hpos
  have hcons : slots (k :: rest) =
      min k (top rest + 1) + slotsFrom k rest := by
    simp only [slots, slotsFrom, top_map_succ hne, Nat.zero_max]
    omega
  rw [hcons]
  unfold turn
  by_cases hlast : k ≤ 1
  · have hone : k = max 0 1 := by omega
    rw [if_pos hlast, hone, slotsFrom_max_one]
    change min (max 0 1) (top rest + 1) + slots rest = slots rest + 1
    omega
  · rw [if_neg hlast]
    have hmax : max 0 (k - 1 + 1) = k := by omega
    simp only [slots, slotsFrom_append, hmax]
    omega

theorem length_le_slotsFrom (m : Nat) {ks : List Nat} (hpos : ∀ k ∈ ks, 1 ≤ k) :
    ks.length ≤ slotsFrom m ks := by
  induction ks generalizing m with
  | nil => simp
  | cons k ks ih =>
      have hk := hpos k (by simp)
      have hrest := ih (max m k) fun j hj => hpos j (by simp [hj])
      simp only [List.length_cons, slotsFrom]
      omega

theorem length_le_slots {ks : List Nat} (hpos : ∀ k ∈ ks, 1 ≤ k) :
    ks.length ≤ slots ks :=
  length_le_slotsFrom 0 hpos

theorem turn_pos {k : Nat} {rest : List Nat} (hpos : ∀ j ∈ rest, 1 ≤ j) :
    ∀ j ∈ turn k rest, 1 ≤ j := by
  intro j hj
  unfold turn at hj
  split at hj
  · exact hpos j hj
  · rename_i hlast
    rcases List.mem_append.mp hj with hj | hj
    · exact hpos j hj
    · simp only [List.mem_singleton] at hj
      omega

end SyscallSched.Foundation.Rotation
