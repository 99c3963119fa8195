import Mathlib.Algebra.Order.Ring.Nat
import Mathlib.Data.Nat.Init
import Mathlib.Algebra.Order.Ring.Int
import Mathlib.Tactic.Ring

/-!
# Digits of a number

The digits of a number to a base, and a number with one digit replaced.  The bytes
of a machine word are its digits.
-/

namespace SyscallSched.Foundation

variable {B w v i j c : Nat}

def digit (B w i : Nat) : Nat := w / B ^ i % B

/-- The number `w` with `c` for its `i`-th digit. -/
def replaceDigit (B w i c : Nat) : Nat := w - digit B w i * B ^ i + c * B ^ i

theorem digit_of_mod (h : v % B ^ i = w % B ^ i) (hj : j < i) :
    digit B v j = digit B w j := by
  obtain ⟨d, rfl⟩ := Nat.exists_eq_add_of_lt hj
  have hpow : B ^ (j + d + 1) = B ^ j * (B * B ^ d) := by
    rw [Nat.add_assoc, Nat.pow_add, Nat.pow_succ']
  have hlow : ∀ x, digit B x j = x % B ^ (j + d + 1) / B ^ j % B := by
    intro x
    rw [hpow, Nat.mod_mul_right_div_self, Nat.mod_mul_right_mod, digit]
  rw [hlow, hlow, h]

theorem digit_of_div (h : v / B ^ i = w / B ^ i) (hj : i ≤ j) :
    digit B v j = digit B w j := by
  obtain ⟨d, rfl⟩ := Nat.exists_eq_add_of_le hj
  have hhigh : ∀ x, digit B x (i + d) = x / B ^ i / B ^ d % B := by
    intro x
    rw [digit, Nat.pow_add, Nat.div_div_eq_div_mul]
  rw [hhigh, hhigh, h]

theorem replaceDigit_eq (B w i c : Nat) :
    replaceDigit B w i c = B ^ i * (B * (w / B ^ (i + 1)) + c) + w % B ^ i := by
  have hquot : B * (w / B ^ (i + 1)) + digit B w i = w / B ^ i := by
    rw [digit, Nat.pow_succ, ← Nat.div_div_eq_div_mul]
    exact Nat.div_add_mod _ _
  have hsplit : B ^ i * (B * (w / B ^ (i + 1)) + digit B w i) + w % B ^ i = w := by
    rw [hquot]
    exact Nat.div_add_mod _ _
  have hsum : w = B ^ i * (B * (w / B ^ (i + 1))) + w % B ^ i + digit B w i * B ^ i := by
    rw [Nat.mul_add] at hsplit
    rw [Nat.mul_comm (digit B w i)]
    omega
  have hrest : w - digit B w i * B ^ i = B ^ i * (B * (w / B ^ (i + 1))) + w % B ^ i :=
    Nat.sub_eq_of_eq_add hsum
  rw [replaceDigit, hrest, Nat.mul_add, Nat.mul_comm c]
  omega

theorem digit_replaceDigit (hc : c < B) :
    digit B (replaceDigit B w i c) j = if j = i then c else digit B w j := by
  have hB : 0 < B := Nat.zero_lt_of_lt hc
  have hpos : 0 < B ^ i := Nat.pow_pos hB
  have hmod : replaceDigit B w i c % B ^ i = w % B ^ i := by
    rw [replaceDigit_eq, Nat.mul_add_mod, Nat.mod_mod]
  have hdiv : replaceDigit B w i c / B ^ i = B * (w / B ^ (i + 1)) + c := by
    rw [replaceDigit_eq, Nat.mul_add_div hpos, Nat.div_eq_of_lt (Nat.mod_lt w hpos),
      Nat.add_zero]
  by_cases hj : j = i
  · rw [if_pos hj, hj, digit, hdiv, Nat.mul_add_mod, Nat.mod_eq_of_lt hc]
  · rw [if_neg hj]
    cases Nat.lt_or_gt_of_ne hj with
    | inl hlt => exact digit_of_mod hmod hlt
    | inr hgt =>
        have hnext : replaceDigit B w i c / B ^ (i + 1) = w / B ^ (i + 1) := by
          rw [Nat.pow_succ, ← Nat.div_div_eq_div_mul, hdiv, Nat.mul_add_div hB,
            Nat.div_eq_of_lt hc, Nat.add_zero, Nat.pow_succ]
        exact digit_of_div hnext hgt

end SyscallSched.Foundation

/-!
## Little-endian numbers in a run of bytes

Bytes are a function from offsets.  `getLE f off n` is the number in the `n`
bytes from `off` on, and `setLE f off n v` stores `v` there.
-/

namespace SyscallSched.Foundation

def getLE (f : Nat → Nat) (off : Nat) : Nat → Nat
  | 0 => 0
  | n + 1 => f off % 256 + 256 * getLE f (off + 1) n

def setLE (f : Nat → Nat) (off n v : Nat) : Nat → Nat := fun i =>
  if off ≤ i ∧ i < off + n then v / 256 ^ (i - off) % 256 else f i

variable {f g : Nat → Nat} {off n v i : Nat}

theorem getLE_congr (h : ∀ i, off ≤ i → i < off + n → g i = f i) :
    getLE g off n = getLE f off n := by
  induction n generalizing off with
  | zero => rfl
  | succ n ih =>
      rw [getLE, getLE, h off (Nat.le_refl off) (by omega),
        ih fun i hi hin => h i (by omega) (by omega)]

theorem getLE_lt (f : Nat → Nat) (off n : Nat) : getLE f off n < 256 ^ n := by
  induction n generalizing off with
  | zero => exact Nat.one_pos
  | succ n ih =>
      have hrest := ih (off + 1)
      have hbyte : f off % 256 < 256 := Nat.mod_lt _ (by decide)
      rw [getLE, Nat.pow_succ]
      omega

@[simp] theorem setLE_of_lt (h : i < off) : setLE f off n v i = f i :=
  if_neg fun hi => by omega

@[simp] theorem setLE_of_ge (h : off + n ≤ i) : setLE f off n v i = f i :=
  if_neg fun hi => by omega

theorem getLE_setLE_of_disjoint {off' n' : Nat} (h : off' + n' ≤ off ∨ off + n ≤ off') :
    getLE (setLE f off n v) off' n' = getLE f off' n' := by
  apply getLE_congr
  intro i hi hin
  cases h with
  | inl h => exact setLE_of_lt (by omega)
  | inr h => exact setLE_of_ge (by omega)

theorem setLE_succ (i : Nat) : setLE f off (n + 1) v i =
    if i = off then v % 256 else setLE f (off + 1) n (v / 256) i := by
  by_cases hi : i = off
  · simp [setLE, hi]
  · by_cases hrest : off + 1 ≤ i ∧ i < off + 1 + n
    · have hpow : v / 256 ^ (i - off) = v / 256 / 256 ^ (i - (off + 1)) := by
        rw [Nat.div_div_eq_div_mul, ← Nat.pow_succ']
        congr 2
        omega
      rw [setLE, if_pos (by omega), if_neg hi, setLE, if_pos hrest, hpow]
    · rw [setLE, if_neg (by omega), if_neg hi, setLE, if_neg hrest]

@[simp] theorem getLE_setLE : getLE (setLE f off n v) off n = v % 256 ^ n := by
  induction n generalizing f off v with
  | zero => simp [getLE, Nat.mod_one]
  | succ n ih =>
      have hrest : getLE (setLE f off (n + 1) v) (off + 1) n =
          getLE (setLE f (off + 1) n (v / 256)) (off + 1) n := by
        apply getLE_congr
        intro i hi _
        rw [setLE_succ, if_neg (by omega)]
      rw [getLE, setLE_succ, if_pos rfl, hrest, ih, Nat.mod_mod, Nat.pow_succ',
        Nat.mod_mul]

theorem getLE_setLE_of_lt (h : v < 256 ^ n) : getLE (setLE f off n v) off n = v := by
  rw [getLE_setLE, Nat.mod_eq_of_lt h]

theorem getLE_of_bytes (h : ∀ j < n, f (off + j) = v / 256 ^ j % 256) (hv : v < 256 ^ n) :
    getLE f off n = v := by
  have hsame : getLE (setLE f off n v) off n = getLE f off n := by
    apply getLE_congr
    intro i hi hin
    have hbyte := h (i - off) (by omega)
    rw [Nat.add_sub_of_le hi] at hbyte
    rw [setLE, if_pos ⟨hi, hin⟩, hbyte]
  rw [← hsame]
  exact getLE_setLE_of_lt hv

/-! ## Arrays of 32-bit words -/

/-- Stores the words of a list one after the other from `off` on. -/
def setWords (f : Nat → Nat) (off : Nat) : List Nat → Nat → Nat
  | [] => f
  | w :: ws => setWords (setLE f off 4 w) (off + 4) ws

theorem getLE_setWords_of_disjoint {ws : List Nat} {off' n' : Nat}
    (h : off' + n' ≤ off ∨ off + 4 * ws.length ≤ off') :
    getLE (setWords f off ws) off' n' = getLE f off' n' := by
  induction ws generalizing f off with
  | nil => rfl
  | cons w ws ih =>
      rw [List.length_cons] at h
      rw [setWords, ih (by omega), getLE_setLE_of_disjoint (by omega)]

theorem getLE_setWords {ws : List Nat} {j : Nat} (hj : j < ws.length) (hlt : ws[j] < 256 ^ 4) :
    getLE (setWords f off ws) (off + 4 * j) 4 = ws[j] := by
  induction ws generalizing f off j with
  | nil => exact absurd hj (Nat.not_lt_zero j)
  | cons w ws ih =>
      rw [setWords]
      cases j with
      | zero =>
          rw [getLE_setWords_of_disjoint (by omega)]
          exact getLE_setLE_of_lt hlt
      | succ j =>
          have hoff : off + 4 * (j + 1) = off + 4 + 4 * j := by omega
          rw [hoff]
          exact ih (Nat.lt_of_succ_lt_succ hj) hlt

end SyscallSched.Foundation
