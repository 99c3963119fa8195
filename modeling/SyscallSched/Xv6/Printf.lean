import Mathlib.Data.List.Basic
import Mathlib.Data.Nat.Digits.Defs

/-!
# Formatted output of the kernel (`printf.c`)

An argument is a slot of 64 bits, of which `va_arg(ap, int)` reads the low half; the
characters are those that `consputc` gets.  The lock is left out.
-/

namespace SyscallSched.Xv6.Printf

def digits : List Char := "0123456789abcdef".toList

def nul : Char := '\x00'

inductive Fault where
  /-- `buf[i]` behind the end of `buf` -/
  | overflow
  /-- `va_arg` without an argument -/
  | noArgument
  deriving DecidableEq, Repr

abbrev Slot := BitVec 64

/-! ## `printint` -/

def bufSize : Nat := 16

/-- `char buf[16]` up to `i` -/
abbrev NumBuf := { cs : List Char // cs.length ≤ bufSize }

def push (c : Char) (buf : NumBuf) : Except Fault NumBuf :=
  if h : buf.val.length < bufSize then
    .ok ⟨buf.val ++ [c], by rw [List.length_append]; exact h⟩
  else
    .error .overflow

theorem length_push {c : Char} {buf buf' : NumBuf} (h : push c buf = .ok buf') :
    buf'.val.length = buf.val.length + 1 := by
  rw [push] at h
  split at h
  · cases h
    exact List.length_append
  · cases h

def digitLoop (base x : Nat) (buf : NumBuf) : Except Fault NumBuf :=
  match _h : push (digits.getD (x % base) nul) buf with
  | .error e => .error e
  | .ok buf' => if x / base ≠ 0 then digitLoop base (x / base) buf' else .ok buf'
termination_by bufSize - buf.val.length
decreasing_by
  have hpush := length_push _h
  have hlt := Nat.lt_of_lt_of_eq (Nat.lt_succ_self _) hpush.symm
  exact Nat.sub_lt_sub_left (Nat.lt_of_lt_of_le hlt buf'.property) hlt

def printint (xx : BitVec 64) (base : Nat) (sign : Bool) : Except Fault (List Char) := do
  let negative := sign && decide (xx.toInt < 0)
  let x := (if negative then -xx else xx).toNat
  let buf ← digitLoop base x ⟨[], Nat.zero_le _⟩
  let buf ← if negative then push '-' buf else pure buf
  return buf.val.reverse

/-! ## `printf` -/

def ptrLoop : Nat → BitVec 64 → List Char
  | 0, _ => []
  | n + 1, x => digits.getD (x >>> (64 - 4)).toNat nul :: ptrLoop n (x <<< 4)

def printptr (x : BitVec 64) : List Char := '0' :: 'x' :: ptrLoop 16 x

/-- `va_arg(ap, int)` as `long long` -/
def vaInt (slot : Slot) : BitVec 64 := (slot.setWidth 32).signExtend 64

/-- `va_arg(ap, uint64)` as `long long` -/
def vaUint64 (slot : Slot) : BitVec 64 := slot

/-- What a `%` sequence of `used` more characters prints, and the arguments after it. -/
structure Printed where
  text : List Char
  args : List Slot
  used : Nat
  deriving DecidableEq, Repr

def withArg (args : List Slot) (used : Nat) (print : Slot → Except Fault (List Char)) :
    Except Fault Printed :=
  match args with
  | [] => .error .noArgument
  | slot :: args => do return ⟨← print slot, args, used⟩

/-- A `%` sequence; `strings` has the string at each address. -/
def sequence (strings : Slot → List Char) (c0 c1 c2 : Char) (args : List Slot) :
    Except Fault Printed :=
  if c0 = 'd' then withArg args 1 fun a => printint (vaInt a) 10 true
  else if c0 = 'l' ∧ c1 = 'd' then withArg args 2 fun a => printint (vaUint64 a) 10 true
  else if c0 = 'l' ∧ c1 = 'l' ∧ c2 = 'd' then
    withArg args 3 fun a => printint (vaUint64 a) 10 true
  else if c0 = 'u' then withArg args 1 fun a => printint (vaInt a) 10 false
  else if c0 = 'l' ∧ c1 = 'u' then withArg args 2 fun a => printint (vaUint64 a) 10 false
  else if c0 = 'l' ∧ c1 = 'l' ∧ c2 = 'u' then
    withArg args 3 fun a => printint (vaUint64 a) 10 false
  else if c0 = 'x' then withArg args 1 fun a => printint (vaInt a) 16 false
  else if c0 = 'l' ∧ c1 = 'x' then withArg args 2 fun a => printint (vaUint64 a) 16 false
  else if c0 = 'l' ∧ c1 = 'l' ∧ c2 = 'x' then
    withArg args 3 fun a => printint (vaUint64 a) 16 false
  else if c0 = 'p' then withArg args 1 fun a => .ok (printptr (vaUint64 a))
  else if c0 = 's' then
    withArg args 1 fun a => .ok (if vaUint64 a = 0 then "(null)".toList else strings a)
  else if c0 = '%' then .ok ⟨['%'], args, 1⟩
  else .ok ⟨['%', c0], args, 1⟩

def printf (strings : Slot → List Char) (fmt : List Char) (args : List Slot) :
    Except Fault (List Char) :=
  match fmt with
  | [] => .ok []
  | cx :: fmt =>
      if cx ≠ '%' then do
        return cx :: (← printf strings fmt args)
      else
        let c0 := fmt.getD 0 nul
        let c1 := if c0 ≠ nul then fmt.getD 1 nul else nul
        let c2 := if c1 ≠ nul then fmt.getD 2 nul else nul
        if c0 = nul then
          .ok []
        else do
          let printed ← sequence strings c0 c1 c2 args
          return printed.text ++ (← printf strings (fmt.drop printed.used) printed.args)
termination_by fmt.length
decreasing_by
  · exact Nat.lt_succ_self _
  · rw [List.length_drop, List.length_cons]
    omega

/-! ## The numerals -/

def numeral (base : Nat) (v : Int) : List Char :=
  (if v < 0 then ['-'] else []) ++ Nat.toDigits base v.natAbs

section

variable {base x : Nat} {buf : NumBuf} {xx : BitVec 64} {sign : Bool}

theorem digits_digitChar (h : x < 16) : digits.getD x nul = Nat.digitChar x := by
  have hall : ∀ x < 16, digits.getD x nul = Nat.digitChar x := by decide
  exact hall x h

theorem digitLoop_eq (base x : Nat) (buf : NumBuf) :
    digitLoop base x buf = (push (digits.getD (x % base) nul) buf).bind fun buf' =>
      if x / base ≠ 0 then digitLoop base (x / base) buf' else .ok buf' := by
  rw [digitLoop]
  split
  case h_1 e h =>
      rw [h]
      rfl
  case h_2 buf' h =>
      rw [h]
      rfl

theorem digitLoop_spec (hbase : 1 < base) (hle : base ≤ 16) (x : Nat) (buf : NumBuf) :
    (digitLoop base x buf).map Subtype.val =
      if buf.val.length + (Nat.toDigits base x).length ≤ bufSize then
        .ok (buf.val ++ (Nat.toDigits base x).reverse)
      else .error .overflow := by
  induction x using Nat.strong_induction_on generalizing buf with
  | _ x ih =>
      have hdigit := digits_digitChar ((Nat.mod_lt x (Nat.zero_lt_of_lt hbase)).trans_le hle)
      rw [digitLoop_eq, push, hdigit]
      by_cases hroom : buf.val.length < bufSize
      · rw [dif_pos hroom]
        by_cases hlast : x < base
        · have hdiv : ¬ x / base ≠ 0 := not_not_intro (Nat.div_eq_of_lt hlast)
          rw [Except.bind, if_neg hdiv, Nat.mod_eq_of_lt hlast, Nat.toDigits_of_lt_base hlast,
            if_pos (by exact hroom)]
          rfl
        · have hbasex := Nat.le_of_not_lt hlast
          have hdiv : x / base ≠ 0 := (Nat.div_pos hbasex (Nat.zero_lt_of_lt hbase)).ne'
          have hlt : x / base < x := Nat.div_lt_self (by omega) hbase
          rw [Except.bind, if_pos hdiv, ih _ hlt, Nat.toDigits_of_base_le hbase hbasex]
          simp only [List.length_append, List.length_singleton, List.reverse_append,
            List.reverse_singleton, List.append_assoc, Nat.add_assoc, Nat.add_comm 1]
      · have hpos : 0 < (Nat.toDigits base x).length := Nat.length_toDigits_pos
        rw [dif_neg hroom, if_neg (by omega)]
        rfl

theorem natAbs_toInt_of_neg (h : xx.toInt < 0) : (-xx).toNat = xx.toInt.natAbs := by
  have hlt := xx.isLt
  rw [BitVec.toInt_eq_toNat_cond] at h ⊢
  rw [BitVec.toNat_neg]
  split at h
  · omega
  · omega

theorem natAbs_toInt_of_nonneg (h : ¬ xx.toInt < 0) : xx.toNat = xx.toInt.natAbs := by
  have hlt := xx.isLt
  rw [BitVec.toInt_eq_toNat_cond] at h ⊢
  split at h
  · omega
  · omega

/-- The characters of a number, if they all fit into the buffer. -/
theorem printint_spec (hbase : 1 < base) (hle : base ≤ 16) {v : Int}
    (hv : v = if sign then xx.toInt else xx.toNat) :
    printint xx base sign =
      if (numeral base v).length ≤ bufSize then .ok (numeral base v)
      else .error .overflow := by
  have hnegative : (sign && decide (xx.toInt < 0)) = decide (v < 0) := by
    cases sign with
    | true => rw [hv, Bool.true_and, if_pos rfl]
    | false =>
        rw [hv, Bool.false_and, if_neg Bool.false_ne_true]
        exact (decide_eq_false (Int.natCast_nonneg _).not_gt).symm
  have habs : (if decide (v < 0) then -xx else xx).toNat = v.natAbs := by
    cases sign with
    | true =>
        subst hv
        by_cases hneg : xx.toInt < 0
        · rw [if_pos rfl, if_pos (decide_eq_true hneg), natAbs_toInt_of_neg hneg]
        · rw [if_pos rfl, decide_eq_false hneg, if_neg Bool.false_ne_true,
            natAbs_toInt_of_nonneg hneg]
    | false =>
        subst hv
        rw [if_neg Bool.false_ne_true, decide_eq_false (Int.natCast_nonneg _).not_gt,
          if_neg Bool.false_ne_true, Int.natAbs_natCast]
  have hloop := digitLoop_spec hbase hle v.natAbs ⟨[], Nat.zero_le _⟩
  simp only [List.length_nil, Nat.zero_add, List.nil_append] at hloop
  rw [printint]
  dsimp only
  rw [hnegative, habs, numeral, List.length_append]
  cases hrun : digitLoop base v.natAbs ⟨[], Nat.zero_le _⟩ with
  | error e =>
      rw [hrun] at hloop
      split at hloop
      · cases hloop
      case isFalse hlong =>
          cases hloop
          rw [if_neg (by omega)]
          rfl
  | ok buf =>
      rw [hrun] at hloop
      split at hloop
      case isTrue hfit =>
          have hbuf : buf.val = (Nat.toDigits base v.natAbs).reverse := Except.ok.inj hloop
          by_cases hneg : v < 0
          · rw [if_pos hneg, decide_eq_true hneg]
            change (push '-' buf >>= fun buf => pure buf.val.reverse) = _
            have hlength : buf.val.length = (Nat.toDigits base v.natAbs).length := by
              rw [hbuf, List.length_reverse]
            rw [push]
            by_cases hroom : buf.val.length < bufSize
            · rw [dif_pos hroom, if_pos (by rw [List.length_singleton]; omega)]
              change Except.ok (buf.val ++ ['-']).reverse = _
              rw [hbuf, List.reverse_append, List.reverse_reverse, List.reverse_singleton]
            · rw [dif_neg hroom, if_neg (by rw [List.length_singleton]; omega)]
              rfl
          · rw [if_neg hneg, decide_eq_false hneg, if_pos (by rw [List.length_nil]; omega)]
            change Except.ok buf.val.reverse = _
            rw [hbuf, List.reverse_reverse, List.nil_append]
      · cases hloop

theorem numeral_natCast (base n : Nat) : numeral base (n : Int) = Nat.toDigits base n := by
  rw [numeral, if_neg (Int.natCast_nonneg n).not_gt, List.nil_append, Int.natAbs_natCast]

theorem length_numeral_le (hbase : 1 < base) (v : Int) : (numeral base v).length ≤ bufSize ↔
    v.natAbs < if v < 0 then base ^ 15 else base ^ 16 := by
  rw [numeral, List.length_append, bufSize]
  by_cases hneg : v < 0
  · rw [if_pos hneg, if_pos hneg, ← Nat.length_toDigits_le_iff hbase (by decide),
      List.length_singleton]
    omega
  · rw [if_neg hneg, if_neg hneg, ← Nat.length_toDigits_le_iff hbase (by decide),
      List.length_nil, Nat.zero_add]

end

/-! ## The conversions -/

inductive Size where
  | int
  | long
  | longLong
  deriving DecidableEq, Repr

inductive Kind where
  | d
  | u
  | x
  deriving DecidableEq, Repr

structure Conversion where
  size : Size
  kind : Kind
  deriving DecidableEq, Repr

def Size.chars : Size → List Char
  | .int => []
  | .long => ['l']
  | .longLong => ['l', 'l']

def Kind.char : Kind → Char
  | .d => 'd'
  | .u => 'u'
  | .x => 'x'

def Kind.base : Kind → Nat
  | .d => 10
  | .u => 10
  | .x => 16

def Conversion.text (c : Conversion) : List Char := '%' :: c.size.chars ++ [c.kind.char]

/-- The argument as a value of the type that the conversion is for. -/
def Conversion.value (c : Conversion) (a : Slot) : Int :=
  match c.size, c.kind with
  | .int, .d => (a.setWidth 32).toInt
  | .int, _ => (a.setWidth 32).toNat
  | _, .d => a.toInt
  | _, _ => a.toNat

def Conversion.passed (c : Conversion) (a : Slot) : BitVec 64 :=
  match c.size with
  | .int => vaInt a
  | _ => vaUint64 a

def Conversion.convert (c : Conversion) (a : Slot) : Except Fault (List Char) :=
  printint (c.passed a) c.kind.base (c.kind = .d)

/-- A 32-bit argument without sign is below 2^31, and a decimal numeral of a 64-bit
argument has at most 16 characters. -/
def Conversion.Exact (c : Conversion) (a : Slot) : Prop :=
  match c.size, c.kind with
  | .int, .d => True
  | .int, _ => c.value a < 2147483648
  | _, .d => -1000000000000000 < c.value a ∧ c.value a < 10000000000000000
  | _, .u => c.value a < 10000000000000000
  | _, .x => True

section

variable {strings : Slot → List Char} {c : Conversion} {fmt : List Char} {a : Slot}
  {args : List Slot}

theorem withArg_bind {α : Type} (a : Slot) (args : List Slot) (used : Nat)
    (print : Slot → Except Fault (List Char)) (f : Printed → Except Fault α) :
    withArg (a :: args) used print >>= f = print a >>= fun s => f ⟨s, args, used⟩ := by
  rw [withArg]
  cases print a with
  | error e => rfl
  | ok s => rfl

theorem printf_text : printf strings (c.text ++ fmt) args =
    withArg args (c.size.chars.length + 1) c.convert >>= fun printed => do
      return printed.text ++
        (← printf strings ((c.size.chars ++ c.kind.char :: fmt).drop printed.used)
          printed.args) := by
  obtain ⟨size, kind⟩ := c
  rw [printf.eq_def]
  cases size <;> cases kind <;> rfl

theorem printf_conversion : printf strings (c.text ++ fmt) (a :: args) = do
    let s ← c.convert a
    return s ++ (← printf strings fmt args) := by
  have hdrop : (c.size.chars ++ c.kind.char :: fmt).drop (c.size.chars.length + 1) = fmt := by
    rw [← List.drop_drop, List.drop_left]
    rfl
  rw [printf_text, withArg_bind]
  simp only [hdrop]

theorem vaInt_toInt (a : Slot) : (vaInt a).toInt = (a.setWidth 32).toInt :=
  BitVec.toInt_signExtend_of_le (by decide)

/-- The sign is extended although the conversion has none. -/
theorem vaInt_toNat (a : Slot) : (vaInt a).toNat =
    if (a.setWidth 32).toNat < 2147483648 then (a.setWidth 32).toNat
    else (a.setWidth 32).toNat + 18446744069414584320 := by
  have hlt := (a.setWidth 32).isLt
  rw [vaInt, BitVec.toNat_signExtend, BitVec.msb_eq_decide, BitVec.toNat_setWidth,
    Nat.mod_eq_of_lt (by omega)]
  simp only [decide_eq_true_eq]
  split_ifs <;> omega

theorem Conversion.convert_spec (c : Conversion) (a : Slot) {v : Int}
    (hv : v = if c.kind = .d then (c.passed a).toInt else (c.passed a).toNat) :
    c.convert a = .ok (numeral c.kind.base (c.value a)) ↔
      (numeral c.kind.base v).length ≤ bufSize ∧
        numeral c.kind.base v = numeral c.kind.base (c.value a) := by
  have hbase : 1 < c.kind.base ∧ c.kind.base ≤ 16 := by
    cases c.kind <;> decide
  rw [Conversion.convert, printint_spec hbase.1 hbase.2 (hv.trans (by simp))]
  by_cases hfit : (numeral c.kind.base v).length ≤ bufSize
  · rw [if_pos hfit, and_iff_right hfit, Except.ok.injEq]
  · rw [if_neg hfit]
    exact iff_of_false (fun h => by cases h) fun h => hfit h.1

theorem Conversion.convert_value (c : Conversion) (a : Slot)
    (hv : c.value a = if c.kind = .d then (c.passed a).toInt else (c.passed a).toNat) :
    c.convert a = .ok (numeral c.kind.base (c.value a)) ↔ (c.value a).natAbs <
      if c.value a < 0 then c.kind.base ^ 15 else c.kind.base ^ 16 := by
  have hbase : 1 < c.kind.base := by
    cases c.kind <;> decide
  rw [c.convert_spec a hv, length_numeral_le hbase, and_iff_left rfl]

theorem convert_int_d (a : Slot) : Conversion.convert ⟨.int, .d⟩ a =
    .ok (numeral 10 (Conversion.value ⟨.int, .d⟩ a)) := by
  have hlow := BitVec.le_toInt (a.setWidth 32)
  have hhigh := BitVec.toInt_lt (x := a.setWidth 32)
  apply (Conversion.convert_value ⟨.int, .d⟩ a (vaInt_toInt a).symm).mpr
  change (a.setWidth 32).toInt.natAbs < if (a.setWidth 32).toInt < 0 then 10 ^ 15 else 10 ^ 16
  split_ifs <;> omega

theorem convert_int_unsigned {kind : Kind} (hkind : kind ≠ .d) (a : Slot) :
    Conversion.convert ⟨.int, kind⟩ a =
        .ok (numeral kind.base (Conversion.value ⟨.int, kind⟩ a)) ↔
      (a.setWidth 32).toNat < 2147483648 := by
  have hlt := (a.setWidth 32).isLt
  have hnat := vaInt_toNat a
  have hvalue : Conversion.value ⟨.int, kind⟩ a = (a.setWidth 32).toNat := by
    cases kind with
    | d => exact absurd rfl hkind
    | u => rfl
    | x => rfl
  rw [Conversion.convert_spec ⟨.int, kind⟩ a (if_neg hkind).symm, hvalue]
  change (numeral kind.base (vaInt a).toNat).length ≤ bufSize ∧
    numeral kind.base (vaInt a).toNat = _ ↔ _
  have hbase : 1 < kind.base ∧ (2147483648 < kind.base ^ 16) ∧ (4294967296 < kind.base ^ 10) ∧
      kind.base ^ 10 < 18446744069414584320 := by
    cases kind <;> decide
  split_ifs at hnat with hsmall
  · rw [hnat]
    refine iff_of_true ⟨?_, rfl⟩ hsmall
    rw [length_numeral_le hbase.1, if_neg (Int.natCast_nonneg _).not_gt]
    exact hsmall.trans hbase.2.1
  · refine iff_of_false ?_ hsmall
    rintro ⟨-, heq⟩
    -- one has at most ten digits and the other more
    have hdigits : Nat.toDigits kind.base (vaInt a).toNat =
        Nat.toDigits kind.base (a.setWidth 32).toNat := by
      rw [← numeral_natCast, heq, numeral_natCast]
    have hshort : (Nat.toDigits kind.base (a.setWidth 32).toNat).length ≤ 10 := by
      rw [Nat.length_toDigits_le_iff hbase.1 (by decide)]
      omega
    rw [← hdigits, Nat.length_toDigits_le_iff hbase.1 (by decide)] at hshort
    omega

theorem convert_long {size : Size} (hsize : size ≠ .int) (kind : Kind) (a : Slot) :
    Conversion.convert ⟨size, kind⟩ a =
      .ok (numeral kind.base (Conversion.value ⟨size, kind⟩ a)) ↔
      Conversion.Exact ⟨size, kind⟩ a := by
  have hlt := a.isLt
  have hd : a.toInt.natAbs < (if a.toInt < 0 then 10 ^ 15 else 10 ^ 16) ↔
      -1000000000000000 < a.toInt ∧ a.toInt < 10000000000000000 := by
    split_ifs <;> omega
  have hu : (a.toNat : Int).natAbs < (if (a.toNat : Int) < 0 then 10 ^ 15 else 10 ^ 16) ↔
      (a.toNat : Int) < 10000000000000000 := by
    split_ifs <;> omega
  have hx : (a.toNat : Int).natAbs < if (a.toNat : Int) < 0 then 16 ^ 15 else 16 ^ 16 := by
    split_ifs <;> omega
  cases size with
  | int => exact absurd rfl hsize
  | long =>
      cases kind with
      | d => exact (Conversion.convert_value ⟨.long, .d⟩ a rfl).trans hd
      | u => exact (Conversion.convert_value ⟨.long, .u⟩ a rfl).trans hu
      | x => exact (Conversion.convert_value ⟨.long, .x⟩ a rfl).trans (iff_of_true hx trivial)
  | longLong =>
      cases kind with
      | d => exact (Conversion.convert_value ⟨.longLong, .d⟩ a rfl).trans hd
      | u => exact (Conversion.convert_value ⟨.longLong, .u⟩ a rfl).trans hu
      | x => exact (Conversion.convert_value ⟨.longLong, .x⟩ a rfl).trans (iff_of_true hx trivial)

theorem Conversion.convert_iff :
    c.convert a = .ok (numeral c.kind.base (c.value a)) ↔ c.Exact a := by
  obtain ⟨size, kind⟩ := c
  cases size with
  | int =>
      cases kind with
      | d => exact iff_of_true (convert_int_d a) trivial
      | u =>
          rw [convert_int_unsigned (by decide)]
          exact Int.ofNat_lt.symm
      | x =>
          rw [convert_int_unsigned (by decide)]
          exact Int.ofNat_lt.symm
  | long => exact convert_long (by decide) kind a
  | longLong => exact convert_long (by decide) kind a

end

/-- A conversion prints its argument, within the buffer, exactly for these arguments. -/
theorem printf_exact_iff (strings : Slot → List Char) (c : Conversion) (a : Slot) :
    (∀ fmt args, printf strings (c.text ++ fmt) (a :: args) =
      (printf strings fmt args).map (numeral c.kind.base (c.value a) ++ ·)) ↔ c.Exact a := by
  rw [← Conversion.convert_iff]
  constructor
  · intro h
    have hnil := h [] []
    rw [printf_conversion, printf] at hnil
    cases hconvert : c.convert a with
    | error e =>
        rw [hconvert] at hnil
        cases hnil
    | ok s =>
        rw [hconvert] at hnil
        change Except.ok (s ++ []) = Except.ok (_ ++ []) at hnil
        rw [List.append_nil, List.append_nil] at hnil
        exact hnil
  · intro h fmt args
    rw [printf_conversion, h]
    rfl

/-- `%x` of 2^31 has eight digits too many, and `%lu` of 10^16 does not fit. -/
theorem printf_signExtends :
    printf (fun _ => []) ['%', 'x'] [0x80000000] = .ok "ffffffff80000000".toList ∧
      printf (fun _ => []) ['%', 'l', 'u'] [10000000000000000] = .error .overflow := by
  have hx := @printf_conversion (fun _ => []) ⟨.int, .x⟩ [] 0x80000000 []
  have hu := @printf_conversion (fun _ => []) ⟨.long, .u⟩ [] 10000000000000000 []
  rw [Conversion.convert, printint_spec (by decide) (by decide) rfl, printf] at hx hu
  exact ⟨hx.trans (by decide), hu.trans (by decide)⟩

end SyscallSched.Xv6.Printf
