import SyscallSched.Foundation.Terminated
import SyscallSched.Xv6.PageTable
import SyscallSched.Xv6.UserCopy

/-!
# `copyinstr` (`vm.c`) and `fetchstr` (`syscall.c`)

A string of the user is copied up to its NUL, page by page.  The two loops together read the
bytes at the user addresses one after the other, until the NUL, `max` bytes or an address
that is not mapped.
-/

namespace SyscallSched.Xv6

open SyscallSched.Foundation

/-! ## The code -/

/-- The variables of `copyinstr`: the buffer of the kernel, which is on no page that is read,
how far `dst` has moved in it, `max` and `got_null`. -/
structure CopyStr where
  buf : Nat → Nat
  dst : Nat
  max : Nat
  gotNull : Bool

/-- The inner loop, over `n` bytes from `p` on of the page `pa`. -/
def copyinstrPage (m : Mem) (pa : Nat) : Nat → Nat → CopyStr → CopyStr
  | 0, _, s => s
  | n + 1, p, s =>
      if pageByte m pa p = 0 then
        { s with buf := Function.update s.buf s.dst 0, gotNull := true }
      else
        copyinstrPage m pa n (p + 1)
          { s with
            buf := Function.update s.buf s.dst (pageByte m pa p)
            max := s.max - 1
            dst := s.dst + 1 }

/-- The outer loop: the buffer, and whether `copyinstr` returns 0 (and not -1).  A loop that
does not end runs out of fuel, which is an error. -/
def copyinstrLoop (pagetable : Nat) : Nat → Nat → CopyStr → MemM ((Nat → Nat) × Bool)
  | 0, _, _ => throw .kerneltrap
  | fuel + 1, srcva, s =>
      if s.gotNull = false ∧ 0 < s.max then do
        let pa0 ← walkaddr pagetable (pgRoundDown srcva)
        if pa0 = 0 then
          pure (s.buf, false)
        else do
          let n := min (pgSize - (srcva - pgRoundDown srcva)) s.max
          let s' := copyinstrPage (← get) pa0 n (srcva - pgRoundDown srcva) s
          copyinstrLoop pagetable fuel ((pgRoundDown srcva + pgSize) % 2 ^ 64) s'
      else
        pure (s.buf, s.gotNull)

/-- Every iteration but the last takes something from `max`. -/
def copyinstr (pagetable : Nat) (dst : Nat → Nat) (srcva max : Nat) : MemM ((Nat → Nat) × Bool) :=
  copyinstrLoop pagetable (max + 1) srcva { buf := dst, dst := 0, max, gotNull := false }

def strlenLoop (s : Nat → Nat) : Nat → Nat → Except Panic Nat
  | 0, _ => throw .kerneltrap
  | fuel + 1, n => if s n = 0 then pure n else strlenLoop s fuel (n + 1)

/-- Of a buffer of `size` bytes. -/
def strlen (s : Nat → Nat) (size : Nat) : Except Panic Nat := strlenLoop s size 0

/-- `max` becomes a `uint64`. -/
def fetchstr (p addr : Nat) (buf : Nat → Nat) (max : Int) : KernelM ((Nat → Nat) × Int) := do
  let size := (max % 18446744073709551616).toNat
  let r ← inMem (copyinstr (← getProc p).pagetable buf addr size)
  if r.2 = false then
    pure (r.1, -1)
  else do
    let n ← strlen r.1 size
    pure (r.1, (n : Int))

/-! ## Strings of the user -/

/-- The `k` bytes from `va` on are no NULs, the next one is, and all of them lie on pages
with `P`. -/
structure UserString (P : Nat → Prop) (m : Mem) (r va k : Nat) : Prop where
  covers : Covers P va (k + 1)
  nul : userByte m r (va + k) = 0
  before : ∀ i < k, userByte m r (va + i) ≠ 0

def IsString (k : Kernel) (p va len : Nat) : Prop :=
  UserString (UserPage k.mem (k.proc p).pagetable) k.mem (k.proc p).pagetable va len

/-- The bytes that can be reached by user addresses. -/
def userSrc (m : Mem) (r va : Nat) : Option Nat :=
  if va < maxVa ∧ UserPage m r (va / pgSize) then some (userByte m r va) else none

section

variable {m : Mem} {r va k n fuel a : Nat} {s : CopyStr}

theorem userSrc_eq_some :
    userSrc m r va = some a ↔ (va < maxVa ∧ UserPage m r (va / pgSize)) ∧ userByte m r va = a := by
  unfold userSrc
  split_ifs with h
  · simp [h]
  · simp [h]

theorem terminatedAt_user :
    TerminatedAt 0 (userSrc m r) va k ↔ UserString (UserPage m r) m r va k := by
  constructor
  · intro h
    have hbefore : ∀ i < k, (va + i < maxVa ∧ UserPage m r ((va + i) / pgSize)) ∧
        userByte m r (va + i) ≠ 0 := by
      intro i hi
      obtain ⟨a, ha, hne⟩ := h.before i hi
      obtain ⟨hmapped, hbyte⟩ := userSrc_eq_some.mp ha
      rw [hbyte]
      exact ⟨hmapped, hne⟩
    obtain ⟨hmapped, hnul⟩ := userSrc_eq_some.mp h.last
    refine ⟨?_, hnul, fun i hi => (hbefore i hi).2⟩
    intro i hi
    cases Nat.lt_or_eq_of_le (Nat.le_of_lt_succ hi) with
    | inl hlt => exact (hbefore i hlt).1
    | inr heq =>
        rw [heq]
        exact hmapped
  · intro h
    constructor
    case last => exact userSrc_eq_some.mpr ⟨h.covers k (Nat.lt_succ_self k), h.nul⟩
    case before =>
        intro i hi
        exact ⟨_, userSrc_eq_some.mpr ⟨h.covers i (Nat.lt_succ_of_lt hi), rfl⟩, h.before i hi⟩

/-! ## The loops as one reading -/

structure ReadPage (src : Nat → Option Nat) (n va : Nat) (s s' : CopyStr) : Prop where
  buf : s'.buf = fill s.buf s.dst (readUntil 0 src n va).1
  gotNull : s'.gotNull = (readUntil 0 src n va).2
  missed : (readUntil 0 src n va).2 = false → s'.dst = s.dst + (readUntil 0 src n va).1.length ∧
    s'.max = s.max - n

theorem copyinstrPage_read {src : Nat → Option Nat} {pa p : Nat} (hs : s.gotNull = false)
    (hsrc : ∀ i < n, src (va + i) = some (pageByte m pa (p + i))) :
    ReadPage src n va s (copyinstrPage m pa n p s) := by
  induction n generalizing va p s with
  | zero => exact ⟨rfl, hs, fun _ => ⟨rfl, rfl⟩⟩
  | succ n ih =>
      have hfirst := hsrc 0 (Nat.succ_pos n)
      rw [Nat.add_zero, Nat.add_zero] at hfirst
      unfold copyinstrPage
      split_ifs with hnul
      · rw [hnul] at hfirst
        constructor
        case buf => rw [readUntil_stop hfirst, fill, fill]
        case gotNull => rw [readUntil_stop hfirst]
        case missed => simp [readUntil_stop hfirst]
      · have hrest : ∀ i < n, src (va + 1 + i) = some (pageByte m pa (p + 1 + i)) := by
          intro i hi
          rw [Nat.add_assoc, Nat.add_assoc, Nat.add_comm 1 i]
          exact hsrc (i + 1) (Nat.succ_lt_succ hi)
        have hread := ih (s := { s with
          buf := Function.update s.buf s.dst (pageByte m pa p)
          max := s.max - 1
          dst := s.dst + 1 }) hs hrest
        constructor
        case buf =>
            rw [readUntil_more hfirst hnul, fill]
            exact hread.buf
        case gotNull =>
            rw [readUntil_more hfirst hnul]
            exact hread.gotNull
        case missed =>
            rw [readUntil_more hfirst hnul]
            intro hmissed
            obtain ⟨hdst, hmax⟩ := hread.missed hmissed
            refine ⟨hdst.trans ?_, hmax.trans ?_⟩
            · simp only [List.length_cons]
              omega
            · simp only
              omega

theorem userSrc_page (hva : va < maxVa) (hpage : UserPage m r (va / pgSize))
    (hfit : va % pgSize + n ≤ pgSize) : ∀ i < n, userSrc m r (va + i) =
      some (pageByte m (pte2pa (leafAt m 2 r (va / pgSize))) (va - pgRoundDown va + i)) := by
  intro i hi
  have hdiv : (va + i) / pgSize = va / pgSize := by
    simp only [pgSize] at *
    omega
  have hmod : (va + i) % pgSize = va - pgRoundDown va + i := by
    simp only [pgRoundDown, pgSize] at *
    omega
  apply userSrc_eq_some.mpr
  rw [hdiv, userByte, mapByte, hdiv, hmod]
  refine ⟨⟨?_, hpage⟩, rfl⟩
  simp only [maxVa, pgSize] at *
  omega

theorem copyinstrLoop_null (hs : s.gotNull = true) :
    copyinstrLoop r (fuel + 1) va s m = .ok ((s.buf, true), m) := by
  have hcond : ¬ (s.gotNull = false ∧ 0 < s.max) := by simp [hs]
  rw [copyinstrLoop, if_neg hcond, hs]
  rfl

theorem copyinstrLoop_eq (hs : s.gotNull = false) (hfuel : s.max < fuel) :
    copyinstrLoop r fuel va s m =
      .ok ((fill s.buf s.dst (readUntil 0 (userSrc m r) s.max va).1,
        (readUntil 0 (userSrc m r) s.max va).2), m) := by
  induction fuel generalizing va s with
  | zero => exact absurd hfuel (Nat.not_lt_zero s.max)
  | succ fuel ih =>
      rw [copyinstrLoop]
      by_cases hmax : s.max = 0
      · have hcond : ¬ (s.gotNull = false ∧ 0 < s.max) := by simp [hmax]
        rw [if_neg hcond, hmax, hs]
        rfl
      rw [if_pos ⟨hs, Nat.pos_of_ne_zero hmax⟩]
      have hbelow : pgRoundDown va < maxVa ↔ va < maxVa := by
        simp only [pgRoundDown, maxVa, pgSize]
        omega
      obtain ⟨pa, hrun, hfound, hpa⟩ := walkaddr_page m r va
      rw [hbelow] at hfound
      rw [Total.run_bind hrun]
      by_cases hzero : pa = 0
      · have hnone : userSrc m r va = none := by
          rw [userSrc, if_neg (fun hmapped => hfound.mpr hmapped hzero)]
        rw [if_pos hzero, readUntil_none hnone, fill]
        rfl
      rw [if_neg hzero, Total.run_bind (a := m) (t := m) rfl]
      obtain ⟨hva, hpage⟩ := hfound.mp hzero
      have hchunk := chunk_min va hmax
      generalize min (pgSize - (va - pgRoundDown va)) s.max = n at hchunk ⊢
      obtain ⟨hfit, hpos, hle, hnext⟩ := hchunk
      have hsrc := userSrc_page hva hpage hfit
      rw [← hpa hzero] at hsrc
      have hread := copyinstrPage_read hs hsrc
      obtain ⟨k, hk⟩ := Nat.exists_eq_add_of_le hle
      rw [next_page_mod (hbelow.mpr hva), hk]
      generalize copyinstrPage m pa n (va - pgRoundDown va) s = s' at hread ⊢
      cases hgot : (readUntil 0 (userSrc m r) n va).2 with
      | true =>
          obtain ⟨fuel, rfl⟩ := Nat.exists_eq_succ_of_ne_zero (show fuel ≠ 0 by omega)
          rw [copyinstrLoop_null (hread.gotNull.trans hgot), readUntil_add_found hgot, hgot,
            hread.buf]
      | false =>
          obtain ⟨hdst, hmax'⟩ := hread.missed hgot
          have hleft : s'.max = k := by omega
          have hsome : ∀ i < n, userSrc m r (va + i) ≠ none := by
            intro i hi
            rw [hsrc i hi]
            exact Option.some_ne_none _
          have hrest : readUntil 0 (userSrc m r) k (pgRoundDown va + pgSize) =
              readUntil 0 (userSrc m r) k (va + n) := by
            by_cases hmore : n < s.max
            · rw [hnext hmore]
            · obtain rfl : k = 0 := by omega
              rfl
          rw [ih (hread.gotNull.trans hgot) (by omega), hleft, hrest,
            readUntil_add_full hsome hgot, fill_append, hread.buf, hdst]

theorem copyinstr_eq (m : Mem) (r : Nat) (dst : Nat → Nat) (srcva max : Nat) :
    copyinstr r dst srcva max m =
      .ok ((fill dst 0 (readUntil 0 (userSrc m r) max srcva).1,
        (readUntil 0 (userSrc m r) max srcva).2), m) :=
  copyinstrLoop_eq rfl (Nat.lt_succ_self max)

/-! ## The string that is copied -/

structure CopiedStr (m : Mem) (r va n : Nat) (buf buf' : Nat → Nat) : Prop where
  bytes : ∀ i < n, buf' i = userByte m r (va + i)
  others : ∀ i, n ≤ i → buf' i = buf i

theorem copiedStr_read (m : Mem) (r va n : Nat) (buf : Nat → Nat) :
    CopiedStr m r va (readUntil 0 (userSrc m r) n va).1.length buf
      (fill buf 0 (readUntil 0 (userSrc m r) n va).1) := by
  constructor
  case bytes =>
      intro i hi
      have hread := readUntil_at hi
      rw [List.getElem?_eq_getElem hi] at hread
      have hfill := @fill_inside _ buf 0 i _ hi
      rw [Nat.zero_add] at hfill
      rw [hfill, (userSrc_eq_some.mp hread.symm).2]
  case others =>
      intro i hi
      exact fill_outside (.inr (by omega))

theorem copiedStr_string {max : Nat} (buf : Nat → Nat) (hk : k < max)
    (h : UserString (UserPage m r) m r va k) :
    CopiedStr m r va (k + 1) buf (fill buf 0 (readUntil 0 (userSrc m r) max va).1) := by
  have hlength := (readUntil_found hk (terminatedAt_user.mpr h)).2
  have hcopied := copiedStr_read m r va max buf
  rw [hlength] at hcopied
  exact hcopied

theorem copyinstr_found {max : Nat} (dst : Nat → Nat) (hk : k < max)
    (h : UserString (UserPage m r) m r va k) :
    ∃ dst', copyinstr r dst va max m = .ok ((dst', true), m) ∧
      CopiedStr m r va (k + 1) dst dst' := by
  have hfound := (readUntil_found hk (terminatedAt_user.mpr h)).1
  exact ⟨_, hfound ▸ copyinstr_eq m r dst va max, copiedStr_string dst hk h⟩

theorem copyinstr_missed {max : Nat} (dst : Nat → Nat)
    (h : ∀ k < max, ¬ UserString (UserPage m r) m r va k) :
    ∃ dst', copyinstr r dst va max m = .ok ((dst', false), m) := by
  have hmissed : (readUntil 0 (userSrc m r) max va).2 = false := by
    rw [Bool.eq_false_iff, ne_eq, readUntil_found_iff]
    rintro ⟨k, hk, hstring⟩
    exact h k hk (terminatedAt_user.mp hstring)
  exact ⟨_, hmissed ▸ copyinstr_eq m r dst va max⟩

/-- `copyinstr` ends for every table, address and `max`.  It returns 0 exactly if a string of
less than `max` bytes begins at the address, all on pages that `walkaddr` finds, and has then
copied it with its NUL and stored nothing else; if it does not, it has stored at most `max`
bytes. -/
theorem copyinstr_string (m : Mem) (r : Nat) (dst : Nat → Nat) (srcva max : Nat) :
    ∃ dst' ok, copyinstr r dst srcva max m = .ok ((dst', ok), m) ∧
      (∀ fuel, max < fuel → copyinstrLoop r fuel srcva
        { buf := dst, dst := 0, max, gotNull := false } m = .ok ((dst', ok), m)) ∧
      (ok = true ↔ ∃ k < max, UserString (UserPage m r) m r srcva k) ∧
      (∀ k < max, UserString (UserPage m r) m r srcva k →
        dst' k = 0 ∧ CopiedStr m r srcva (k + 1) dst dst') ∧
      (ok = false → ∃ n ≤ max, CopiedStr m r srcva n dst dst') := by
  refine ⟨_, _, copyinstr_eq m r dst srcva max, ?_, ?_, ?_, ?_⟩
  · intro fuel hfuel
    exact copyinstrLoop_eq rfl hfuel
  · simp only [readUntil_found_iff, terminatedAt_user]
  · intro k hk hstring
    have hcopied := copiedStr_string dst hk hstring
    refine ⟨?_, hcopied⟩
    rw [hcopied.bytes k (Nat.lt_succ_self k), hstring.nul]
  · intro _
    exact ⟨_, length_readUntil_le 0 (userSrc m r) max srcva, copiedStr_read m r srcva max dst⟩

/-! ## `fetchstr` -/

theorem strlenLoop_eq {str : Nat → Nat} {j : Nat} (hnul : str (n + j) = 0)
    (hbefore : ∀ i < j, str (n + i) ≠ 0) (hfuel : j < fuel) :
    strlenLoop str fuel n = .ok (n + j) := by
  induction fuel generalizing n j with
  | zero => exact absurd hfuel (Nat.not_lt_zero j)
  | succ fuel ih =>
      rw [strlenLoop]
      cases j with
      | zero =>
          rw [Nat.add_zero] at hnul
          rw [if_pos hnul]
          rfl
      | succ j =>
          have hnext : ∀ i, n + 1 + i = n + (i + 1) := fun i => by omega
          have hfirst := hbefore 0 (Nat.succ_pos j)
          rw [Nat.add_zero] at hfirst
          rw [if_neg hfirst, ih, hnext]
          · rw [hnext]
            exact hnul
          · intro i hi
            rw [hnext]
            exact hbefore (i + 1) (Nat.succ_lt_succ hi)
          · exact Nat.lt_of_succ_lt_succ hfuel

theorem CopiedStr.strlen {P : Nat → Prop} {size : Nat} {buf buf' : Nat → Nat}
    (hstring : UserString P m r va k) (h : CopiedStr m r va (k + 1) buf buf') (hk : k < size) :
    strlen buf' size = .ok k := by
  have hlen := @strlenLoop_eq 0 size buf' k (by
    rw [Nat.zero_add, h.bytes k (Nat.lt_succ_self k), hstring.nul]) (by
    intro i hi
    rw [Nat.zero_add, h.bytes i (Nat.lt_succ_of_lt hi)]
    exact hstring.before i hi) hk
  rw [Nat.zero_add] at hlen
  exact hlen

theorem fetchstr_string (k : Kernel) (p addr : Nat) (buf : Nat → Nat) {max : Int} (hmin : 0 ≤ max)
    (hmax : max < 2147483648) : ∃ buf' n, fetchstr p addr buf max k = .ok ((buf', n), k) ∧
      ((∃ len : Nat, n = len ∧ n < max ∧ IsString k p addr len ∧
          CopiedStr k.mem (k.proc p).pagetable addr (len + 1) buf buf') ∨
        n = -1 ∧ ∀ len : Nat, len < max → ¬ IsString k p addr len) := by
  obtain ⟨size, rfl⟩ := Int.eq_ofNat_of_zero_le hmin
  have hsize : ((size : Int) % 18446744073709551616).toNat = size := by omega
  have hproc : (getProc p) k = .ok (k.proc p, k) := rfl
  rw [fetchstr, hsize, Total.run_bind hproc]
  by_cases hstring : ∃ len < size, IsString k p addr len
  · obtain ⟨len, hlt, hstring⟩ := hstring
    obtain ⟨buf', hrun, hcopied⟩ := copyinstr_found buf hlt hstring
    have hlen : (liftM (strlen buf' size) : KernelM Nat) k = .ok (len, k) := by
      rw [hcopied.strlen hstring hlt]
      rfl
    refine ⟨buf', len, ?_, .inl ⟨len, rfl, Int.ofNat_lt.mpr hlt, hstring, hcopied⟩⟩
    rw [Total.run_bind (inMem_run hrun), if_neg Bool.noConfusion, Total.run_bind hlen]
    rfl
  · have hnone : ∀ len < size, ¬ IsString k p addr len := fun len hlt h => hstring ⟨len, hlt, h⟩
    obtain ⟨buf', hrun⟩ := copyinstr_missed buf hnone
    refine ⟨buf', -1, ?_, .inr ⟨rfl, fun len hlt => hnone len (Int.ofNat_lt.mp hlt)⟩⟩
    rw [Total.run_bind (inMem_run hrun), if_pos rfl]
    rfl

end

/-! ## A string on the frame 0 -/

attribute [local instance] builtImage in
/-- The page 0 is mapped to the frame 0, which `walkaddr` returns as if it were not mapped. -/
theorem copyinstr_frame_zero : ∃ m, mappages 0x80026000 0 4096 0 18 emptyTable = .ok (true, m) ∧
    UserString (Readable m 0x80026000) m 0x80026000 0 0 ∧
    ∀ dst, copyinstr 0x80026000 dst 0 1 m = .ok ((dst, false), m) := by
  have heval : (mappages 0x80026000 0 4096 0 18 emptyTable).toOption.map (fun p =>
      (p.1, leafAt p.2 2 0x80026000 0, p.2.page 0 0)) = some (true, 19, 0) := by decide +kernel
  cases hrun : mappages 0x80026000 0 4096 0 18 emptyTable with
  | error e =>
      rw [hrun] at heval
      cases heval
  | ok p =>
      obtain ⟨mapped, m⟩ := p
      rw [hrun] at heval
      obtain ⟨rfl, hrest⟩ := Prod.mk.inj (Option.some.inj heval)
      obtain ⟨hleaf, hword⟩ := Prod.mk.inj hrest
      refine ⟨m, rfl, ?_, ?_⟩
      · constructor
        case covers =>
            intro i hi
            obtain rfl : i = 0 := Nat.lt_one_iff.mp hi
            refine ⟨by decide, ?_⟩
            change Readable m 0x80026000 0
            rw [Readable, hleaf]
            decide
        case nul =>
            change pageByte m (pte2pa (leafAt m 2 0x80026000 0)) 0 = 0
            rw [hleaf]
            change digit 256 (m.page 0 0) 0 = 0
            rw [hword]
            rfl
        case before =>
            intro i hi
            exact absurd hi (Nat.not_lt_zero i)
      · intro dst
        have hnone : userSrc m 0x80026000 0 = none := by
          apply if_neg
          intro hmapped
          apply hmapped.2.2
          change pte2pa (leafAt m 2 0x80026000 0) = 0
          rw [hleaf]
          rfl
        rw [copyinstr_eq, readUntil_none hnone]
        rfl

end SyscallSched.Xv6
