import SyscallSched.Foundation.Components
import SyscallSched.Grep.Model

/-!
# The lines that `grep` writes (`grep.c`)

A read returns some bytes of the file, and none if none are left or asked for; how many
else is up to the file.  `buf` holds at most 1023 bytes and the NUL after them, so that a
line that is as long as that stops the loop: `grep` asks for no bytes and takes this for
the end of the file.
-/

namespace SyscallSched.Grep

open SyscallSched.Foundation

/-! ## The function -/

def newline : UInt8 := 10

/-- `sizeof(buf)` -/
def bufSize : Nat := 1024

/-- The first `m` bytes of `buf`, of which `buf[m]` is the next. -/
abbrev Buf := { bytes : Str // bytes.length < bufSize }

/-- The offset that `strchr` finds, before the first NUL. -/
def strchr (c : UInt8) : Str → Option Nat
  | [] => none
  | x :: s =>
      if x = 0 then none
      else if x = c then some 0
      else (strchr c s).map (· + 1)

theorem strchr_lt {c : UInt8} {s : Str} {k : Nat} (h : strchr c s = some k) : k < s.length := by
  induction s generalizing k with
  | nil => cases h
  | cons x s ih =>
      rw [strchr] at h
      split at h
      · cases h
      · split at h
        · cases h
          exact Nat.zero_lt_succ _
        · obtain ⟨j, hj, rfl⟩ := Option.map_eq_some_iff.mp h
          exact Nat.succ_lt_succ (ih hj)

def lineLoop (pattern p : Str) : List Str × Str :=
  match _h : strchr newline p with
  | none => ([], p)
  | some q =>
      let next := lineLoop pattern (p.drop (q + 1))
      (if match' pattern (p.take q) then p.take (q + 1) :: next.1 else next.1, next.2)
termination_by p.length
decreasing_by
  have hlt := strchr_lt _h
  rw [List.length_drop]
  omega

/-- `read` at a file from which `rest` is still to be read, asked for `size` bytes: the file
would like to return `chunk` of them. -/
def readCount (chunk size : Nat) (rest : Str) : Nat := min (max chunk 1) (min size rest.length)

section

variable {pattern p : Str} {q : Nat}

theorem lineLoop_none (h : strchr newline p = none) : lineLoop pattern p = ([], p) := by
  rw [lineLoop]
  split
  case h_1 => rfl
  case h_2 heq =>
      rw [h] at heq
      cases heq

theorem lineLoop_some (h : strchr newline p = some q) : lineLoop pattern p =
    (if match' pattern (p.take q) then
      p.take (q + 1) :: (lineLoop pattern (p.drop (q + 1))).1
    else
      (lineLoop pattern (p.drop (q + 1))).1, (lineLoop pattern (p.drop (q + 1))).2) := by
  rw [lineLoop]
  split
  case h_1 heq =>
      rw [h] at heq
      cases heq
  case h_2 r heq =>
      rw [h] at heq
      cases heq
      rfl

theorem length_lineLoop (pattern p : Str) : (lineLoop pattern p).2.length ≤ p.length := by
  induction p using lineLoop.induct pattern with
  | case1 p hnone => rw [lineLoop_none hnone]
  | case2 p q hq ih =>
      rw [lineLoop_some hq]
      exact ih.trans (List.length_drop.trans_le (Nat.sub_le _ _))

end

/-- `sizeof(buf)-m-1` -/
def room (buf : Buf) : Nat := bufSize - buf.val.length - 1

theorem readCount_le_size (chunk size : Nat) (rest : Str) : readCount chunk size rest ≤ size :=
  (Nat.min_le_right _ _).trans (Nat.min_le_left _ _)

theorem readCount_le_length (chunk size : Nat) (rest : Str) :
    readCount chunk size rest ≤ rest.length :=
  (Nat.min_le_right _ _).trans (Nat.min_le_right _ _)

theorem readCount_eq_zero {chunk size : Nat} {rest : Str} :
    readCount chunk size rest = 0 ↔ size = 0 ∨ rest = [] := by
  rw [readCount, ← List.length_eq_zero_iff]
  omega

theorem length_read_lt (buf : Buf) {n : Nat} {rest : Str} (hn : n ≤ room buf) :
    (buf.val ++ rest.take n).length < bufSize := by
  have hbuf := buf.property
  rw [room] at hn
  rw [List.length_append, List.length_take]
  omega

/-- The loop of `grep` from the `i`-th read on: the bytes that each `write` writes. -/
def grepLoop (pattern : Str) (chunk : Nat → Nat) (i : Nat) (buf : Buf) (rest : Str) : List Str :=
  if _h : readCount (chunk i) (room buf) rest = 0 then
    []
  else
    let n := readCount (chunk i) (room buf) rest
    let p := buf.val ++ rest.take n
    (lineLoop pattern p).1 ++ grepLoop pattern chunk (i + 1)
      ⟨(lineLoop pattern p).2, (length_lineLoop pattern p).trans_lt
        (length_read_lt buf (readCount_le_size _ _ _))⟩ (rest.drop n)
termination_by rest.length
decreasing_by
  have hle := readCount_le_length (chunk i) (room buf) rest
  rw [List.length_drop]
  omega

/-- `grep` on a file of that content, of which the `i`-th read would like to return
`chunk i` bytes. -/
def grep (pattern : Str) (chunk : Nat → Nat) (content : Str) : List Str :=
  grepLoop pattern chunk 0 ⟨[], Nat.zero_lt_succ _⟩ content

/-! ## The lines -/

section

variable {pattern p s content : Str} {c : UInt8} {k : Nat}

theorem strchr_none (hs : 0 ∉ s) (h : strchr c s = none) : c ∉ s := by
  induction s with
  | nil => simp
  | cons x s ih =>
      rw [List.mem_cons, not_or] at hs
      rw [strchr, if_neg (Ne.symm hs.1)] at h
      split at h
      · cases h
      case isFalse hx =>
          rw [Option.map_eq_none_iff] at h
          simp [ih hs.2 h, Ne.symm hx]

theorem strchr_some (h : strchr c s = some k) :
    s = s.take k ++ c :: s.drop (k + 1) ∧ c ∉ s.take k := by
  induction s generalizing k with
  | nil => cases h
  | cons x s ih =>
      rw [strchr] at h
      split at h
      · cases h
      · split at h
        case isTrue hx =>
            cases h
            simp [hx]
        case isFalse hx =>
            obtain ⟨j, hj, rfl⟩ := Option.map_eq_some_iff.mp h
            obtain ⟨hs, hnot⟩ := ih hj
            constructor
            · simpa using hs
            · simp [hnot, Ne.symm hx]

/-- The lines that match, as they are written. -/
def matching (pattern : Str) (ls : List Str) : List Str :=
  (ls.filter (match' pattern)).map (· ++ [newline])

theorem matching_append (ls ls' : List Str) :
    matching pattern (ls ++ ls') = matching pattern ls ++ matching pattern ls' := by
  simp [matching]

/-- The loop over the lines writes those that match, and leaves the part without a newline. -/
theorem lineLoop_spec (pattern : Str) (hp : 0 ∉ p) :
    ∃ ls, (lineLoop pattern p).1 = matching pattern ls ∧ newline ∉ (lineLoop pattern p).2 ∧
      (∀ w ∈ ls, w.length < p.length) ∧
      (lineLoop pattern p).2 ⊆ p ∧
      ∀ l, lines newline (p ++ l) = ls ++ lines newline ((lineLoop pattern p).2 ++ l) := by
  induction p using lineLoop.induct pattern with
  | case1 p hnone =>
      rw [lineLoop_none hnone]
      exact ⟨[], rfl, strchr_none hp hnone, by simp, List.Subset.refl p, fun _ => rfl⟩
  | case2 p q hq ih =>
      obtain ⟨hsplit, hline⟩ := strchr_some hq
      have hlt := strchr_lt hq
      have hdrop : p.drop (q + 1) ⊆ p := List.drop_subset _ _
      obtain ⟨ls, hwritten, hrest, hshort, hsub, hlines⟩ := ih fun h => hp (hdrop h)
      have htake : p.take (q + 1) = p.take q ++ [newline] := by
        conv_lhs => rw [hsplit]
        rw [List.take_append, List.take_take, List.length_take_of_le hlt.le]
        simp
      rw [lineLoop_some hq]
      refine ⟨p.take q :: ls, ?_, hrest, ?_, fun x hx => hdrop (hsub hx), ?_⟩
      · simp only [hwritten, matching, List.filter_cons, htake]
        split
        · rfl
        · rfl
      · intro w hw
        cases List.mem_cons.mp hw with
        | inl hfirst =>
            rw [hfirst, List.length_take]
            omega
        | inr hmem =>
            have := hshort w hmem
            rw [List.length_drop] at this
            omega
      · intro l
        conv_lhs => rw [hsplit]
        rw [List.append_assoc, List.cons_append, lines_append hline, hlines, List.cons_append]

def fits (line : Str) : Bool := line.length + 1 < bufSize

theorem grepLoop_spec (chunk : Nat → Nat) (i : Nat) (buf : Buf) (rest : Str)
    (hbuf : 0 ∉ buf.val) (hrest : 0 ∉ rest) (hline : newline ∉ buf.val) :
    grepLoop pattern chunk i buf rest =
      matching pattern ((lines newline (buf.val ++ rest)).takeWhile fits) := by
  induction i, buf, rest using grepLoop.induct pattern chunk with
  | case1 i buf rest hn =>
      rw [grepLoop, dif_pos hn]
      cases readCount_eq_zero.mp hn with
      | inl hfull =>
          rw [lines_append_takeWhile hline]
          · rfl
          · intro v
            rw [room] at hfull
            simp only [fits, decide_eq_false_iff_not, List.length_append]
            omega
      | inr hnil =>
          rw [hnil, List.append_nil, lines_eq_nil hline]
          rfl
  | case2 i buf rest hn n p ih =>
      have hp : 0 ∉ p := by
        intro hmem
        cases List.mem_append.mp hmem with
        | inl h => exact hbuf h
        | inr h => exact hrest (List.take_subset _ _ h)
      obtain ⟨ls, hwritten, hnewline, hshort, hsub, hlines⟩ := lineLoop_spec pattern hp
      have hlen : p.length < bufSize := length_read_lt buf (readCount_le_size _ _ _)
      have hfits : ∀ w ∈ ls, fits w = true := by
        intro w hw
        have hlt := hshort w hw
        rw [fits, decide_eq_true_eq]
        omega
      have hsplit : buf.val ++ rest = p ++ rest.drop n := by
        rw [List.append_assoc, List.take_append_drop]
      rw [grepLoop, dif_neg hn, hsplit, hlines, List.takeWhile_append_of_pos hfits,
        matching_append, ← hwritten]
      exact congrArg ((lineLoop pattern p).1 ++ ·)
        (ih (fun h => hp (hsub h)) (fun h => hrest (List.drop_subset _ _ h)) hnewline)

theorem grep_eq (pattern : Str) (chunk : Nat → Nat) (hcontent : 0 ∉ content) :
    grep pattern chunk content =
      matching pattern ((lines newline content).takeWhile fits) := by
  rw [grep, grepLoop_spec _ _ _ _ List.not_mem_nil hcontent List.not_mem_nil]
  rfl

end

/-- `grep` writes the lines that match exactly if none of them comes after a line that does
not fit into the buffer, or is such a line; how the reads go does not matter. -/
theorem grep_filters_iff (pattern content : Str) (hcontent : 0 ∉ content) :
    (∀ chunk, grep pattern chunk content = matching pattern (lines newline content) ↔
      ∀ line ∈ (lines newline content).dropWhile fits, match' pattern line = false) ∧
    ∀ chunk chunk', grep pattern chunk content = grep pattern chunk' content := by
  constructor
  · intro chunk
    rw [grep_eq _ _ hcontent]
    have hsplit := List.takeWhile_append_dropWhile (p := fits) (l := lines newline content)
    have hmatching := congrArg (matching pattern) hsplit
    rw [matching_append] at hmatching
    rw [← hmatching, List.self_eq_append_right, matching, List.map_eq_nil_iff,
      List.filter_eq_nil_iff]
    simp only [Bool.not_eq_true]
  · intro chunk chunk'
    rw [grep_eq _ _ hcontent, grep_eq _ _ hcontent]

theorem grep_filters_short :
    0 ∉ [97, 10, 98, 10] ∧ grep [98] (fun _ => 1) [97, 10, 98, 10] =
      matching [98] (lines newline [97, 10, 98, 10]) :=
  ⟨by decide, ((grep_filters_iff [98] [97, 10, 98, 10] (by decide)).1 fun _ => 1).mpr (by decide)⟩

def longLine : Str := List.replicate 1023 97

/-- `grep b` does not write the line after it. -/
theorem grep_longLine :
    0 ∉ longLine ++ newline :: [98, newline] ∧
      grep [98] (fun _ => 512) (longLine ++ newline :: [98, newline]) ≠
        matching [98] (lines newline (longLine ++ newline :: [98, newline])) := by
  have hline : ∀ c ≠ 97, c ∉ longLine := fun c hc h => hc (List.eq_of_mem_replicate h)
  have hcontent : 0 ∉ longLine ++ newline :: [98, newline] := by
    rw [List.mem_append, not_or]
    exact ⟨hline 0 (by decide), by decide⟩
  have hlines : lines newline (longLine ++ newline :: [98, newline]) = [longLine, [98]] := by
    rw [lines_append (hline newline (by decide))]
    rfl
  have hfits : fits longLine = false := by
    rw [fits, longLine, List.length_replicate]
    rfl
  have hmatch : match' [98] [98] = true := by
    rw [match', if_neg (by decide), matchLoop, matchhere_cons (by decide) (by decide)]
    simp
  refine ⟨hcontent, ?_⟩
  rw [grep_eq _ _ hcontent, hlines, List.takeWhile_cons, hfits]
  simp [matching, hmatch]

end SyscallSched.Grep
