import SyscallSched.Xv6.Virtio.Model

/-!
# Descriptor chains

What `alloc3_desc` and `free_chain` do to the descriptors, and what the device finds when
it follows the chain of a request.
-/

namespace SyscallSched.Xv6.Virtio

open SyscallSched.Foundation

variable {B : Type}

def Desc.zero : Desc B := { addr := .null, len := 0, flags := 0, next := 0 }

def Chained (desc : Nat → Desc B) : List Nat → Prop
  | [] => False
  | [i] => (desc i).flags &&& descFNext = 0
  | i :: j :: l => (desc i).flags &&& descFNext ≠ 0 ∧ (desc i).next.toNat = j ∧
    Chained desc (j :: l)

theorem Chained.congr {desc desc' : Nat → Desc B} {l : List Nat} (h : Chained desc l)
    (hdesc : ∀ i ∈ l, desc' i = desc i) : Chained desc' l := by
  induction l with
  | nil => exact h
  | cons i l ih =>
      cases l with
      | nil =>
          rw [Chained, hdesc i (by simp)]
          exact h
      | cons j l =>
          obtain ⟨hflags, hnext, hrest⟩ := h
          rw [Chained, hdesc i (by simp)]
          exact ⟨hflags, hnext, ih hrest fun k hk => hdesc k (List.mem_cons_of_mem i hk)⟩

structure Formatted (d : Disk B) (r : Request B) (idx : Idx) : Prop where
  op : d.ops idx.i0 =
    { type := if r.write then 1 else 0, reserved := 0, sector := (r.blockno * 2).toUInt64 }
  first : d.desc idx.i0 =
    { addr := .op idx.i0, len := 16, flags := descFNext, next := .ofNat idx.i1 }
  second : d.desc idx.i1 =
    { addr := .data r.buf, len := 1024, flags := (if r.write then 0 else descFWrite) ||| descFNext,
      next := .ofNat idx.i2 }
  third : d.desc idx.i2 = { addr := .status idx.i0, len := 1, flags := descFWrite, next := 0 }

theorem toNat_ofNat_uint16 {i : Nat} (h : i < num) : (UInt16.ofNat i).toNat = i := by
  have hlt : i < 65536 := by
    unfold num at h
    omega
  exact UInt16.toNat_ofNat_of_lt' hlt

theorem toNat_ofNat_uint32 {i : Nat} (h : i < num) : (UInt32.ofNat i).toNat = i := by
  have hlt : i < 4294967296 := by
    unfold num at h
    omega
  exact UInt32.toNat_ofNat_of_lt' hlt

namespace Formatted

variable {d d' : Disk B} {r : Request B} {idx : Idx}

theorem chained (h : Formatted d r idx) (hlt : ∀ i ∈ idx.toList, i < num) :
    Chained d.desc idx.toList := by
  refine ⟨?_, ?_, ?_, ?_, ?_⟩
  · rw [h.first]
    show descFNext &&& descFNext ≠ 0
    decide
  · rw [h.first]
    exact toNat_ofNat_uint16 (hlt _ (by simp [Idx.toList]))
  · rw [h.second]
    show ((if r.write then 0 else descFWrite) ||| descFNext) &&& descFNext ≠ 0
    cases r.write <;> decide
  · rw [h.second]
    exact toNat_ofNat_uint16 (hlt _ (by simp [Idx.toList]))
  · rw [Chained, h.third]
    show descFWrite &&& descFNext = 0
    decide

theorem second_eq (h : Formatted d r idx) (hlt : ∀ i ∈ idx.toList, i < num) :
    d.second idx.i0 = d.desc idx.i1 := by
  rw [Disk.second, h.first]
  congr 1
  exact toNat_ofNat_uint16 (hlt _ (by simp [Idx.toList]))

theorem third_eq (h : Formatted d r idx) (hlt : ∀ i ∈ idx.toList, i < num) :
    d.third idx.i0 = d.desc idx.i2 := by
  rw [Disk.third, h.second_eq hlt, h.second]
  congr 1
  exact toNat_ofNat_uint16 (hlt _ (by simp [Idx.toList]))

theorem frame (h : Formatted d r idx) (hdesc : ∀ i ∈ idx.toList, d'.desc i = d.desc i)
    (hops : d'.ops idx.i0 = d.ops idx.i0) : Formatted d' r idx := by
  constructor
  case op => rw [hops, h.op]
  case first => rw [hdesc _ (by simp [Idx.toList]), h.first]
  case second => rw [hdesc _ (by simp [Idx.toList]), h.second]
  case third => rw [hdesc _ (by simp [Idx.toList]), h.third]

end Formatted

namespace Disk

variable {d : Disk B} {i : Nat}

theorem allocDesc_cases (d : Disk B) :
    (∃ i, i < num ∧ d.free i = true ∧
      d.allocDesc = (some i, { d with free := Function.update d.free i false })) ∨
    d.allocDesc = (none, d) := by
  unfold allocDesc
  cases h : (List.range num).find? d.free with
  | none => exact Or.inr rfl
  | some i =>
      have hmem := List.mem_range.mp (List.mem_of_find?_eq_some h)
      exact Or.inl ⟨i, hmem, List.find?_some h, rfl⟩

theorem freeDesc_eq (hi : i < num) (hfree : d.free i = false) :
    d.freeDesc i = .ok { d with
      desc := Function.update d.desc i Desc.zero, free := Function.update d.free i true } := by
  have hle : ¬ num ≤ i := by omega
  have hfree' : ¬ d.free i = true := by simp [hfree]
  rw [freeDesc, if_neg hle, if_neg hfree']
  rfl

def taken (free : Nat → Bool) (l : List Nat) (i : Nat) : Bool := if i ∈ l then false else free i

theorem taken_cons (free : Nat → Bool) (l : List Nat) (i : Nat) :
    Function.update (taken free l) i false = taken free (i :: l) := by
  funext j
  unfold taken
  cases eq_or_ne j i with
  | inl heq => simp [heq]
  | inr hne => simp [hne]

theorem untaken_cons {free : Nat → Bool} {l : List Nat} {i : Nat} (h : free i = true) (hi : i ∉ l) :
    Function.update (taken free (i :: l)) i true = taken free l := by
  funext j
  unfold taken
  cases eq_or_ne j i with
  | inl heq => simp [heq, h, hi]
  | inr hne => simp [hne]

theorem taken_eq_true {free : Nat → Bool} {l : List Nat} (h : taken free l i = true) :
    i ∉ l ∧ free i = true := by
  unfold taken at h
  split at h
  case isTrue => cases h
  case isFalse hi => exact ⟨hi, h⟩

theorem alloc_taken (d : Disk B) (l : List Nat) :
    (∃ i, i < num ∧ i ∉ l ∧ d.free i = true ∧
      ({ d with free := taken d.free l } : Disk B).allocDesc =
        (some i, { d with free := taken d.free (i :: l) })) ∨
    ({ d with free := taken d.free l } : Disk B).allocDesc =
      (none, { d with free := taken d.free l }) := by
  cases ({ d with free := taken d.free l } : Disk B).allocDesc_cases with
  | inr hnone => exact Or.inr hnone
  | inl hsome =>
      obtain ⟨i, hi, hfree, heq⟩ := hsome
      obtain ⟨hout, hfree⟩ := taken_eq_true hfree
      left
      refine ⟨i, hi, hout, hfree, ?_⟩
      rw [heq, ← taken_cons]

theorem free_taken (d : Disk B) {l : List Nat} (hi : i < num) (hout : i ∉ l)
    (hfree : d.free i = true) :
    ({ d with free := taken d.free (i :: l) } : Disk B).freeDesc i =
      .ok { d with desc := Function.update d.desc i Desc.zero, free := taken d.free l } := by
  have hmem : taken d.free (i :: l) i = false := by
    simp [taken]
  rw [freeDesc_eq hi hmem]
  simp only
  rw [untaken_cons hfree hout]

theorem taken_nil (free : Nat → Bool) : taken free [] = free := by
  funext i
  simp [taken]

theorem taken_swap (free : Nat → Bool) (i j : Nat) (l : List Nat) :
    taken free (i :: j :: l) = taken free (j :: i :: l) := by
  funext k
  simp only [taken, List.mem_cons, or_left_comm]

theorem alloc3Desc_cases (d : Disk B) :
    (∃ idx : Idx, idx.toList.Nodup ∧ (∀ i ∈ idx.toList, i < num ∧ d.free i = true) ∧
      d.alloc3Desc = .ok (some idx, { d with free := taken d.free idx.toList })) ∨
    ∃ desc, (∀ i, d.free i = false → desc i = d.desc i) ∧
      d.alloc3Desc = .ok (none, { d with desc }) := by
  have hnothing : ({ d with free := taken d.free [] } : Disk B) = d := by
    rw [taken_nil]
  have hkept : ∀ {desc : Nat → Desc B} {i : Nat}, d.free i = true →
      (∀ j, d.free j = false → desc j = d.desc j) →
      ∀ j, d.free j = false → Function.update desc i Desc.zero j = d.desc j := by
    intro desc i hi hdesc j hj
    have hne : j ≠ i := by
      rintro rfl
      rw [hi] at hj
      cases hj
    rw [Function.update_of_ne hne, hdesc j hj]
  have hsame : ∀ j, d.free j = false → d.desc j = d.desc j := fun _ _ => rfl
  have hfirst := d.alloc_taken []
  rw [hnothing] at hfirst
  unfold alloc3Desc
  cases hfirst with
  | inr hnone =>
      rw [hnone]
      exact Or.inr ⟨d.desc, hsame, rfl⟩
  | inl hsome =>
      obtain ⟨i0, hi0, _, hfree0, heq0⟩ := hsome
      rw [heq0]
      simp only
      cases d.alloc_taken [i0] with
      | inr hnone =>
          rw [hnone]
          simp only
          rw [d.free_taken hi0 List.not_mem_nil hfree0, taken_nil]
          exact Or.inr ⟨_, hkept hfree0 hsame, rfl⟩
      | inl hsome =>
          obtain ⟨i1, hi1, hout1, hfree1, heq1⟩ := hsome
          have hout0 : i0 ∉ [i1] := by
            intro hmem
            exact hout1 (by simpa [eq_comm] using hmem)
          rw [heq1]
          simp only
          cases d.alloc_taken [i1, i0] with
          | inr hnone =>
              rw [hnone]
              simp only
              rw [taken_swap, d.free_taken hi0 hout0 hfree0]
              right
              refine ⟨_, hkept hfree1 (hkept hfree0 hsame), ?_⟩
              have hrest := free_taken { d with desc := Function.update d.desc i0 Desc.zero }
                hi1 List.not_mem_nil hfree1
              rw [taken_nil] at hrest
              show (do
                let d' ← ({ d with
                  desc := Function.update d.desc i0 Desc.zero, free := taken d.free [i1] } :
                    Disk B).freeDesc i1
                pure (none, d')) = _
              rw [hrest]
              rfl
          | inl hsome =>
              obtain ⟨i2, hi2, hout2, hfree2, heq2⟩ := hsome
              rw [heq2]
              left
              refine ⟨⟨i0, i1, i2⟩, ?_, ?_, ?_⟩
              · simp only [List.mem_cons, List.not_mem_nil, or_false, not_or] at hout0 hout2
                simp [Idx.toList, hout0, Ne.symm hout2.1, Ne.symm hout2.2]
              · simp [Idx.toList, hi0, hi1, hi2, hfree0, hfree1, hfree2]
              · have hlist : taken d.free [i2, i1, i0] = taken d.free [i0, i1, i2] := by
                  funext k
                  simp only [taken, List.mem_cons, List.not_mem_nil, or_false]
                  congr 1
                  rw [eq_iff_iff]
                  tauto
                rw [hlist]
                rfl

/-! ### The request -/

section

variable {r : Request B} {idx : Idx}

theorem format_formatted (d : Disk B) (r : Request B) (h : idx.toList.Nodup) :
    Formatted (d.format r idx) r idx := by
  simp only [Idx.toList, List.nodup_cons, List.mem_cons, List.not_mem_nil, or_false, not_or] at h
  obtain ⟨⟨h01, h02⟩, h12, _⟩ := h
  constructor
  case op => simp [format, setDesc, setInfo]
  case first => simp [format, setDesc, setInfo, h01, h02]
  case second => simp [format, setDesc, setInfo, h12]
  case third => simp [format, setDesc, setInfo]

theorem format_desc (d : Disk B) (r : Request B) (h : i ∉ idx.toList) :
    (d.format r idx).desc i = d.desc i := by
  simp only [Idx.toList, List.mem_cons, List.not_mem_nil, or_false, not_or] at h
  simp [format, setDesc, setInfo, h]

theorem format_info (d : Disk B) (r : Request B) (h : i ∉ idx.toList) :
    (d.format r idx).info i = d.info i := by
  simp only [Idx.toList, List.mem_cons, List.not_mem_nil, or_false, not_or] at h
  simp [format, setDesc, setInfo, h]

theorem format_ops (d : Disk B) (r : Request B) (h : i ∉ idx.toList) :
    (d.format r idx).ops i = d.ops i := by
  simp only [Idx.toList, List.mem_cons, List.not_mem_nil, or_false, not_or] at h
  simp [format, setDesc, setInfo, h]

theorem format_info_b (d : Disk B) (r : Request B) (idx : Idx) :
    ((d.format r idx).info idx.i0).b = some r.buf := by
  simp [format, setDesc, setInfo]

/-- The device writes the status of the request it has worked on. -/
theorem writeStatus_eq (h : Formatted d r idx) (hlt : ∀ i ∈ idx.toList, i < num) :
    d.writeStatus idx.i0 = d.setInfo idx.i0 { d.info idx.i0 with status := 0 } := by
  rw [writeStatus, h.third_eq hlt, h.third]

end

/-! ### `free_chain` -/

def freed (d : Disk B) (l : List Nat) : Disk B :=
  { d with
    desc := fun i => if i ∈ l then Desc.zero else d.desc i
    free := fun i => if i ∈ l then true else d.free i }

theorem freed_freed (d : Disk B) (i : Nat) (l : List Nat) :
    (d.freed [i]).freed l = d.freed (i :: l) := by
  unfold freed
  congr 1
  · funext j
    simp only [List.mem_cons, List.not_mem_nil, or_false]
    cases em (j = i) with
    | inl heq => simp [heq]
    | inr hne => simp [hne]
  · funext j
    simp only [List.mem_cons, List.not_mem_nil, or_false]
    cases em (j = i) with
    | inl heq => simp [heq]
    | inr hne => simp [hne]

theorem freeDesc_freed (hi : i < num) (hfree : d.free i = false) :
    d.freeDesc i = .ok (d.freed [i]) := by
  rw [freeDesc_eq hi hfree, freed]
  congr 2
  · funext j
    simp [Function.update_apply]
  · funext j
    simp [Function.update_apply]

theorem freeLoop_eq {l : List Nat} {fuel : Nat} (hchain : Chained d.desc (i :: l))
    (hnodup : (i :: l).Nodup) (hlt : ∀ j ∈ i :: l, j < num ∧ d.free j = false)
    (hfuel : l.length < fuel) : d.freeLoop fuel i = .ok (d.freed (i :: l)) := by
  induction l generalizing d i fuel with
  | nil =>
      cases fuel with
      | zero => cases hfuel
      | succ fuel =>
          have hi := hlt i (by simp)
          have hflags : (d.desc i).flags &&& descFNext = 0 := hchain
          rw [freeLoop, freeDesc_freed hi.1 hi.2]
          simp only [hflags, ne_eq, not_true_eq_false, if_false]
          rfl
  | cons k l ih =>
      cases fuel with
      | zero => cases hfuel
      | succ fuel =>
          have hi := hlt i (by simp)
          obtain ⟨hflags, hnext, hrest⟩ := hchain
          obtain ⟨hout, hnodup⟩ := List.nodup_cons.mp hnodup
          have hkept : ∀ j ∈ k :: l, j ≠ i := by
            rintro j hj rfl
            exact hout hj
          have hchain' : Chained (d.freed [i]).desc (k :: l) := by
            refine hrest.congr ?_
            intro j hj
            simp [freed, hkept j hj]
          have hlt' : ∀ j ∈ k :: l, j < num ∧ (d.freed [i]).free j = false := by
            intro j hj
            have hj' := hlt j (List.mem_cons_of_mem i hj)
            simp [freed, hkept j hj, hj']
          have hloop := ih hchain' hnodup hlt' (by simpa using hfuel)
          rw [freed_freed] at hloop
          rw [freeLoop, freeDesc_freed hi.1 hi.2]
          simp only [hflags, ne_eq, not_false_eq_true, if_true, hnext]
          exact hloop

theorem freeDesc_rings {d' : Disk B} (h : d.freeDesc i = .ok d') :
    d'.avail = d.avail ∧ d'.used = d.used := by
  unfold freeDesc at h
  split at h
  case isTrue => cases h
  case isFalse =>
    split at h
    case isTrue => cases h
    case isFalse =>
      cases h
      exact ⟨rfl, rfl⟩

theorem freeLoop_rings {fuel : Nat} {d' : Disk B} (h : d.freeLoop fuel i = .ok d') :
    d'.avail = d.avail ∧ d'.used = d.used := by
  induction fuel generalizing d i with
  | zero => cases h
  | succ fuel ih =>
      rw [freeLoop] at h
      cases hfree : d.freeDesc i with
      | error e =>
          rw [hfree] at h
          cases h
      | ok d₁ =>
          rw [hfree] at h
          have hfirst := freeDesc_rings hfree
          change (if (d.desc i).flags &&& descFNext ≠ 0 then d₁.freeLoop fuel (d.desc i).next.toNat
            else pure d₁) = .ok d' at h
          split at h
          case isTrue =>
            have hrest := ih h
            rw [hrest.1, hrest.2]
            exact hfirst
          case isFalse =>
            cases h
            exact hfirst

end Disk

end SyscallSched.Xv6.Virtio
