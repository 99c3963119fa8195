import SyscallSched.Foundation.NameTree
import SyscallSched.Xv6.Links.Model

/-!
# The tree of the directories

A directory with links has its two dots in front and below them its real entries, those
with an inode number.  What `dirlookup`, `dirlink` and the zeroing of an entry do to the
list of entries is stated in terms of the `Directory` it stands for.
-/

namespace SyscallSched.Xv6.Links

open SyscallSched.Foundation

/-! ## Entries -/

def realNames (es : List Dirent) : Multiset (Name × Nat) :=
  ((es.filter fun e => e.inum ≠ 0).map fun e => (e.name, e.inum) : List (Name × Nat))

variable {es es' rest : List Dirent} {e : Dirent} {x : Name} {i d off : Nat} {space : Bool}

@[simp] theorem realNames_nil : realNames [] = 0 := rfl

theorem realNames_cons_zero (h : e.inum = 0) : realNames (e :: es) = realNames es := by
  simp [realNames, h]

theorem realNames_cons (h : e.inum ≠ 0) :
    realNames (e :: es) = (e.name, e.inum) ::ₘ realNames es := by
  simp [realNames, h]

theorem mem_realNames : (x, i) ∈ realNames es ↔ i ≠ 0 ∧ (⟨i, x⟩ : Dirent) ∈ es := by
  constructor
  · intro h
    simp only [realNames, Multiset.mem_coe, List.mem_map, List.mem_filter, decide_eq_true_eq] at h
    obtain ⟨e, ⟨hmem, hne⟩, heq⟩ := h
    injection heq with hname hinum
    subst hname hinum
    exact ⟨hne, hmem⟩
  · rintro ⟨hne, hmem⟩
    simp only [realNames, Multiset.mem_coe, List.mem_map, List.mem_filter, decide_eq_true_eq]
    exact ⟨⟨i, x⟩, ⟨hmem, hne⟩, rfl⟩

theorem realNames_replicate_free (k : Nat) : realNames (List.replicate k ⟨0, []⟩) = 0 := by
  induction k with
  | zero => rfl
  | succ k ih => rw [List.replicate_succ, realNames_cons_zero rfl, ih]

theorem realNames_append (es es' : List Dirent) :
    realNames (es ++ es') = realNames es + realNames es' := by
  simp [realNames]

theorem countP_realNames (hi : i ≠ 0) :
    (realNames es).countP (fun a => a.2 = i) = es.countP fun e => e.inum = i := by
  induction es with
  | nil => rfl
  | cons e es ih =>
      by_cases he : e.inum = 0
      · rw [realNames_cons_zero he, ih, List.countP_cons_of_neg]
        simp only [he, decide_eq_true_eq]
        exact hi.symm
      · rw [realNames_cons he, Multiset.countP_cons, ih, List.countP_cons]
        simp

/-! ### Looking up -/

theorem findEntry_some (h : findEntry es x = some (off, i)) :
    es[off]? = some ⟨i, x⟩ ∧ i ≠ 0 := by
  induction es generalizing off with
  | nil => cases h
  | cons e es ih =>
      rw [findEntry] at h
      split at h
      · rename_i hfound
        injection h with h
        injection h with hoff hinum
        subst hoff hinum
        exact ⟨by rw [List.getElem?_cons_zero, ← hfound.2], hfound.1⟩
      · obtain ⟨found, hrec, heq⟩ := Option.map_eq_some_iff.mp h
        injection heq with hoff hinum
        subst hoff hinum
        rw [List.getElem?_cons_succ]
        exact ih hrec

theorem mem_of_findEntry (h : findEntry es x = some (off, i)) : (x, i) ∈ realNames es := by
  obtain ⟨hget, hne⟩ := findEntry_some h
  exact mem_realNames.mpr ⟨hne, List.mem_of_getElem? hget⟩

theorem not_mem_of_findEntry (h : findEntry es x = none) : x ∉ (realNames es).map Prod.fst := by
  induction es with
  | nil => simp
  | cons e es ih =>
      rw [findEntry] at h
      split at h
      · cases h
      · rename_i hother
        have hrest := ih (Option.map_eq_none_iff.mp h)
        by_cases he : e.inum = 0
        · rw [realNames_cons_zero he]
          exact hrest
        · rw [realNames_cons he, Multiset.map_cons, Multiset.mem_cons, not_or]
          exact ⟨fun heq => hother ⟨he, heq.symm⟩, hrest⟩

theorem findEntry_of_mem (hnodup : ((realNames es).map Prod.fst).Nodup)
    (hx : (x, i) ∈ realNames es) : ∃ off, findEntry es x = some (off, i) := by
  cases hfind : findEntry es x with
  | none => exact absurd (Multiset.mem_map_of_mem Prod.fst hx) (not_mem_of_findEntry hfind)
  | some found =>
      have heq := Multiset.inj_on_of_nodup_map hnodup _ hx _ (mem_of_findEntry hfind) rfl
      injection heq with _ hi
      exact ⟨found.1, by rw [hi]⟩

/-! ### Adding and clearing -/

theorem putEntry_nil {new : Dirent} (h : putEntry [] new off space = some es) : es = [new] := by
  rw [putEntry] at h
  split_ifs at h
  injection h with h
  exact h.symm

theorem putEntry_cons_real (he : e.inum ≠ 0) {new : Dirent} :
    putEntry (e :: es) new off space = (putEntry es new (off + 1) space).map fun es => e :: es := by
  rw [putEntry, if_neg he]

theorem realNames_putEntry {new : Dirent} (hnew : new.inum ≠ 0)
    (h : putEntry es new off space = some es') :
    realNames es' = (new.name, new.inum) ::ₘ realNames es := by
  induction es generalizing off es' with
  | nil =>
      rw [putEntry] at h
      split_ifs at h
      injection h with h
      rw [← h, realNames_cons hnew]
  | cons e es ih =>
      by_cases he : e.inum = 0
      · rw [putEntry, if_pos he] at h
        injection h with h
        rw [← h, realNames_cons hnew, realNames_cons_zero he]
      · rw [putEntry_cons_real he] at h
        obtain ⟨es₁, hput, heq⟩ := Option.map_eq_some_iff.mp h
        rw [← heq, realNames_cons he, realNames_cons he, ih hput, Multiset.cons_swap]

theorem realNames_set (hget : es[off]? = some ⟨i, x⟩) (hi : i ≠ 0) :
    realNames es = (x, i) ::ₘ realNames (es.set off ⟨0, []⟩) := by
  induction es generalizing off with
  | nil => simp at hget
  | cons e es ih =>
      cases off with
      | zero =>
          rw [List.getElem?_cons_zero] at hget
          injection hget with hget
          subst hget
          have hcleared : realNames (⟨0, []⟩ :: es) = realNames es := realNames_cons_zero rfl
          rw [List.set_cons_zero, hcleared]
          exact realNames_cons hi
      | succ off =>
          rw [List.getElem?_cons_succ] at hget
          rw [List.set_cons_succ]
          by_cases he : e.inum = 0
          · rw [realNames_cons_zero he, realNames_cons_zero he]
            exact ih hget
          · rw [realNames_cons he, realNames_cons he, ih hget, Multiset.cons_swap]

/-! ## The directory that a list of entries stands for -/

/-- The dots of directory `d`, and no other dots. -/
def Shaped (d : Nat) (es : List Dirent) : Prop :=
  ∃ up rest, es = ⟨d, dot⟩ :: ⟨up, dotdot⟩ :: rest ∧ d ≠ 0 ∧ up ≠ 0 ∧
    ∀ x i, (x, i) ∈ realNames rest → x ≠ dot ∧ x ≠ dotdot

def directory (es : List Dirent) : Directory Nat Name where
  parent := (es.getD 1 ⟨0, []⟩).inum
  names := realNames (es.drop 2)

theorem directory_dots (d up : Nat) (rest : List Dirent) :
    directory (⟨d, dot⟩ :: ⟨up, dotdot⟩ :: rest) = { parent := up, names := realNames rest } := rfl

theorem shaped_dots {up : Nat} (hd : d ≠ 0) (hup : up ≠ 0) :
    Shaped d [⟨d, dot⟩, ⟨up, dotdot⟩] := by
  refine ⟨up, [], rfl, hd, hup, ?_⟩
  intro x i hx
  simp at hx

namespace Shaped

theorem mem_of_findEntry (h : Shaped d es) (hx : x ≠ dot ∧ x ≠ dotdot)
    (hfind : findEntry es x = some (off, i)) : (x, i) ∈ (directory es).names := by
  obtain ⟨up, rest, heq, hd, hup, _⟩ := h
  have hmem := Links.mem_of_findEntry hfind
  subst heq
  rw [realNames_cons hd, realNames_cons hup, Multiset.mem_cons, Multiset.mem_cons] at hmem
  rcases hmem with hdot | hdotdot | hrest
  · injection hdot with hname
    exact absurd hname hx.1
  · injection hdotdot with hname
    exact absurd hname hx.2
  · exact hrest

theorem put (h : Shaped d es) (hnone : findEntry es x = none) (hi : i ≠ 0)
    (hput : putEntry es ⟨i, x⟩ 0 space = some es') :
    Shaped d es' ∧ directory es' = (directory es).add x i ∧
      x ∉ (directory es).names.map Prod.fst := by
  obtain ⟨up, rest, heq, hd, hup, hnames⟩ := h
  subst heq
  have hfresh := not_mem_of_findEntry hnone
  rw [realNames_cons hd, realNames_cons hup] at hfresh
  simp only [Multiset.map_cons, Multiset.mem_cons, not_or] at hfresh
  obtain ⟨hdot, hdotdot, hrest⟩ := hfresh
  rw [putEntry_cons_real hd, putEntry_cons_real hup, Option.map_map] at hput
  obtain ⟨rest', hput', heq⟩ := Option.map_eq_some_iff.mp hput
  subst heq
  have hreal : realNames rest' = (x, i) ::ₘ realNames rest := realNames_putEntry hi hput'
  refine ⟨⟨up, rest', rfl, hd, hup, ?_⟩, ?_, hrest⟩
  · intro y j hy
    rw [hreal, Multiset.mem_cons] at hy
    cases hy with
    | inl hnew =>
        injection hnew with hy
        rw [hy]
        exact ⟨hdot, hdotdot⟩
    | inr hold => exact hnames y j hold
  · change ({ parent := up, names := realNames rest' } : Directory Nat Name) = _
    rw [hreal]
    rfl

theorem clear (h : Shaped d es) (hx : x ≠ dot ∧ x ≠ dotdot)
    (hfind : findEntry es x = some (off, i)) :
    Shaped d (es.set off ⟨0, []⟩) ∧
      directory (es.set off ⟨0, []⟩) = (directory es).remove x i := by
  obtain ⟨up, rest, heq, hd, hup, hnames⟩ := h
  subst heq
  obtain ⟨hget, hi⟩ := findEntry_some hfind
  match off with
  | 0 =>
      rw [List.getElem?_cons_zero] at hget
      injection hget with hget
      injection hget with _ hname
      exact absurd hname.symm hx.1
  | 1 =>
      rw [List.getElem?_cons_succ, List.getElem?_cons_zero] at hget
      injection hget with hget
      injection hget with _ hname
      exact absurd hname.symm hx.2
  | off + 2 =>
      rw [List.getElem?_cons_succ, List.getElem?_cons_succ] at hget
      have hreal := realNames_set hget hi
      rw [List.set_cons_succ, List.set_cons_succ, directory_dots, directory_dots]
      refine ⟨⟨up, rest.set off ⟨0, []⟩, rfl, hd, hup, ?_⟩, ?_⟩
      · intro y j hy
        apply hnames y j
        rw [hreal]
        exact Multiset.mem_cons_of_mem hy
      · rw [Directory.remove, hreal, Multiset.erase_cons_head]

theorem dots_of_empty (h : Shaped d es) (hempty : (directory es).names = 0)
    (hx : (x, i) ∈ realNames es) : x = dot ∨ x = dotdot := by
  obtain ⟨up, rest, heq, hd, hup, _⟩ := h
  rw [heq, directory_dots] at hempty
  have hrest : realNames rest = 0 := hempty
  rw [heq, realNames_cons hd, realNames_cons hup, hrest] at hx
  simp only [Multiset.mem_cons, Prod.mk.injEq, Multiset.notMem_zero, or_false] at hx
  exact hx.imp And.left And.left

end Shaped

theorem Inode.names_of_isEmpty {ip : Inode} (hempty : ip.isEmpty = true) :
    (directory ip.entries).names = 0 := by
  apply Multiset.eq_zero_of_forall_notMem
  rintro ⟨y, j⟩ hy
  obtain ⟨hj, hmem⟩ := mem_realNames.mp hy
  have hzero := List.all_eq_true.mp hempty _ hmem
  exact hj (by simpa using hzero)

end SyscallSched.Xv6.Links
