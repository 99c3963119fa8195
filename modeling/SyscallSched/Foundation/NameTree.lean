import Mathlib.Algebra.Order.BigOperators.Group.Finset
import SyscallSched.Foundation.Ownership

/-!
# Trees of names

Directories have a parent and a multiset of names for nodes; nodes that are not
directories are files.  `Sound` says that every directory but the root is named once, by
its parent, and reached from the root.  Names of files are added and removed one at a
time; a directory comes into the tree when it has been named, and leaves it, when it is
empty, before its name goes.  `refs` counts what refers to a node: names and children.
-/

namespace SyscallSched.Foundation

structure Directory (ι N : Type) where
  parent : ι
  names : Multiset (N × ι)

abbrev NameTree (ι N : Type) := ι → Option (Directory ι N)

variable {ι N : Type}

namespace Directory

def add (dir : Directory ι N) (x : N) (i : ι) : Directory ι N :=
  { dir with names := (x, i) ::ₘ dir.names }

def remove [DecidableEq ι] [DecidableEq N] (dir : Directory ι N) (x : N) (i : ι) : Directory ι N :=
  { dir with names := dir.names.erase (x, i) }

@[simp] theorem add_parent (dir : Directory ι N) (x : N) (i : ι) :
    (dir.add x i).parent = dir.parent := rfl

@[simp] theorem add_names (dir : Directory ι N) (x : N) (i : ι) :
    (dir.add x i).names = (x, i) ::ₘ dir.names := rfl

@[simp] theorem remove_parent [DecidableEq ι] [DecidableEq N] (dir : Directory ι N) (x : N)
    (i : ι) : (dir.remove x i).parent = dir.parent := rfl

@[simp] theorem remove_names [DecidableEq ι] [DecidableEq N] (dir : Directory ι N) (x : N) (i : ι) :
    (dir.remove x i).names = dir.names.erase (x, i) := rfl

end Directory

namespace NameTree

theorem ne_of_none {t : NameTree ι N} {d i : ι} {dir : Directory ι N} (hd : t d = some dir)
    (hi : t i = none) : i ≠ d := by
  intro heq
  rw [heq, hd] at hi
  cases hi

theorem ne_of_empty {t : NameTree ι N} {d i : ι} {x : N} {dir child : Directory ι N}
    (hd : t d = some dir) (hx : (x, i) ∈ dir.names) (hi : t i = some child)
    (hempty : child.names = 0) : d ≠ i := by
  intro heq
  rw [← heq, hd] at hi
  injection hi with hi
  rw [hi, hempty] at hx
  simp at hx

variable [DecidableEq ι]

/-! ## Counting -/

def namesOf (i : ι) : Option (Directory ι N) → ℕ
  | none => 0
  | some dir => dir.names.countP fun e => e.2 = i

def parentOf (i : ι) : Option (Directory ι N) → ℕ
  | none => 0
  | some dir => if dir.parent = i then 1 else 0

def namings (t : NameTree ι N) (s : Finset ι) (i : ι) : ℕ := ∑ d ∈ s, namesOf i (t d)

def children (t : NameTree ι N) (s : Finset ι) (i : ι) : ℕ := ∑ d ∈ s, parentOf i (t d)

def refs (t : NameTree ι N) (s : Finset ι) (i : ι) : ℕ := t.namings s i + t.children s i

variable {t : NameTree ι N} {s : Finset ι} {root d i j : ι} {x y : N} {dir : Directory ι N}

@[simp] theorem namesOf_none (i : ι) : namesOf i (none : Option (Directory ι N)) = 0 := rfl

@[simp] theorem parentOf_none (i : ι) : parentOf i (none : Option (Directory ι N)) = 0 := rfl

@[simp] theorem namesOf_some (i : ι) (dir : Directory ι N) :
    namesOf i (some dir) = dir.names.countP fun e => e.2 = i := rfl

@[simp] theorem parentOf_some (i : ι) (dir : Directory ι N) :
    parentOf i (some dir) = if dir.parent = i then 1 else 0 := rfl

theorem namesOf_add (dir : Directory ι N) (x : N) (i j : ι) :
    namesOf j (some (dir.add x i)) = namesOf j (some dir) + if i = j then 1 else 0 := by
  rw [namesOf_some, namesOf_some, Directory.add_names, Multiset.countP_cons]

theorem namesOf_remove [DecidableEq N] (hx : (x, i) ∈ dir.names) (j : ι) :
    namesOf j (some dir) = namesOf j (some (dir.remove x i)) + if i = j then 1 else 0 := by
  rw [namesOf_some, namesOf_some, Directory.remove_names]
  conv_lhs => rw [← Multiset.cons_erase hx, Multiset.countP_cons]

theorem namings_update (hd : d ∈ s) (v : Option (Directory ι N)) (i : ι) :
    namings (Function.update t d v) s i + namesOf i (t d) = t.namings s i + namesOf i v := by
  have h := sum_change_share (f := fun d => namesOf i (t d))
    (g := fun e => namesOf i (Function.update t d v e)) hd (by
      intro e _ he
      simp [he])
  simpa [namings] using h

theorem children_update (hd : d ∈ s) (v : Option (Directory ι N)) (i : ι) :
    children (Function.update t d v) s i + parentOf i (t d) = t.children s i + parentOf i v := by
  have h := sum_change_share (f := fun d => parentOf i (t d))
    (g := fun e => parentOf i (Function.update t d v e)) hd (by
      intro e _ he
      simp [he])
  simpa [children] using h

theorem namings_link (hds : d ∈ s) (hd : t d = some dir) (j : ι) :
    namings (Function.update t d (some (dir.add x i))) s j =
      t.namings s j + if i = j then 1 else 0 := by
  have hsum := namings_update (t := t) hds (some (dir.add x i)) j
  rw [hd, namesOf_add] at hsum
  omega

theorem namings_unlink [DecidableEq N] (hds : d ∈ s) (hd : t d = some dir)
    (hx : (x, i) ∈ dir.names) (j : ι) :
    t.namings s j =
      namings (Function.update t d (some (dir.remove x i))) s j + if i = j then 1 else 0 := by
  have hsum := namings_update (t := t) hds (some (dir.remove x i)) j
  rw [hd, namesOf_remove hx] at hsum
  omega

theorem exists_name_of_namings (h : t.namings s i ≠ 0) :
    ∃ d dir x, t d = some dir ∧ (x, i) ∈ dir.names := by
  obtain ⟨d, _, hd⟩ := Finset.exists_ne_zero_of_sum_ne_zero h
  cases hdir : t d with
  | none => simp [hdir] at hd
  | some dir =>
      rw [hdir, namesOf_some, ← Nat.pos_iff_ne_zero, Multiset.countP_pos] at hd
      obtain ⟨e, he, hi⟩ := hd
      exact ⟨d, dir, e.1, hdir, by rw [← hi]; exact he⟩

theorem namings_ne_zero (hd : d ∈ s) (hdir : t d = some dir) (hx : (x, i) ∈ dir.names) :
    t.namings s i ≠ 0 := by
  intro hzero
  have hcount := Finset.sum_eq_zero_iff.mp hzero d hd
  rw [hdir, namesOf_some, Multiset.countP_eq_zero] at hcount
  exact hcount (x, i) hx rfl

theorem exists_child_of_children (h : t.children s i ≠ 0) :
    ∃ d dir, t d = some dir ∧ dir.parent = i := by
  obtain ⟨d, _, hd⟩ := Finset.exists_ne_zero_of_sum_ne_zero h
  cases hdir : t d with
  | none => simp [hdir] at hd
  | some dir =>
      rw [hdir, parentOf_some] at hd
      exact ⟨d, dir, hdir, by simpa using hd⟩

/-! ## Soundness -/

inductive Reach (t : NameTree ι N) (root : ι) : ι → Prop where
  | root : Reach t root root
  | name {d i : ι} {dir : Directory ι N} {x : N} (hd : Reach t root d) (hdir : t d = some dir)
      (hx : (x, i) ∈ dir.names) : Reach t root i

structure Sound (t : NameTree ι N) (s : Finset ι) (root : ι) : Prop where
  mem : ∀ {d dir}, t d = some dir → d ∈ s
  rooted : ∃ dir, t root = some dir ∧ dir.parent = root
  distinct : ∀ {d dir}, t d = some dir → (dir.names.map Prod.fst).Nodup
  parent : ∀ {d dir x i dir'}, t d = some dir → (x, i) ∈ dir.names → t i = some dir' →
    dir'.parent = d
  ne_root : ∀ {d dir x i}, t d = some dir → (x, i) ∈ dir.names → i ≠ root
  single : ∀ {d dir}, t d = some dir → d ≠ root → t.namings s d = 1
  reach : ∀ {d dir}, t d = some dir → Reach t root d

namespace Sound

theorem ne_root_of_none (h : t.Sound s root) (hi : t i = none) : i ≠ root := by
  intro heq
  obtain ⟨dir, hroot, _⟩ := h.rooted
  rw [heq, hroot] at hi
  cases hi

theorem rooted_update {v : Directory ι N} (h : t.Sound s root) (hd : t d = some dir)
    (hv : v.parent = dir.parent) :
    ∃ dir', Function.update t d (some v) root = some dir' ∧ dir'.parent = root := by
  obtain ⟨rootDir, hrootDir, hself⟩ := h.rooted
  by_cases heq : root = d
  · subst heq
    rw [hd] at hrootDir
    injection hrootDir with hrootDir
    exact ⟨v, Function.update_self .., by rw [hv, hrootDir, hself]⟩
  · exact ⟨rootDir, (Function.update_of_ne heq ..).trans hrootDir, hself⟩

theorem exists_name (h : t.Sound s root) (hd : t d = some dir) (hne : d ≠ root) :
    ∃ up x, t dir.parent = some up ∧ (x, d) ∈ up.names := by
  have hone := h.single hd hne
  obtain ⟨e, up, x, hup, hx⟩ := exists_name_of_namings (t := t) (s := s) (i := d) (by omega)
  have hparent := h.parent hup hx hd
  exact ⟨up, x, by rw [hparent]; exact hup, hx⟩

theorem reach_of_refs (h : t.Sound s root) (hi : t.refs s i ≠ 0) : Reach t root i := by
  rw [refs] at hi
  by_cases hnamed : t.namings s i = 0
  case pos =>
    obtain ⟨d, dir, hd, hparent⟩ := exists_child_of_children (t := t) (s := s) (i := i) (by omega)
    by_cases hroot : d = root
    · obtain ⟨rootDir, hrootDir, hself⟩ := h.rooted
      rw [hroot, hrootDir] at hd
      injection hd with hdir
      rw [← hparent, ← hdir, hself]
      exact Reach.root
    · obtain ⟨up, _, hup, _⟩ := h.exists_name hd hroot
      rw [hparent] at hup
      exact h.reach hup
  case neg =>
    obtain ⟨d, dir, x, hd, hx⟩ := exists_name_of_namings hnamed
    exact Reach.name (h.reach hd) hd hx

theorem refs_pos (h : t.Sound s root) (hd : t d = some dir) : 0 < t.refs s d := by
  rw [refs]
  by_cases hroot : d = root
  · obtain ⟨rootDir, hrootDir, hself⟩ := h.rooted
    rw [← hroot] at hrootDir hself
    have hle := Finset.single_le_sum (f := fun e => parentOf d (t e))
      (fun e _ => Nat.zero_le _) (h.mem hrootDir)
    simp only [hrootDir, parentOf_some, hself, if_pos] at hle
    exact Nat.lt_of_lt_of_le hle (Nat.le_add_left _ _)
  · rw [h.single hd hroot]
    omega

theorem children_eq_zero (h : t.Sound s root) (hi : t i = some dir) (hempty : dir.names = 0)
    (hne : i ≠ root) : t.children s i = 0 := by
  by_contra hchildren
  obtain ⟨d, child, hd, hparent⟩ := exists_child_of_children hchildren
  have hroot : d ≠ root := by
    intro heq
    obtain ⟨rootDir, hrootDir, hself⟩ := h.rooted
    rw [heq, hrootDir] at hd
    injection hd with hdir
    rw [← hdir, hself] at hparent
    exact hne hparent.symm
  obtain ⟨up, x, hup, hx⟩ := h.exists_name hd hroot
  rw [hparent, hi] at hup
  injection hup with hup
  rw [← hup, hempty] at hx
  simp at hx

/-! ## Names of files -/

theorem link (h : t.Sound s root) (hd : t d = some dir) (hi : t i = none)
    (hx : x ∉ dir.names.map Prod.fst) :
    Sound (Function.update t d (some (dir.add x i))) s root := by
  have hds := h.mem hd
  -- the directories are the same, with the same parents
  have hkeep : ∀ {e v}, Function.update t d (some (dir.add x i)) e = some v →
      ∃ w, t e = some w ∧ v.parent = w.parent ∧ (∀ y j, (y, j) ∈ v.names →
        (y, j) ∈ w.names ∨ e = d ∧ (y, j) = (x, i)) := by
    intro e v hv
    by_cases he : e = d
    · subst he
      simp only [Function.update_self, Option.some.injEq] at hv
      subst hv
      refine ⟨dir, hd, rfl, ?_⟩
      intro y j hy
      rw [Directory.add_names, Multiset.mem_cons] at hy
      exact hy.elim (fun h => Or.inr ⟨rfl, h⟩) Or.inl
    · rw [Function.update_of_ne he] at hv
      exact ⟨v, hv, rfl, fun y j hy => Or.inl hy⟩
  have hmono : ∀ {e}, Reach t root e → Reach (Function.update t d (some (dir.add x i))) root e := by
    intro e he
    induction he with
    | root => exact Reach.root
    | @name e j w y _ hw hy ih =>
        by_cases heq : e = d
        · subst heq
          rw [hd] at hw
          injection hw with hw
          refine Reach.name ih (Function.update_self ..) (x := y) ?_
          rw [Directory.add_names, hw]
          exact Multiset.mem_cons_of_mem hy
        · exact Reach.name ih ((Function.update_of_ne heq ..).trans hw) hy
  constructor
  case mem =>
    intro e v hv
    obtain ⟨w, hw, _⟩ := hkeep hv
    exact h.mem hw
  case rooted => exact h.rooted_update hd rfl
  case distinct =>
    intro e v hv
    by_cases he : e = d
    · subst he
      simp only [Function.update_self, Option.some.injEq] at hv
      subst hv
      rw [Directory.add_names, Multiset.map_cons, Multiset.nodup_cons]
      exact ⟨hx, h.distinct hd⟩
    · rw [Function.update_of_ne he] at hv
      exact h.distinct hv
  case parent =>
    intro e v y j v' hv hy hv'
    obtain ⟨w, hw, _, hnames⟩ := hkeep hv
    obtain ⟨w', hw', hparent, _⟩ := hkeep hv'
    cases hnames y j hy with
    | inl hold => rw [hparent, h.parent hw hold hw']
    | inr hnew =>
        injection hnew.2 with _ hj
        rw [hj, hi] at hw'
        cases hw'
  case ne_root =>
    intro e v y j hv hy
    obtain ⟨w, hw, _, hnames⟩ := hkeep hv
    cases hnames y j hy with
    | inl hold => exact h.ne_root hw hold
    | inr hnew =>
        injection hnew.2 with _ hj
        rw [hj]
        exact h.ne_root_of_none hi
  case single =>
    intro e v hv hne
    obtain ⟨w, hw, _⟩ := hkeep hv
    have hie := ne_of_none hw hi
    rw [namings_link hds hd, if_neg hie]
    exact h.single hw hne
  case reach =>
    intro e v hv
    obtain ⟨w, hw, _⟩ := hkeep hv
    exact hmono (h.reach hw)

theorem refs_link (h : t.Sound s root) (hd : t d = some dir) (j : ι) :
    refs (Function.update t d (some (dir.add x i))) s j =
      t.refs s j + if i = j then 1 else 0 := by
  have hnamings := namings_link (x := x) (i := i) (h.mem hd) hd j
  have hchildren := children_update (t := t) (h.mem hd) (some (dir.add x i)) j
  rw [hd, parentOf_some, parentOf_some, Directory.add_parent] at hchildren
  rw [refs, refs]
  omega

section

variable [DecidableEq N]

theorem unlink (h : t.Sound s root) (hd : t d = some dir) (hi : t i = none)
    (hx : (x, i) ∈ dir.names) : Sound (Function.update t d (some (dir.remove x i))) s root := by
  have hds := h.mem hd
  have hkeep : ∀ {e v}, Function.update t d (some (dir.remove x i)) e = some v →
      ∃ w, t e = some w ∧ v.parent = w.parent ∧ v.names ≤ w.names := by
    intro e v hv
    by_cases he : e = d
    · subst he
      simp only [Function.update_self, Option.some.injEq] at hv
      subst hv
      exact ⟨dir, hd, rfl, Multiset.erase_le _ _⟩
    · rw [Function.update_of_ne he] at hv
      exact ⟨v, hv, rfl, le_refl _⟩
  -- a path ends at `i` or does not use the name that goes
  have hmono : ∀ {e}, Reach t root e →
      Reach (Function.update t d (some (dir.remove x i))) root e ∨ t e = none := by
    intro e he
    induction he with
    | root => exact Or.inl Reach.root
    | @name e j w y _ hw hy ih =>
        have hreach := ih.resolve_right (by rw [hw]; simp)
        by_cases hold : e = d ∧ (y, j) = (x, i)
        · injection hold.2 with _ hj
          exact Or.inr (by rw [hj]; exact hi)
        · by_cases heq : e = d
          · subst heq
            rw [hd] at hw
            injection hw with hw
            refine Or.inl (Reach.name hreach (Function.update_self ..) (x := y) ?_)
            rw [Directory.remove_names, hw]
            exact (Multiset.mem_erase_of_ne fun heq => hold ⟨rfl, heq⟩).mpr hy
          · exact Or.inl (Reach.name hreach ((Function.update_of_ne heq ..).trans hw) hy)
  constructor
  case mem =>
    intro e v hv
    obtain ⟨w, hw, _⟩ := hkeep hv
    exact h.mem hw
  case rooted => exact h.rooted_update hd rfl
  case distinct =>
    intro e v hv
    obtain ⟨w, hw, _, hle⟩ := hkeep hv
    exact Multiset.nodup_of_le (Multiset.map_le_map hle) (h.distinct hw)
  case parent =>
    intro e v y j v' hv hy hv'
    obtain ⟨w, hw, _, hle⟩ := hkeep hv
    obtain ⟨w', hw', hparent, _⟩ := hkeep hv'
    rw [hparent, h.parent hw (Multiset.mem_of_le hle hy) hw']
  case ne_root =>
    intro e v y j hv hy
    obtain ⟨w, hw, _, hle⟩ := hkeep hv
    exact h.ne_root hw (Multiset.mem_of_le hle hy)
  case single =>
    intro e v hv hne
    obtain ⟨w, hw, _⟩ := hkeep hv
    have hie := ne_of_none hw hi
    rw [← h.single hw hne, namings_unlink hds hd hx, if_neg hie, add_zero]
  case reach =>
    intro e v hv
    obtain ⟨w, hw, _⟩ := hkeep hv
    exact (hmono (h.reach hw)).resolve_right (by rw [hw]; simp)

theorem refs_unlink (h : t.Sound s root) (hd : t d = some dir) (hx : (x, i) ∈ dir.names) (j : ι) :
    t.refs s j =
      refs (Function.update t d (some (dir.remove x i))) s j + if i = j then 1 else 0 := by
  have hnamings := namings_unlink (h.mem hd) hd hx j
  have hchildren := children_update (t := t) (h.mem hd) (some (dir.remove x i)) j
  rw [hd, parentOf_some, parentOf_some, Directory.remove_parent] at hchildren
  rw [refs, refs]
  omega

end

/-! ## Directories -/

/-- A node that has its one name, in `d`, becomes a directory. -/
theorem adopt (h : t.Sound s root) (hi : t i = none) (his : i ∈ s) (hone : t.namings s i = 1)
    (honly : ∀ {e w y}, t e = some w → (y, i) ∈ w.names → e = d) :
    Sound (Function.update t i (some { parent := d, names := 0 })) s root := by
  have hnamings : ∀ e,
      namings (Function.update t i (some { parent := d, names := 0 })) s e = t.namings s e := by
    intro e
    have hsum := namings_update (t := t) his (some { parent := d, names := 0 }) e
    rw [hi] at hsum
    simpa using hsum
  have hkeep : ∀ {e v}, Function.update t i (some { parent := d, names := 0 }) e = some v →
      e ≠ i → t e = some v := by
    intro e v hv he
    rwa [Function.update_of_ne he] at hv
  have hname : ∀ {e v y j},
      Function.update t i (some { parent := d, names := 0 }) e = some v → (y, j) ∈ v.names →
      e ≠ i := by
    intro e v y j hv hy he
    subst he
    simp only [Function.update_self, Option.some.injEq] at hv
    rw [← hv] at hy
    simp at hy
  have hmono : ∀ {e}, Reach t root e →
      Reach (Function.update t i (some { parent := d, names := 0 })) root e := by
    intro e he
    induction he with
    | root => exact Reach.root
    | @name e j w y _ hw hy ih =>
        have hne := ne_of_none hw hi
        exact Reach.name ih ((Function.update_of_ne hne.symm ..).trans hw) hy
  constructor
  case mem =>
    intro e v hv
    by_cases he : e = i
    · rw [he]
      exact his
    · exact h.mem (hkeep hv he)
  case rooted =>
    obtain ⟨rootDir, hrootDir, hself⟩ := h.rooted
    exact ⟨rootDir, (Function.update_of_ne (h.ne_root_of_none hi).symm ..).trans hrootDir, hself⟩
  case distinct =>
    intro e v hv
    by_cases he : e = i
    · subst he
      simp only [Function.update_self, Option.some.injEq] at hv
      rw [← hv]
      simp
    · exact h.distinct (hkeep hv he)
  case parent =>
    intro e v y j v' hv hy hv'
    have hw := hkeep hv (hname hv hy)
    by_cases hj : j = i
    · subst hj
      simp only [Function.update_self, Option.some.injEq] at hv'
      rw [← hv']
      exact (honly hw hy).symm
    · exact h.parent hw hy (hkeep hv' hj)
  case ne_root =>
    intro e v y j hv hy
    exact h.ne_root (hkeep hv (hname hv hy)) hy
  case single =>
    intro e v hv hne
    rw [hnamings e]
    by_cases he : e = i
    · rw [he]
      exact hone
    · exact h.single (hkeep hv he) hne
  case reach =>
    intro e v hv
    by_cases he : e = i
    · rw [he]
      obtain ⟨f, w, y, hw, hy⟩ := exists_name_of_namings (t := t) (s := s) (i := i) (by omega)
      exact hmono (Reach.name (h.reach hw) hw hy)
    · exact hmono (h.reach (hkeep hv he))

theorem refs_adopt (hi : t i = none) (his : i ∈ s) (j : ι) :
    refs (Function.update t i (some { parent := d, names := 0 })) s j =
      t.refs s j + if d = j then 1 else 0 := by
  have hnamings := namings_update (t := t) his (some { parent := d, names := 0 }) j
  have hchildren := children_update (t := t) his (some { parent := d, names := 0 }) j
  rw [hi, namesOf_none, namesOf_some, Multiset.countP_zero] at hnamings
  simp only [hi, parentOf_none, parentOf_some, add_zero] at hchildren
  rw [refs, refs]
  omega

/-- An empty directory leaves the tree; its name stays. -/
theorem abandon (h : t.Sound s root) (hi : t i = some dir) (hempty : dir.names = 0)
    (hroot : i ≠ root) : Sound (Function.update t i none) s root := by
  have his := h.mem hi
  have hnamings : ∀ e, namings (Function.update t i none) s e = t.namings s e := by
    intro e
    have hsum := namings_update (t := t) his none e
    rw [hi, namesOf_some, hempty] at hsum
    simpa using hsum
  have hkeep : ∀ {e v}, Function.update t i none e = some v → t e = some v := by
    intro e v hv
    by_cases he : e = i
    · subst he
      simp at hv
    · rwa [Function.update_of_ne he] at hv
  have hmono : ∀ {e}, Reach t root e → Reach (Function.update t i none) root e := by
    intro e he
    induction he with
    | root => exact Reach.root
    | @name e j w y _ hw hy ih =>
        have hne : e ≠ i := by
          intro heq
          rw [heq, hi] at hw
          injection hw with hw
          rw [← hw, hempty] at hy
          simp at hy
        exact Reach.name ih ((Function.update_of_ne hne ..).trans hw) hy
  constructor
  case mem =>
    intro e v hv
    exact h.mem (hkeep hv)
  case rooted =>
    obtain ⟨rootDir, hrootDir, hself⟩ := h.rooted
    exact ⟨rootDir, (Function.update_of_ne hroot.symm ..).trans hrootDir, hself⟩
  case distinct =>
    intro e v hv
    exact h.distinct (hkeep hv)
  case parent =>
    intro e v y j v' hv hy hv'
    exact h.parent (hkeep hv) hy (hkeep hv')
  case ne_root =>
    intro e v y j hv hy
    exact h.ne_root (hkeep hv) hy
  case single =>
    intro e v hv hne
    rw [hnamings e]
    exact h.single (hkeep hv) hne
  case reach =>
    intro e v hv
    exact hmono (h.reach (hkeep hv))

theorem refs_abandon (h : t.Sound s root) (hi : t i = some dir) (hempty : dir.names = 0) (j : ι) :
    t.refs s j =
      refs (Function.update t i none) s j + if dir.parent = j then 1 else 0 := by
  have hnamings := namings_update (t := t) (h.mem hi) none j
  have hchildren := children_update (t := t) (h.mem hi) none j
  rw [hi, namesOf_none, namesOf_some, hempty, Multiset.countP_zero] at hnamings
  rw [hi, parentOf_none, parentOf_some] at hchildren
  rw [refs, refs]
  omega

theorem refs_of_empty (h : t.Sound s root) (hi : t i = some dir) (hempty : dir.names = 0)
    (hne : i ≠ root) : t.refs s i = 1 := by
  rw [refs, h.single hi hne, h.children_eq_zero hi hempty hne]

theorem mkdir (h : t.Sound s root) (hd : t d = some dir) (hi : t i = none) (his : i ∈ s)
    (hx : x ∉ dir.names.map Prod.fst) (hzero : t.namings s i = 0) :
    Sound (Function.update (Function.update t d (some (dir.add x i))) i
      (some { parent := d, names := 0 })) s root := by
  have hid := ne_of_none hd hi
  have hone := namings_link (x := x) (i := i) (h.mem hd) hd i
  rw [hzero, if_pos rfl, zero_add] at hone
  apply (h.link hd hi hx).adopt (by rw [Function.update_of_ne hid, hi]) his hone
  intro e w y hw hy
  by_contra he
  rw [Function.update_of_ne he] at hw
  exact namings_ne_zero (h.mem hw) hw hy hzero

theorem refs_mkdir (h : t.Sound s root) (hd : t d = some dir) (hi : t i = none) (his : i ∈ s)
    (j : ι) :
    refs (Function.update (Function.update t d (some (dir.add x i))) i
      (some { parent := d, names := 0 })) s j =
      t.refs s j + (if i = j then 1 else 0) + if d = j then 1 else 0 := by
  have hid := ne_of_none hd hi
  rw [refs_adopt (by rw [Function.update_of_ne hid, hi]) his, h.refs_link hd]

section

variable [DecidableEq N] {child : Directory ι N}

theorem rmdir (h : t.Sound s root) (hd : t d = some dir) (hx : (x, i) ∈ dir.names)
    (hi : t i = some child) (hempty : child.names = 0) :
    Sound (Function.update (Function.update t i none) d (some (dir.remove x i))) s root := by
  have hdi := ne_of_empty hd hx hi hempty
  exact (h.abandon hi hempty (h.ne_root hd hx)).unlink (by rw [Function.update_of_ne hdi, hd])
    (Function.update_self ..) hx

theorem refs_rmdir (h : t.Sound s root) (hd : t d = some dir) (hx : (x, i) ∈ dir.names)
    (hi : t i = some child) (hempty : child.names = 0) (j : ι) :
    t.refs s j =
      refs (Function.update (Function.update t i none) d (some (dir.remove x i))) s j +
        (if i = j then 1 else 0) + if d = j then 1 else 0 := by
  have hdi := ne_of_empty hd hx hi hempty
  have habandon := h.abandon hi hempty (h.ne_root hd hx)
  rw [h.refs_abandon hi hempty, h.parent hd hx hi,
    habandon.refs_unlink (by rw [Function.update_of_ne hdi, hd]) hx]

end

end Sound

end NameTree

end SyscallSched.Foundation
