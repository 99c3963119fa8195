import SyscallSched.Xv6.Links.Names

/-!
# Runs from an image

A call is safe when the directory that gets a new name still has links and no count of
links goes past the largest `short`.
-/

namespace SyscallSched.Xv6.Links

open SyscallSched.Foundation

variable {s t : State} {p i : Nat} {call : Call} {names : List Name}

/-! ## Steps -/

def Call.safe (n : Nat → Inode) (cwd : Nat) : Call → Prop
  | .open path omode _ => omode &&& oCreate ≠ 0 → Placeable n cwd path
  | .mkdir path _ => Placeable n cwd path
  | .mknod path _ _ => Placeable n cwd path
  | .link old new _ => ∀ ip name, resolve n cwd old false = some (ip, name) →
      (n ip).type ≠ .dir → (n ip).nlink.toInt ≠ 32767 ∧ Placeable n cwd new
  | .unlink _ => True
  | .chdir _ => True
  | .close _ => True
  | .fork _ => True
  | .exit => True

def State.safe (s : State) (p : Nat) (call : Call) : Prop :=
  ∀ proc, s.proc p = some proc → call.safe s.inode proc.cwd

/-- The states between the calls of runs that make only `allowed` calls. -/
inductive Reachable (allowed : State → Nat → Call → Prop) (names : List Name) : State → Prop where
  | initial : Reachable allowed names (State.initial names)
  | step {s t : State} {p : Nat} {call : Call} (hs : Reachable allowed names s)
      (hallowed : allowed s p call) (hstep : s.step p call = .ok t) : Reachable allowed names t

def State.run (s : State) : List (Nat × Call) → Except Panic State
  | [] => .ok s
  | (p, call) :: calls =>
      match s.step p call with
      | .error e => .error e
      | .ok t => t.run calls

theorem Reachable.run {allowed : State → Nat → Call → Prop} {calls : List (Nat × Call)}
    (hs : Reachable allowed names s) (hall : ∀ s p call, allowed s p call)
    (hrun : s.run calls = .ok t) : Reachable allowed names t := by
  induction calls generalizing s with
  | nil =>
      injection hrun with hrun
      rw [← hrun]
      exact hs
  | cons c calls ih =>
      rw [State.run] at hrun
      cases hstep : s.step c.1 c.2 with
      | error e =>
          rw [hstep] at hrun
          cases hrun
      | ok u =>
          rw [hstep] at hrun
          exact ih (hs.step (hall s c.1 c.2) hstep) hrun

theorem Call.run_valid {proc : Proc} (hs : Valid s) (hsafe : call.safe s.inode proc.cwd) :
    Ensures Fine (call.run p proc) s fun _ t => Valid t := by
  cases call with
  | «open» path omode space => exact sysOpen_valid hs hsafe
  | mkdir path space => exact sysMkdir_valid hs hsafe
  | mknod path major space => exact sysMknod_valid hs hsafe
  | link old new space => exact sysLink_valid hs hsafe
  | unlink path => exact sysUnlink_valid hs
  | chdir path => exact (sysChdir_keeps p proc path).valid hs
  | close fd => exact (sysClose_keeps p proc fd).valid hs
  | fork q => exact (fork_keeps q proc).valid hs
  | exit => exact (exit_keeps p proc).valid hs

theorem State.step_valid (hs : Valid s) (hsafe : s.safe p call) :
    (∀ t, s.step p call = .ok t → Valid t) ∧ ∀ e, s.step p call = .error e → Fine e := by
  rw [State.step]
  cases hproc : s.proc p with
  | none =>
      constructor
      · intro t ht
        injection ht with ht
        rw [← ht]
        exact hs
      · intro e he
        cases he
  | some proc =>
      have hrun := Call.run_valid (p := p) hs (hsafe proc hproc)
      dsimp only
      cases hresult : call.run p proc s with
      | ok r =>
          constructor
          · intro t ht
            injection ht with ht
            rw [← ht]
            exact hrun.post r.1 r.2 hresult
          · intro e he
            cases he
      | error e' =>
          constructor
          · intro t ht
            cases ht
          · intro e he
            injection he with he
            rw [← he]
            exact hrun.error e' hresult

/-! ## The image -/

structure ProperNames (names : List Name) : Prop where
  nodup : names.Nodup
  dots : ∀ x ∈ names, x ≠ dot ∧ x ≠ dotdot
  length : names.length + 2 ≤ ninodes

theorem realNames_mapIdx (names : List Name) {k : Nat} (hk : k ≠ 0) :
    (realNames (names.mapIdx fun j x => ⟨j + k, x⟩)).map Prod.fst = names ∧
      ∀ i, (realNames (names.mapIdx fun j x => ⟨j + k, x⟩)).countP (fun a => a.2 = i) =
        if k ≤ i ∧ i < names.length + k then 1 else 0 := by
  induction names generalizing k with
  | nil =>
      refine ⟨rfl, fun i => ?_⟩
      rw [if_neg]
      · rfl
      · simp only [List.length_nil]
        omega
  | cons x names ih =>
      obtain ⟨hnames, hcount⟩ := ih (k := k + 1) (by omega)
      have hshift : (fun (j : Nat) (x : Name) => (⟨j + 1 + k, x⟩ : Dirent)) =
          fun j x => ⟨j + (k + 1), x⟩ := by
        funext j x
        rw [Nat.add_assoc, Nat.add_comm 1 k]
      rw [List.mapIdx_cons, hshift, realNames_cons (by simpa using hk)]
      constructor
      · rw [Multiset.map_cons, hnames]
        rfl
      · intro i
        rw [Multiset.countP_cons, hcount]
        simp only [List.length_cons, Nat.zero_add]
        split_ifs <;> omega

def imageDirectory (names : List Name) : Directory Nat Name where
  parent := rootIno
  names := realNames (names.mapIdx fun k name => ⟨k + 2, name⟩)

theorem image_root (names : List Name) :
    (image names rootIno).live ∧
      ∃ rest, (image names rootIno).entries = ⟨rootIno, dot⟩ :: ⟨rootIno, dotdot⟩ :: rest ∧
        realNames rest = (imageDirectory names).names := by
  rw [image, if_pos rfl]
  refine ⟨⟨rfl, (by decide : 0 < (1 : Int16).toInt)⟩, _, rfl, ?_⟩
  rw [List.append_eq, realNames_append, realNames_replicate_free, add_zero]
  rfl

theorem image_not_live (names : List Name) (h : i ≠ rootIno) : ¬ (image names i).live := by
  rw [image, if_neg h]
  split
  · exact fun hlive => by cases hlive.1
  · exact fun hlive => by cases hlive.1

theorem tree_image (names : List Name) :
    tree (image names) = Function.update (fun _ => none) rootIno (some (imageDirectory names)) := by
  funext d
  by_cases hd : d = rootIno
  · subst hd
    obtain ⟨hlive, rest, hentries, hnames⟩ := image_root names
    rw [tree, Inode.node_of_live hlive, hentries, directory_dots, hnames, Function.update_self]
    rfl
  · rw [tree, Inode.node_of_not_live (image_not_live names hd), Function.update_of_ne hd]

theorem mem_imageDirectory {x : Name} (hx : (x, i) ∈ (imageDirectory names).names) :
    x ∈ names ∧ 2 ≤ i ∧ i < names.length + 2 := by
  obtain ⟨hfst, hcount⟩ := realNames_mapIdx names (k := 2) (by decide)
  constructor
  · have hmem := Multiset.mem_map_of_mem Prod.fst hx
    rw [imageDirectory, hfst] at hmem
    exact Multiset.mem_coe.mp hmem
  · by_contra hout
    have hi := hcount i
    rw [if_neg hout, Multiset.countP_eq_zero] at hi
    exact hi (x, i) hx rfl

theorem image_formed (h : ProperNames names) (i : Nat) : (image names i).Formed i := by
  by_cases hi : i = rootIno
  case pos =>
    subst hi
    obtain ⟨hlive, rest, hentries, hnames⟩ := image_root names
    refine ⟨fun _ => by decide, fun _ => ?_, fun _ hdead => absurd hlive hdead, ?_⟩
    · refine ⟨rootIno, rest, hentries, by decide, by decide, ?_⟩
      intro x j hx
      rw [hnames] at hx
      exact h.dots x (mem_imageDirectory hx).1
    · intro hfree
      rw [hlive.1] at hfree
      cases hfree
  case neg =>
    have hlength := h.length
    have hdead := image_not_live names hi
    rw [image, if_neg hi] at hdead ⊢
    split at hdead
    · rename_i hfile
      rw [if_pos hfile]
      refine ⟨fun _ => ⟨by omega, by omega⟩, fun hlive => absurd hlive hdead, ?_, ?_⟩
      · intro hdir
        cases hdir
      · intro hfree
        cases hfree
    · rename_i hfile
      rw [if_neg hfile]
      refine ⟨fun hne => absurd rfl hne, fun hlive => absurd hlive hdead, ?_, fun _ => rfl⟩
      intro hdir
      cases hdir

theorem image_sound (h : ProperNames names) : (tree (image names)).Sound inodes rootIno := by
  have hroot : ∀ {d dir}, tree (image names) d = some dir →
      d = rootIno ∧ dir = imageDirectory names := by
    intro d dir hd
    rw [tree_image] at hd
    by_cases heq : d = rootIno
    · rw [heq, Function.update_self] at hd
      injection hd with hd
      exact ⟨heq, hd.symm⟩
    · rw [Function.update_of_ne heq] at hd
      cases hd
  constructor
  case mem =>
    intro d dir hd
    rw [(hroot hd).1]
    decide
  case rooted => exact ⟨imageDirectory names, by rw [tree_image, Function.update_self], rfl⟩
  case distinct =>
    intro d dir hd
    rw [(hroot hd).2, imageDirectory, (realNames_mapIdx names (by decide)).1]
    exact Multiset.coe_nodup.mpr h.nodup
  case parent =>
    intro d dir x i dir' hd hx hi
    rw [(hroot hd).2] at hx
    have hrange := mem_imageDirectory hx
    rw [(hroot hi).1, rootIno] at hrange
    omega
  case ne_root =>
    intro d dir x i hd hx hi
    rw [(hroot hd).2] at hx
    have hrange := mem_imageDirectory hx
    rw [hi, rootIno] at hrange
    omega
  case single => exact fun hd hne => absurd (hroot hd).1 hne
  case reach =>
    intro d dir hd
    rw [(hroot hd).1]
    exact NameTree.Reach.root

theorem image_count (names : List Name) (i : Nat) :
    (image names i).nlink.toInt = (tree (image names)).refs inodes i := by
  have hroot : rootIno ∈ inodes := by decide
  have hnamings := NameTree.namings_update (t := fun _ => none) hroot
    (some (imageDirectory names)) i
  have hchildren := NameTree.children_update (t := fun _ => none) hroot
    (some (imageDirectory names)) i
  rw [← tree_image] at hnamings hchildren
  simp only [NameTree.namings, NameTree.children, NameTree.namesOf_none, NameTree.parentOf_none,
    NameTree.namesOf_some, NameTree.parentOf_some, Finset.sum_const_zero, imageDirectory,
    (realNames_mapIdx names (k := 2) (by decide)).2] at hnamings hchildren
  rw [NameTree.refs, NameTree.namings, NameTree.children, image]
  by_cases hi : i = rootIno
  · rw [if_pos hi]
    rw [if_pos hi.symm] at hchildren
    rw [if_neg (by rw [hi, rootIno]; omega)] at hnamings
    have hone : ((1 : Int16).toInt : Int) = 1 := rfl
    simp only [hone]
    omega
  · rw [if_neg hi]
    rw [if_neg (Ne.symm hi)] at hchildren
    by_cases hfile : 2 ≤ i ∧ i < names.length + 2
    · rw [if_pos hfile]
      rw [if_pos hfile] at hnamings
      have hone : ((1 : Int16).toInt : Int) = 1 := rfl
      simp only [hone]
      omega
    · rw [if_neg hfile]
      rw [if_neg hfile] at hnamings
      have hzero : Inode.free.nlink.toInt = 0 := rfl
      simp only [hzero]
      omega

theorem initial_valid (h : ProperNames names) : Valid (State.initial names) where
  cached := by
    intro i hi
    cases hi
  inv :=
    { formed := image_formed h
      sound := image_sound h
      count := fun i => by
        rw [owed_none, add_zero]
        exact image_count names i }

theorem Reachable.valid (h : ProperNames names) (hs : Reachable State.safe names s) : Valid s := by
  induction hs with
  | initial => exact initial_valid h
  | step _ hsafe hstep ih => exact (State.step_valid ih hsafe).1 _ hstep

theorem Valid.nlink_eq (hs : Valid s) (i : Nat) (halloc : (s.inode i).type ≠ .free) :
    (s.inode i).nlink.toInt = linkCount s.inode i := by
  have hrange := (hs.inv.formed i).range halloc
  exact hs.inv.linkCount_eq (by omega)

/-- In runs of safe calls the counts of links are right, what has links has a name, and
`unlink` does not panic. -/
theorem nlink_sound (hnames : ProperNames names) (hs : Reachable State.safe names s) :
    (∀ i, (s.inode i).type ≠ .free → (s.inode i).nlink.toInt = linkCount s.inode i) ∧
      (∀ i, 0 < (s.inode i).nlink.toInt → Named s.inode i) ∧
      ∀ p call, s.safe p call → s.step p call ≠ .error .nlink := by
  have hvalid := hs.valid hnames
  refine ⟨hvalid.nlink_eq, fun i hpos => hvalid.inv.named hpos, ?_⟩
  intro p call hsafe herror
  exact ((State.step_valid hvalid hsafe).2 _ herror).1 rfl

/-- What a call leaves of inode `i`, and how often it is named. -/
def observe (i : Nat) : Except Panic State → Option (FileType × Int × Nat)
  | .error _ => none
  | .ok s => some ((s.inode i).type, (s.inode i).nlink.toInt, linkCount s.inode i)

theorem observe_some {r : Except Panic State} {seen : FileType × Int × Nat}
    (h : observe i r = some seen) :
    ∃ s, r = .ok s ∧ ((s.inode i).type, (s.inode i).nlink.toInt, linkCount s.inode i) = seen := by
  cases r with
  | error e => cases h
  | ok s =>
      injection h with h
      exact ⟨s, rfl, h⟩

/-- `mkdir /a` on an image with the file `b`. -/
theorem nlink_sound_mkdir :
    ∃ s, (State.initial [[98]]).step 1 (.mkdir [47, 97] fun _ => true) = .ok s ∧
      (s.inode 3).type = .dir ∧ (s.inode 3).nlink.toInt = linkCount s.inode 3 := by
  have hseen : observe 3 ((State.initial [[98]]).step 1 (.mkdir [47, 97] fun _ => true)) =
      some (.dir, 1, 1) := by decide +kernel
  obtain ⟨s, hstep, heq⟩ := observe_some hseen
  injection heq with htype _
  have hsafe : (State.initial [[98]]).safe 1 (.mkdir [47, 97] fun _ => true) := by
    intro proc hproc dp name hresolve _
    have hroot : resolve (State.initial [[98]]).inode proc.cwd [47, 97] true =
        some (rootIno, [97]) := by
      injection hproc with hproc
      rw [← hproc]
      decide +kernel
    rw [hroot] at hresolve
    injection hresolve with hresolve
    injection hresolve with hdp _
    rw [← hdp]
    decide +kernel
  have hnames : ProperNames [[98]] := ⟨by decide, by decide, by decide⟩
  exact ⟨s, hstep, htype, (nlink_sound hnames (Reachable.initial.step hsafe hstep)).1 3
    (by rw [htype]; decide)⟩

/-- A file is created in the working directory, which has been removed; when the process
leaves the directory no entry names the file. -/
theorem nlink_of_removed_cwd :
    ∃ s, Reachable (fun _ _ _ => True) [[98]] s ∧ (s.inode 4).type = .file ∧
      (s.inode 4).nlink.toInt = 1 ∧ linkCount s.inode 4 = 0 := by
  have hseen : observe 4 ((State.initial [[98]]).run
      [(1, .mkdir [47, 97] fun _ => true), (1, .chdir [47, 97]), (1, .unlink [47, 97]),
        (1, .open [102] oCreate fun _ => true), (1, .chdir [47])]) = some (.file, 1, 0) := by
    decide +kernel
  obtain ⟨s, hrun, heq⟩ := observe_some hseen
  injection heq with htype heq
  injection heq with hnlink hcount
  exact ⟨s, Reachable.initial.run (fun _ _ _ => trivial) hrun, htype, hnlink, hcount⟩

end SyscallSched.Xv6.Links
