import SyscallSched.Foundation.Components
import SyscallSched.Foundation.Total
import SyscallSched.Xv6.Links.Counts

/-!
# Looking up paths

Of the operations that add and remove no names each only frees inodes without links, and
none stops with the panic of `unlink`.  `namex` ends, and it finds what the inodes before
it say: `resolve` follows the path in them without touching the table.
-/

namespace SyscallSched.Xv6.Links

open SyscallSched.Foundation

variable {α β : Type} {s t u : State} {i dp : Nat} {name : Name} {path : List Nat}

def Fine (e : Panic) : Prop := e ≠ .nlink ∧ e ≠ .endless

def Cached (s : State) : Prop := ∀ i, s.valid i = true → (s.inode i).type ≠ .free

structure Reading (s t : State) : Prop where
  cached : Cached t
  inode : t.inode = s.inode

structure Freeing (s t : State) : Prop where
  cached : Cached t
  freed : Freed s.inode t.inode

theorem Reading.freeing (h : Reading s t) : Freeing s t where
  cached := h.cached
  freed := by
    rw [h.inode]
    exact Freed.refl s.inode

theorem Freeing.refl (hs : Cached s) : Freeing s s := ⟨hs, Freed.refl s.inode⟩

theorem Freeing.trans (h : Freeing s t) (h' : Freeing t u) : Freeing s u :=
  ⟨h'.cached, h.freed.trans h'.freed⟩

/-! ## Single operations -/

theorem iget_reads (hs : Cached s) (i : Nat) :
    Ensures Fine (iget i) s fun _ t => Reading s t := by
  apply Ensures.of_eq (t := s.iget i) rfl
  rw [State.iget]
  split
  · exact ⟨hs, rfl⟩
  · refine ⟨?_, rfl⟩
    intro j hj
    by_cases hji : j = i
    · subst hji
      simp at hj
    · exact hs j (by simpa [hji] using hj)

theorem idup_reads (hs : Cached s) (i : Nat) :
    Ensures Fine (idup i) s fun _ t => Reading s t :=
  Ensures.of_eq rfl ⟨hs, rfl⟩

theorem getInode_eq (s : State) (i : Nat) : getInode i s = .ok (s.inode i, s) := rfl

theorem setInode_eq (s : State) (i : Nat) (ip : Inode) :
    setInode i ip s = .ok ((), s.setInode i ip) := rfl

theorem ilock_reads (hs : Cached s) (i : Nat) :
    Ensures Fine (ilock i) s fun _ t => Reading s t ∧ (s.inode i).type ≠ .free := by
  cases hrun : ilock i s with
  | error e =>
      apply Ensures.of_error hrun
      rw [ilock] at hrun
      split_ifs at hrun
      · injection hrun with hrun
        rw [← hrun]
        exact ⟨by decide, by decide⟩
      · injection hrun with hrun
        rw [← hrun]
        exact ⟨by decide, by decide⟩
  | ok r =>
      apply Ensures.of_eq hrun
      rw [ilock] at hrun
      split_ifs at hrun with _ hvalid hfree
      · injection hrun with hrun
        rw [← hrun]
        exact ⟨⟨hs, rfl⟩, hs i hvalid⟩
      · injection hrun with hrun
        rw [← hrun]
        refine ⟨⟨?_, rfl⟩, hfree⟩
        intro j hj
        by_cases hji : j = i
        · subst hji
          exact hfree
        · exact hs j (by simpa [hji] using hj)

theorem iput_frees (hs : Cached s) (i : Nat) :
    Ensures Fine (iput i) s fun _ t => Freeing s t := by
  apply Ensures.of_eq (t := s.iput i) rfl
  rw [State.iput]
  split
  · rename_i hlast
    constructor
    case cached =>
      intro j hj
      by_cases hji : j = i
      · subst hji
        simp at hj
      · simpa [State.setInode, hji] using hs j (by simpa [hji] using hj)
    case freed =>
      intro j
      by_cases hji : j = i
      · subst hji
        exact Or.inr ⟨hlast.2.2, Function.update_self ..⟩
      · exact Or.inl (Function.update_of_ne hji ..)
  · exact ⟨hs, Freed.refl s.inode⟩

theorem dirlookup_reads (hs : Cached s) (dp : Nat) (name : Name) :
    Ensures Fine (dirlookup dp name) s fun r t =>
      Reading s t ∧ (s.inode dp).type = .dir ∧ r = findEntry (s.inode dp).entries name := by
  rw [dirlookup]
  apply Ensures.bind_eq (getInode_eq s dp)
  split
  · exact Ensures.of_error rfl ⟨by decide, by decide⟩
  · rename_i hdir
    cases hfind : findEntry (s.inode dp).entries name with
    | none => exact Ensures.pure ⟨⟨hs, rfl⟩, of_not_not hdir, rfl⟩
    | some found =>
        apply (iget_reads hs found.2).bind
        intro _ t hread
        exact Ensures.pure ⟨hread, of_not_not hdir, rfl⟩

/-! ## Paths -/

theorem skipelem_length {rest : List Nat} (h : skipelem path = some (name, rest)) :
    rest.length < path.length := by
  rw [skipelem] at h
  cases hpath : path.dropWhile (fun c => decide (c = slash)) with
  | nil =>
      rw [hpath] at h
      cases h
  | cons c cs =>
      rw [hpath] at h
      simp only [Option.some.injEq, Prod.mk.injEq] at h
      rw [← h.2]
      exact length_behind_lt hpath

def resolveLoop (n : Nat → Inode) (nameiparent : Bool) : Nat → Nat → List Nat → Option (Nat × Name)
  | 0, _, _ => none
  | fuel + 1, ip, path =>
      match skipelem path with
      | none => if nameiparent then none else some (ip, [])
      | some (name, path) =>
          if (n ip).type ≠ .dir then none
          else if nameiparent = true ∧ path = [] then some (ip, name)
          else
            match findEntry (n ip).entries name with
            | none => none
            | some (_, next) => resolveLoop n nameiparent fuel next path

def resolve (n : Nat → Inode) (cwd : Nat) (path : List Nat) (nameiparent : Bool) :
    Option (Nat × Name) :=
  resolveLoop n nameiparent (path.length + 1)
    (if path.head? = some slash then rootIno else cwd) path

/-- What is found after inodes have been freed was there before. -/
theorem resolveLoop_of_same {n n' : Nat → Inode} {nip : Bool} {fuel ip : Nat} {found : Nat × Name}
    (hsame : ∀ i, (n' i).type = .dir → (n i).type = .dir ∧ (n i).entries = (n' i).entries)
    (h : resolveLoop n' nip fuel ip path = some found) :
    resolveLoop n nip fuel ip path = some found := by
  induction fuel generalizing ip path with
  | zero => cases h
  | succ fuel ih =>
      rw [resolveLoop] at h ⊢
      cases hskip : skipelem path with
      | none =>
          rw [hskip] at h
          exact h
      | some next =>
          obtain ⟨name, rest⟩ := next
          simp only [hskip] at h ⊢
          by_cases hdir : (n' ip).type = .dir
          · obtain ⟨hdir', hentries⟩ := hsame ip hdir
            rw [if_neg (not_not.mpr hdir)] at h
            rw [if_neg (not_not.mpr hdir'), hentries]
            split at h
            · rename_i hlast
              rw [if_pos hlast]
              exact h
            · rename_i hlast
              rw [if_neg hlast]
              cases hfind : findEntry (n' ip).entries name with
              | none =>
                  rw [hfind] at h
                  cases h
              | some entry =>
                  rw [hfind] at h
                  exact ih h
          · rw [if_pos hdir] at h
            cases h

/-- What `nameiparent` finds is a directory. -/
theorem resolve_dir {n : Nat → Inode} {cwd : Nat} (h : resolve n cwd path true = some (dp, name)) :
    (n dp).type = .dir := by
  rw [resolve] at h
  generalize path.length + 1 = fuel at h
  generalize (if path.head? = some slash then rootIno else cwd) = ip at h
  induction fuel generalizing ip path with
  | zero => cases h
  | succ fuel ih =>
      rw [resolveLoop] at h
      cases hskip : skipelem path with
      | none =>
          rw [hskip] at h
          cases h
      | some next =>
          obtain ⟨elem, rest⟩ := next
          simp only [hskip] at h
          split at h
          · cases h
          · rename_i hdir
            split at h
            · injection h with h
              injection h with hip _
              rw [← hip]
              exact of_not_not hdir
            · split at h
              · cases h
              · exact ih _ h

theorem Freed.same_dirs {n n' : Nat → Inode} (h : Freed n n') (i : Nat)
    (hdir : (n' i).type = .dir) : (n i).type = .dir ∧ (n i).entries = (n' i).entries := by
  rw [← h.of_dir hdir]
  exact ⟨hdir, rfl⟩

theorem namexLoop_frees {nip : Bool} {fuel ip : Nat} (hs : Cached s) (hfuel : path.length < fuel) :
    Ensures Fine (namexLoop nip fuel ip path) s fun r t =>
      Freeing s t ∧ ∀ found, r = some found →
        resolveLoop s.inode nip fuel ip path = some found := by
  induction fuel generalizing s ip path with
  | zero => omega
  | succ fuel ih =>
      rw [namexLoop]
      simp only [resolveLoop]
      cases hskip : skipelem path with
      | none =>
          cases nip with
          | true =>
              apply (iput_frees hs ip).bind
              intro _ t hfree
              exact Ensures.pure ⟨hfree, by simp⟩
          | false => exact Ensures.pure ⟨Freeing.refl hs, by simp⟩
      | some next =>
          obtain ⟨name, rest⟩ := next
          have hlength := skipelem_length hskip
          apply (ilock_reads hs ip).bind
          intro _ t ⟨hlock, _⟩
          apply Ensures.bind_eq (getInode_eq t ip)
          rw [hlock.inode]
          dsimp only
          split
          · apply (iput_frees hlock.cached ip).bind
            intro _ u hfree
            exact Ensures.pure ⟨hlock.freeing.trans hfree, by simp⟩
          · split
            · exact Ensures.pure ⟨hlock.freeing, fun _ h => h⟩
            · apply (dirlookup_reads hlock.cached ip name).bind
              intro r u ⟨hlook, _, hr⟩
              rw [hlock.inode] at hr
              rw [← hr]
              have hsu := hlock.freeing.trans hlook.freeing
              cases r with
              | none =>
                  apply (iput_frees hlook.cached ip).bind
                  intro _ v hfree
                  exact Ensures.pure ⟨hsu.trans hfree, by simp⟩
              | some entry =>
                  apply (iput_frees hlook.cached ip).bind
                  intro _ v hfree
                  have hsv := hsu.trans hfree
                  apply (ih hfree.cached (by omega)).imp
                  intro found w ⟨hrest, hfound⟩
                  refine ⟨hsv.trans hrest, ?_⟩
                  intro entry' heq
                  exact resolveLoop_of_same hsv.freed.same_dirs (hfound entry' heq)

theorem namex_frees {cwd : Nat} {nip : Bool} (hs : Cached s) :
    Ensures Fine (namex cwd path nip) s fun r t =>
      Freeing s t ∧ ∀ found, r = some found → resolve s.inode cwd path nip = some found := by
  rw [namex, resolve]
  split
  · apply (iget_reads hs rootIno).bind
    intro _ t hread
    apply (namexLoop_frees hread.cached (Nat.lt_succ_self _)).imp
    rw [hread.inode]
    exact fun _ u h => ⟨hread.freeing.trans h.1, h.2⟩
  · apply (idup_reads hs cwd).bind
    intro _ t hread
    apply (namexLoop_frees hread.cached (Nat.lt_succ_self _)).imp
    rw [hread.inode]
    exact fun _ u h => ⟨hread.freeing.trans h.1, h.2⟩

theorem nameiparent_frees {cwd : Nat} (hs : Cached s) :
    Ensures Fine (nameiparent cwd path) s fun r t =>
      Freeing s t ∧ ∀ found, r = some found → resolve s.inode cwd path true = some found :=
  namex_frees hs

theorem namei_frees {cwd : Nat} (hs : Cached s) :
    Ensures Fine (namei cwd path) s fun r t =>
      Freeing s t ∧ ∀ ip, r = some ip →
        ∃ name, resolve s.inode cwd path false = some (ip, name) := by
  rw [namei]
  apply (namex_frees hs).bind
  intro r t ⟨hfree, hr⟩
  apply Ensures.pure
  refine ⟨hfree, ?_⟩
  intro ip hip
  cases r with
  | none => cases hip
  | some found =>
      injection hip with hip
      exact ⟨found.2, by rw [hr found rfl, ← hip]⟩

end SyscallSched.Xv6.Links
