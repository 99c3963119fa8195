import SyscallSched.Xv6.Links.Files

/-!
# `link`, `unlink` and `create`

Between the steps of a call the inode whose name is missing is the one `Inv` excepts; each
call ends without exception.
-/

namespace SyscallSched.Xv6.Links

open SyscallSched.Foundation

variable {s t : State} {n : Nat → Inode} {cwd dp ip i off inum : Nat} {name : Name}
  {path old new : List Nat} {inode : Inode} {space : Bool}

structure Valid (s : State) : Prop where
  cached : Cached s
  inv : Inv s.inode none

theorem Freeing.valid (h : Freeing s t) (hs : Valid s) : Valid t :=
  ⟨h.cached, hs.inv.freed h.freed⟩

theorem Keeps.valid {α : Type} {x : KernelM α} (hx : Keeps x) (hs : Valid s) :
    Ensures Fine x s fun _ t => Valid t :=
  (hx s hs.cached).imp fun _ _ h => h.valid hs

/-- A new name may be put where `path` says: the directory has links if it lacks the name. -/
def Placeable (n : Nat → Inode) (cwd : Nat) (path : List Nat) : Prop :=
  ∀ dp name, resolve n cwd path true = some (dp, name) →
    findEntry (n dp).entries name = none → 0 < (n dp).nlink.toInt

theorem Placeable.of_same {n' : Nat → Inode} (h : Placeable n cwd path)
    (hsame : ∀ i, (n' i).type = .dir → n' i = n i) : Placeable n' cwd path := by
  intro dp name hdp hnone
  have hdir := resolve_dir hdp
  have hresolve : resolve n cwd path true = some (dp, name) := by
    apply resolveLoop_of_same _ hdp
    intro i hi
    rw [← hsame i hi]
    exact ⟨hi, rfl⟩
  rw [hsame dp hdir] at hnone ⊢
  exact h dp name hresolve hnone

theorem Cached.setInode (hs : Cached s) (h : inode.type ≠ .free) : Cached (s.setInode i inode) := by
  intro j hj
  by_cases hji : j = i
  · subst hji
    simpa [State.setInode] using h
  · simpa [State.setInode, hji] using hs j hj

theorem Cached.setInode_same (hs : Cached s) (h : inode.type = (s.inode i).type) :
    Cached (s.setInode i inode) := by
  intro j hj
  by_cases hji : j = i
  · subst hji
    simpa [State.setInode, h] using hs j hj
  · simpa [State.setInode, hji] using hs j hj

theorem inode_setInode (s : State) (i : Nat) (inode : Inode) :
    (s.setInode i inode).inode = Function.update s.inode i inode := rfl

/-! ## `dirlink` -/

theorem dirlink_fresh (hs : Cached s) (hnone : findEntry (s.inode dp).entries name = none) :
    Ensures Fine (dirlink dp name inum space) s fun r t =>
      Cached t ∧ (s.inode dp).type = .dir ∧
        ((r = false ∧ t.inode = s.inode) ∨
          ∃ es, r = true ∧ putEntry (s.inode dp).entries ⟨inum, name⟩ 0 space = some es ∧
            t.inode = Function.update s.inode dp { s.inode dp with entries := es }) := by
  rw [dirlink]
  apply (dirlookup_reads hs dp name).bind
  intro r t ⟨hlook, hdir, hr⟩
  rw [hnone] at hr
  subst hr
  apply Ensures.bind_eq (getInode_eq t dp)
  rw [hlook.inode]
  cases hput : putEntry (s.inode dp).entries ⟨inum, name⟩ 0 space with
  | none => exact Ensures.pure ⟨hlook.cached, hdir, Or.inl ⟨rfl, hlook.inode⟩⟩
  | some es =>
      apply Ensures.bind_eq (setInode_eq t dp _)
      apply Ensures.pure
      refine ⟨hlook.cached.setInode_same (by rw [hlook.inode]), hdir, Or.inr ⟨es, rfl, rfl, ?_⟩⟩
      rw [inode_setInode, hlook.inode]

theorem dirlink_found (hs : Cached s) (hsome : findEntry (s.inode dp).entries name ≠ none) :
    Ensures Fine (dirlink dp name inum space) s fun r t => r = false ∧ Freeing s t := by
  rw [dirlink]
  apply (dirlookup_reads hs dp name).bind
  intro r t ⟨hlook, _, hr⟩
  cases r with
  | none => exact absurd hr.symm hsome
  | some found =>
      apply (iput_frees hlook.cached found.2).bind
      intro _ u hfree
      exact Ensures.pure ⟨rfl, hlook.freeing.trans hfree⟩

/-! ## `link` -/

theorem linkBad_valid (hs : Cached s) (h : Inv s.inode (some ip)) (hfile : ¬ (s.inode ip).live) :
    Ensures Fine (linkBad ip) s fun _ t => Valid t := by
  rw [linkBad]
  apply (ilock_reads hs ip).bind
  intro _ t ⟨hlock, _⟩
  apply Ensures.bind_eq (getInode_eq t ip)
  rw [hlock.inode]
  apply Ensures.bind_eq (setInode_eq t ip _)
  have hvalid : Valid (t.setInode ip
      { s.inode ip with nlink := (s.inode ip).nlink - 1 }) := by
    refine ⟨hlock.cached.setInode_same (by rw [hlock.inode]), ?_⟩
    rw [inode_setInode, hlock.inode]
    exact h.drop rfl (Or.inl hfile)
  exact ((iput_keeps ip).bind fun _ => Keeps.pure (-1)).valid hvalid

theorem linkName_valid (hs : Cached s) (h : Inv s.inode (some ip))
    (hfile : (s.inode ip).type ≠ .dir) (hplace : Placeable s.inode cwd new) :
    Ensures Fine (linkName cwd ip new space) s fun _ t => Valid t := by
  have hnlink := h.nlink_ne_zero_of_owed
  have hbad : ∀ t : State, Freeing s t → Ensures Fine (linkBad ip) t fun _ u => Valid u := by
    intro t hst
    apply linkBad_valid hst.cached (h.freed hst.freed)
    rw [hst.freed.of_nlink hnlink]
    exact fun hlive => hfile hlive.1
  rw [linkName]
  apply (nameiparent_frees hs).bind
  intro r t ⟨hwalk, hr⟩
  cases r with
  | none => exact hbad t hwalk
  | some found =>
      obtain ⟨dp, name⟩ := found
      apply (ilock_reads hwalk.cached dp).bind
      intro _ u ⟨hlock, _⟩
      have hsu := hwalk.trans hlock.freeing
      by_cases hnone : findEntry (u.inode dp).entries name = none
      case pos =>
        apply (dirlink_fresh hlock.cached hnone).bind
        intro b v ⟨hcached, hdir, hput⟩
        have hsame := hsu.freed.of_dir hdir
        rcases hput with ⟨rfl, hinode⟩ | ⟨es, rfl, hput, hinode⟩
        · apply (iput_frees hcached dp).bind
          intro _ w hfree
          apply hbad w
          refine hsu.trans (Freeing.trans ⟨hcached, ?_⟩ hfree)
          rw [hinode]
          exact Freed.refl u.inode
        · have hlive : (u.inode dp).live := by
            rw [hsame] at hnone hdir ⊢
            exact ⟨hdir, hplace dp name (hr _ rfl) hnone⟩
          have hout : ¬ (u.inode ip).live := by
            rw [hsu.freed.of_nlink hnlink]
            exact fun hlive => hfile hlive.1
          have hinv := (h.freed hsu.freed).link hout rfl hlive hnone hput
          rw [← hinode] at hinv
          apply ((iput_keeps dp).bind fun _ =>
            (iput_keeps ip).bind fun _ => Keeps.pure 0).valid ⟨hcached, hinv⟩
      case neg =>
        apply (dirlink_found hlock.cached hnone).bind
        rintro b v ⟨rfl, hfree⟩
        apply (iput_frees hfree.cached dp).bind
        intro _ w hfree'
        exact hbad w (hsu.trans (hfree.trans hfree'))

theorem sysLink_valid (hs : Valid s)
    (hsafe : ∀ ip name, resolve s.inode cwd old false = some (ip, name) →
      (s.inode ip).type ≠ .dir → (s.inode ip).nlink.toInt ≠ 32767 ∧ Placeable s.inode cwd new) :
    Ensures Fine (sysLink cwd old new space) s fun _ t => Valid t := by
  rw [sysLink]
  apply (namei_frees hs.cached).bind
  intro r t ⟨hwalk, hr⟩
  cases r with
  | none => exact Ensures.pure (hwalk.valid hs)
  | some ip =>
      apply (ilock_reads hwalk.cached ip).bind
      intro _ u ⟨hlock, hfree⟩
      have hsu := hwalk.trans hlock.freeing
      apply Ensures.bind_eq (getInode_eq u ip)
      rw [hlock.inode]
      split
      · exact ((iput_keeps ip).bind fun _ => Keeps.pure (-1)).valid (hsu.valid hs)
      · rename_i hdir
        have hsame : t.inode ip = s.inode ip := by
          apply (hwalk.freed ip).resolve_right
          intro hgone
          rw [hgone.2] at hfree
          exact hfree rfl
        obtain ⟨name, hresolve⟩ := hr ip rfl
        rw [hsame] at hfree hdir ⊢
        obtain ⟨hmax, hplace⟩ := hsafe ip name hresolve hdir
        apply Ensures.bind_eq (setInode_eq u ip _)
        generalize hv : u.setInode ip { s.inode ip with nlink := (s.inode ip).nlink + 1 } = v
        have hinode : v.inode =
            Function.update t.inode ip { s.inode ip with nlink := (s.inode ip).nlink + 1 } := by
          rw [← hv, inode_setInode, hlock.inode]
        have hdirs : ∀ i, (v.inode i).type = .dir → v.inode i = s.inode i := by
          intro i hi
          rw [hinode] at hi ⊢
          by_cases hip : i = ip
          · subst hip
            rw [Function.update_self] at hi
            exact absurd hi hdir
          · rw [Function.update_of_ne hip] at hi ⊢
            exact hwalk.freed.of_dir hi
        apply linkName_valid
        · rw [← hv]
          apply hlock.cached.setInode_same
          rw [hlock.inode, hsame]
        · rw [hinode]
          exact (hwalk.valid hs).inv.bump hsame hfree hdir hmax
        · rw [hinode, Function.update_self]
          exact hdir
        · exact hplace.of_same hdirs

/-! ## `unlink` -/

/-- An entry other than the dots is in a directory with links. -/
theorem Inv.live_of_findEntry (h : Inv n none) (hdir : (n dp).type = .dir)
    (hname : name ≠ dot ∧ name ≠ dotdot) (hfind : findEntry (n dp).entries name = some (off, ip)) :
    (n dp).live := by
  by_contra hdead
  cases (h.formed dp).dead hdir hdead name ip (mem_of_findEntry hfind) with
  | inl hdot => exact hname.1 hdot
  | inr hdotdot => exact hname.2 hdotdot

theorem unlinkInode_valid (hs : Cached s) (h : Inv s.inode (some ip))
    (hout : ¬ (s.inode ip).live ∨
      (s.inode ip).nlink.toInt = 1 ∧ (directory (s.inode ip).entries).names = 0) :
    Ensures Fine (unlinkInode dp ip) s fun _ t => Valid t := by
  rw [unlinkInode]
  apply (iput_frees hs dp).bind
  intro _ t hfree
  have hsame := hfree.freed.of_nlink h.nlink_ne_zero_of_owed
  apply Ensures.bind_eq (getInode_eq t ip)
  rw [hsame]
  apply Ensures.bind_eq (setInode_eq t ip _)
  apply (iput_keeps ip).valid
  refine ⟨hfree.cached.setInode_same (by rw [hsame]), ?_⟩
  rw [inode_setInode]
  exact (h.freed hfree.freed).drop hsame hout

theorem unlinkParent_eq (s : State) (dp : Nat) (type : FileType) :
    unlinkParent dp type s = .ok ((), if type = .dir then
      s.setInode dp { s.inode dp with nlink := (s.inode dp).nlink - 1 } else s) := by
  rw [unlinkParent]
  split
  · rfl
  · rfl

theorem unlinkEntry_valid (hs : Valid s) (hlive : (s.inode dp).live)
    (hname : name ≠ dot ∧ name ≠ dotdot)
    (hfind : findEntry (s.inode dp).entries name = some (off, ip))
    (hempty : (s.inode ip).type = .dir → (directory (s.inode ip).entries).names = 0) :
    Ensures Fine (unlinkEntry dp off ip) s fun _ t => Valid t := by
  have hmem := ((hs.inv.formed dp).shaped hlive).mem_of_findEntry hname hfind
  have hpos := hs.inv.nlink_pos_of_mem hlive (by simp) hmem
  have hne : ip ≠ dp := by
    intro heq
    subst heq
    rw [hempty hlive.1] at hmem
    simp at hmem
  rw [unlinkEntry]
  apply Ensures.bind_eq (getInode_eq s dp)
  apply Ensures.bind_eq (setInode_eq s dp _)
  apply Ensures.bind_eq (getInode_eq _ ip)
  rw [inode_setInode, Function.update_of_ne hne]
  apply Ensures.bind_eq (unlinkParent_eq _ dp _)
  by_cases hdir : (s.inode ip).type = .dir
  case pos =>
    rw [if_pos hdir, inode_setInode, Function.update_self]
    apply unlinkInode_valid
    · apply Cached.setInode_same
      · exact hs.cached.setInode_same rfl
      · rw [inode_setInode, Function.update_self]
    · rw [inode_setInode, inode_setInode, Function.update_idem]
      exact hs.inv.rmdir ⟨hdir, hpos⟩ (hempty hdir) rfl hlive hname hfind
    · rw [inode_setInode, inode_setInode, Function.update_of_ne hne, Function.update_of_ne hne]
      exact Or.inr ⟨hs.inv.nlink_of_empty ⟨hdir, hpos⟩ (hempty hdir) hlive hmem, hempty hdir⟩
  case neg =>
    have hfile : ¬ (s.inode ip).live := fun h => hdir h.1
    rw [if_neg hdir]
    apply unlinkInode_valid
    · exact hs.cached.setInode_same rfl
    · exact hs.inv.unlink hfile rfl hlive hname hfind
    · rw [inode_setInode, Function.update_of_ne hne]
      exact Or.inl hfile

theorem sysUnlink_valid (hs : Valid s) :
    Ensures Fine (sysUnlink cwd path) s fun _ t => Valid t := by
  rw [sysUnlink]
  apply (nameiparent_frees hs.cached).bind
  intro r t ⟨hwalk, _⟩
  cases r with
  | none => exact Ensures.pure (hwalk.valid hs)
  | some found =>
      obtain ⟨dp, name⟩ := found
      apply (ilock_reads hwalk.cached dp).bind
      intro _ u ⟨hlock, _⟩
      have hu := (hwalk.trans hlock.freeing).valid hs
      split
      · exact ((iput_keeps dp).bind fun _ => Keeps.pure (-1)).valid hu
      · rename_i hdots
        have hname : name ≠ dot ∧ name ≠ dotdot := not_or.mp hdots
        apply (dirlookup_reads hu.cached dp name).bind
        intro r v ⟨hlook, hdir, hr⟩
        have hv := hlook.freeing.valid hu
        cases r with
        | none => exact ((iput_keeps dp).bind fun _ => Keeps.pure (-1)).valid hv
        | some found =>
            obtain ⟨off, ip⟩ := found
            apply (ilock_reads hv.cached ip).bind
            intro _ w ⟨hlock', _⟩
            have hw := hlock'.freeing.valid hv
            have hinode : w.inode = u.inode := by rw [hlock'.inode, hlook.inode]
            rw [← hinode] at hdir hr
            have hlive := hw.inv.live_of_findEntry hdir hname hr.symm
            have hmem := ((hw.inv.formed dp).shaped hlive).mem_of_findEntry hname hr.symm
            have hpos := hw.inv.nlink_pos_of_mem hlive (by simp) hmem
            apply Ensures.bind_eq (getInode_eq w ip)
            split
            · rename_i hlinks
              rw [lt_one_iff_toInt] at hlinks
              omega
            · split
              · exact ((iput_keeps ip).bind fun _ =>
                  (iput_keeps dp).bind fun _ => Keeps.pure (-1)).valid hw
              · rename_i hdirempty
                apply (unlinkEntry_valid hw hlive hname hr.symm _).bind
                · exact fun _ _ h => Ensures.pure h
                · intro hdir'
                  apply Inode.names_of_isEmpty
                  by_contra hfull
                  exact hdirempty ⟨hdir', by simpa using hfull⟩

/-! ## `create` -/

theorem freeInode_spec (h : s.freeInode = some i) :
    (0 < i ∧ i < ninodes) ∧ (s.inode i).type = .free := by
  have hmem := List.mem_of_find?_eq_some h
  have hfree := List.find?_some h
  simp only [Bool.and_eq_true, decide_eq_true_eq] at hfree
  exact ⟨⟨hfree.1, List.mem_range.mp hmem⟩, hfree.2⟩

structure Fresh (n : Nat → Inode) (ip : Nat) (inode : Inode) (s : State) : Prop where
  cached : Cached s
  update : s.inode = Function.update n ip inode
  valid : Inv n none
  was_free : (n ip).type = .free
  range : 0 < ip ∧ ip < ninodes
  type : inode.type ≠ .free
  nlink : inode.nlink = 1
  dots : ∀ x j, (x, j) ∈ realNames inode.entries → x = dot ∨ x = dotdot

namespace Fresh

theorem self (h : Fresh n ip inode s) : s.inode ip = inode := by
  rw [h.update, Function.update_self]

theorem nlink_zero (h : Fresh n ip inode s) : (n ip).nlink = 0 :=
  (h.valid.formed ip).free h.was_free

theorem not_live (h : Fresh n ip inode s) : ¬ (n ip).live := by
  intro hlive
  have hdir := hlive.1
  rw [h.was_free] at hdir
  cases hdir

theorem inv (h : Fresh n ip inode s) (hshaped : inode.type = .dir → Shaped ip inode.entries) :
    Inv s.inode (some ip) := by
  rw [h.update]
  apply h.valid.replace (Or.inr ⟨rfl, h.not_live⟩) (Or.inl rfl)
  · refine ⟨fun _ => h.range, fun hlive => hshaped hlive.1, ?_, fun hfree => absurd hfree h.type⟩
    intro hdir hdead
    refine absurd ⟨hdir, ?_⟩ hdead
    rw [h.nlink]
    decide
  · rw [h.nlink, h.nlink_zero, owed_none, owed_self]
    rfl

end Fresh

theorem createFail_valid (h : Fresh n ip inode s) :
    Ensures Fine (createFail ip dp) s fun _ t => Valid t := by
  rw [createFail]
  apply Ensures.bind_eq (getInode_eq s ip)
  rw [h.self]
  apply Ensures.bind_eq (setInode_eq s ip _)
  have hdead : ¬ Inode.live { inode with nlink := 0 } := fun hlive =>
    absurd hlive.2 (by decide : ¬ 0 < (0 : Int16).toInt)
  have hvalid : Valid (s.setInode ip { inode with nlink := 0 }) := by
    refine ⟨h.cached.setInode h.type, ?_⟩
    rw [inode_setInode, h.update, Function.update_idem]
    apply h.valid.replace (Or.inr ⟨rfl, h.not_live⟩)
    · exact Or.inr ⟨rfl, by rwa [Function.update_self]⟩
    · exact ⟨fun _ => h.range, fun hlive => absurd hlive hdead, fun _ _ => h.dots,
        fun hfree => absurd hfree h.type⟩
    · rw [h.nlink_zero]
  exact ((iput_keeps ip).bind fun _ => (iput_keeps dp).bind fun _ => Keeps.pure none).valid hvalid

theorem Fresh.dirlink (h : Fresh n ip inode s) (hnone : findEntry inode.entries name = none)
    (hname : name = dot ∨ name = dotdot) (hinum : inum ≠ 0) :
    Ensures Fine (dirlink ip name inum space) s fun r t =>
      (r = false ∧ Fresh n ip inode t) ∨
        ∃ es, r = true ∧ putEntry inode.entries ⟨inum, name⟩ 0 space = some es ∧
          Fresh n ip { inode with entries := es } t := by
  apply (dirlink_fresh h.cached (by rwa [h.self])).imp
  intro r t ⟨hcached, _, hput⟩
  rw [h.self] at hput
  rcases hput with ⟨rfl, hinode⟩ | ⟨es, rfl, hput, hinode⟩
  · exact Or.inl ⟨rfl, { h with cached := hcached, update := by rw [hinode, h.update] }⟩
  · right
    refine ⟨es, rfl, hput, hcached, ?_, h.valid, h.was_free, h.range, h.type, h.nlink, ?_⟩
    · rw [hinode, h.update, Function.update_idem]
    · intro x j hx
      rw [realNames_putEntry hinum hput, Multiset.mem_cons] at hx
      cases hx with
      | inl hnew =>
          injection hnew with hx
          rw [hx]
          exact hname
      | inr hold => exact h.dots x j hold

theorem createDots_ensures {type : FileType} {space : Nat → Bool} (h : Fresh n ip inode s)
    (hentries : inode.entries = []) (hdp : dp ≠ 0) :
    Ensures Fine (createDots ip dp type space) s fun r t =>
      ∃ es, Fresh n ip { inode with entries := es } t ∧
        (r = true → es = if type = .dir then [⟨ip, dot⟩, ⟨dp, dotdot⟩] else []) := by
  have hip : ip ≠ 0 := by
    have hrange := h.range
    omega
  have hsame : Fresh n ip { inode with entries := [] } s := by
    rw [← hentries]
    exact h
  rw [createDots]
  split
  · apply (hsame.dirlink rfl (Or.inl rfl) hip).bind
    rintro r t (⟨rfl, ht⟩ | ⟨es, rfl, hput, ht⟩)
    · exact Ensures.pure ⟨[], ht, by simp⟩
    · have hes := putEntry_nil hput
      subst hes
      have hnone : findEntry [⟨ip, dot⟩] dotdot = none := by simp [findEntry, dot, dotdot]
      apply (ht.dirlink hnone (Or.inr rfl) hdp).imp
      rintro r u (⟨rfl, hu⟩ | ⟨es, rfl, hput, hu⟩)
      · exact ⟨[⟨ip, dot⟩], hu, by simp⟩
      · refine ⟨es, hu, fun _ => ?_⟩
        rw [putEntry_cons_real hip] at hput
        obtain ⟨rest, hput, heq⟩ := Option.map_eq_some_iff.mp hput
        rw [← heq, putEntry_nil hput]
  · exact Ensures.pure ⟨[], hsame, fun _ => rfl⟩

theorem linkParent_eq (s : State) (dp : Nat) (type : FileType) :
    linkParent dp type s = .ok ((), if type = .dir then
      s.setInode dp { s.inode dp with nlink := (s.inode dp).nlink + 1 } else s) := by
  rw [linkParent]
  split
  · rfl
  · rfl

theorem ialloc_ensures {type : FileType} (hs : Valid s) (htype : type ≠ .free) :
    Ensures Fine (ialloc type) s fun r t =>
      (r = none ∧ Valid t) ∨ ∃ ip, r = some ip ∧ Cached t ∧
        t.inode = Function.update s.inode ip { Inode.free with type } ∧
        (0 < ip ∧ ip < ninodes) ∧ (s.inode ip).type = .free := by
  rw [ialloc]
  apply Ensures.bind_eq (t := s) rfl
  cases hfree : s.freeInode with
  | none => exact Ensures.pure (Or.inl ⟨rfl, hs⟩)
  | some ip =>
      obtain ⟨hrange, hwas⟩ := freeInode_spec hfree
      apply Ensures.bind_eq (setInode_eq s ip _)
      apply (iget_reads (hs.cached.setInode htype) ip).bind
      intro _ t hread
      exact Ensures.pure (Or.inr ⟨ip, rfl, hread.cached, hread.inode, hrange, hwas⟩)

theorem createLinked_valid {type : FileType} {es : List Dirent} (h : Fresh n ip inode s)
    (htype : inode.type = type) (hlive : (n dp).live)
    (hnone : findEntry (n dp).entries name = none)
    (hput : putEntry (n dp).entries ⟨ip, name⟩ 0 space = some es)
    (hentries : type = .dir → inode.entries = [⟨ip, dot⟩, ⟨dp, dotdot⟩]) (ht : Cached t)
    (hinode : t.inode = Function.update s.inode dp { s.inode dp with entries := es }) :
    Ensures Fine (createLinked dp ip type) t fun _ u => Valid u := by
  subst htype
  have hpos := hlive.2
  have hdp := h.valid.ne_zero_of_nlink hpos
  have hrange := h.range
  have hne : dp ≠ ip := by
    intro heq
    exact h.not_live (heq ▸ hlive)
  have hsame : s.inode dp = n dp := by
    rw [h.update, Function.update_of_ne hne]
  rw [hsame] at hinode
  rw [createLinked]
  apply Ensures.bind_eq (linkParent_eq t dp _)
  apply ((iput_keeps dp).bind fun _ => Keeps.pure (some ip)).valid
  by_cases hdir : inode.type = .dir
  case pos =>
    rw [if_pos hdir]
    refine ⟨ht.setInode_same rfl, ?_⟩
    have hself := h.self
    have hshaped : Shaped ip inode.entries := by
      rw [hentries hdir]
      exact shaped_dots (by omega) hdp
    rw [inode_setInode, hinode, Function.update_self, Function.update_idem]
    apply (h.inv fun _ => hshaped).mkdir _ _ _ hne hsame hlive hnone hput
    · rw [hself]
      refine ⟨hdir, ?_⟩
      rw [h.nlink]
      decide
    · rw [hself, h.nlink]
      rfl
    · rw [hself, hentries hdir]
      rfl
  case neg =>
    rw [if_neg hdir]
    refine ⟨ht, ?_⟩
    rw [hinode]
    apply (h.inv fun h => absurd h hdir).link _ hsame hlive hnone hput
    rw [h.self]
    exact fun hlive => hdir hlive.1

theorem createNew_valid {type : FileType} {major : Int16} {space : Nat → Bool} (hs : Valid s)
    (htype : type ≠ .free) (hlive : (s.inode dp).live)
    (hnone : findEntry (s.inode dp).entries name = none) :
    Ensures Fine (createNew dp name type major space) s fun _ t => Valid t := by
  rw [createNew]
  apply (ialloc_ensures hs htype).bind
  rintro r t (⟨rfl, ht⟩ | ⟨ip, rfl, ht, halloc, hrange, hwas⟩)
  · exact ((iput_keeps dp).bind fun _ => Keeps.pure none).valid ht
  apply (ilock_reads ht ip).bind
  intro _ u ⟨hlock, _⟩
  apply Ensures.bind_eq (getInode_eq u ip)
  rw [hlock.inode, halloc, Function.update_self]
  apply Ensures.bind_eq (setInode_eq u ip _)
  have hfresh : Fresh s.inode ip { type, major, nlink := 1, entries := [] }
      (u.setInode ip { type, major, nlink := 1, entries := [] }) := by
    refine ⟨hlock.cached.setInode htype, ?_, hs.inv, hwas, hrange, htype, rfl, ?_⟩
    · rw [inode_setInode, hlock.inode, halloc, Function.update_idem]
    · intro x j hx
      simp at hx
  apply (createDots_ensures hfresh rfl (hs.inv.ne_zero_of_nlink hlive.2)).bind
  rintro b v ⟨es, hv, hdots⟩
  have hsame : v.inode dp = s.inode dp := by
    rw [hv.update, Function.update_of_ne]
    intro heq
    exact hv.not_live (heq ▸ hlive)
  cases b with
  | false => exact createFail_valid hv
  | true =>
      apply (dirlink_fresh hv.cached (by rwa [hsame])).bind
      rintro b w ⟨hw, _, ⟨rfl, hinode⟩ | ⟨es', rfl, hput, hinode⟩⟩
      · exact createFail_valid { hv with cached := hw, update := by rw [hinode, hv.update] }
      · rw [hsame] at hput
        apply createLinked_valid hv rfl hlive hnone hput _ hw hinode
        intro hdir
        rw [hdots rfl, if_pos hdir]

theorem create_valid {type : FileType} {major : Int16} {space : Nat → Bool} (hs : Valid s)
    (htype : type ≠ .free) (hplace : Placeable s.inode cwd path) :
    Ensures Fine (create cwd path type major space) s fun _ t => Valid t := by
  rw [create]
  apply (nameiparent_frees hs.cached).bind
  intro r t ⟨hwalk, hr⟩
  cases r with
  | none => exact Ensures.pure (hwalk.valid hs)
  | some found =>
      obtain ⟨dp, name⟩ := found
      apply (ilock_reads hwalk.cached dp).bind
      intro _ u ⟨hlock, _⟩
      apply (dirlookup_reads hlock.cached dp name).bind
      intro r v ⟨hlook, hdir, hr'⟩
      have hsv := (hwalk.trans hlock.freeing).trans hlook.freeing
      have hv := hsv.valid hs
      rw [← hlook.inode] at hdir hr'
      cases r with
      | some entry =>
          apply Keeps.valid _ hv
          apply (iput_keeps dp).bind
          intro _
          apply (ilock_keeps entry.2).bind
          intro _
          apply (getInode_keeps entry.2).bind
          intro inode
          apply Keeps.ite
          · exact Keeps.pure _
          · exact (iput_keeps entry.2).bind fun _ => Keeps.pure none
      | none =>
          have hsame := hsv.freed.of_dir hdir
          have hnone := hr'.symm
          refine createNew_valid hv htype ⟨hdir, ?_⟩ hnone
          rw [hsame] at hnone ⊢
          exact hplace dp name (hr _ rfl) hnone

theorem sysMkdir_valid {space : Nat → Bool} (hs : Valid s) (hplace : Placeable s.inode cwd path) :
    Ensures Fine (sysMkdir cwd path space) s fun _ t => Valid t := by
  rw [sysMkdir]
  apply (create_valid hs (by decide) hplace).bind
  intro r t ht
  cases r with
  | none => exact Ensures.pure ht
  | some ip => exact ((iput_keeps ip).bind fun _ => Keeps.pure 0).valid ht

theorem sysMknod_valid {major : Int16} {space : Nat → Bool} (hs : Valid s)
    (hplace : Placeable s.inode cwd path) :
    Ensures Fine (sysMknod cwd path major space) s fun _ t => Valid t := by
  rw [sysMknod]
  apply (create_valid hs (by decide) hplace).bind
  intro r t ht
  cases r with
  | none => exact Ensures.pure ht
  | some ip => exact ((iput_keeps ip).bind fun _ => Keeps.pure 0).valid ht

theorem sysOpen_valid {p omode : Nat} {proc : Proc} {space : Nat → Bool} (hs : Valid s)
    (hplace : omode &&& oCreate ≠ 0 → Placeable s.inode proc.cwd path) :
    Ensures Fine (sysOpen p proc path omode space) s fun _ t => Valid t := by
  rw [sysOpen]
  split
  · rename_i hcreate
    apply (create_valid hs (by decide) (hplace hcreate)).bind
    intro r t ht
    cases r with
    | none => exact Ensures.pure ht
    | some ip => exact (openInode_keeps p proc ip).valid ht
  · apply Keeps.valid _ hs
    apply (namei_keeps proc.cwd path).bind
    intro r
    cases r with
    | none => exact Keeps.pure (-1)
    | some ip =>
        apply (ilock_keeps ip).bind
        intro _
        apply (getInode_keeps ip).bind
        intro inode
        exact Keeps.ite (openFailed_keeps ip) (openInode_keeps p proc ip)

end SyscallSched.Xv6.Links
