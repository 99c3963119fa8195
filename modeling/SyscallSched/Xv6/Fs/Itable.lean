import Mathlib.Algebra.BigOperators.Group.Finset.Piecewise
import Mathlib.Algebra.Order.BigOperators.Group.Finset
import SyscallSched.Xv6.Fs.Namex

/-!
# References to inodes (`fs.c`)

`TableOk` is the invariant of the table of inodes, and `refs` counts the references to an
inode.  `WithRefs s t held` says that all that was done between `s` and `t` is to take
references to the inodes `held`.
-/

namespace SyscallSched.Xv6.Fs.Code

open SyscallSched.Foundation SyscallSched.Xv6.Fs SlotMap

def inodeOn (sb : Superblock) (v : Nat → Block) (inum : Nat) : Inode :=
  { sb.dinodeAt v inum with inum := inum }

def refs (s : NamexState) (inum : Nat) : Nat :=
  ∑ ip, if (s.itable ip).ip.inum = inum then (s.itable ip).ref else 0

def inTable (s : NamexState) : Finset Nat :=
  (Finset.univ.filter fun ip => 0 < (s.itable ip).ref).image fun ip => (s.itable ip).ip.inum

structure TableOk (sb : Superblock) (s : NamexState) : Prop where
  unique : ∀ ip ip', 0 < (s.itable ip).ref → 0 < (s.itable ip').ref →
    (s.itable ip).ip.inum = (s.itable ip').ip.inum → ip = ip'
  synced : ∀ ip, 0 < (s.itable ip).ref → (s.itable ip).valid = true →
    (s.itable ip).ip = inodeOn sb s.store.view (s.itable ip).ip.inum

/-- The inode is allocated, and it has links or somebody refers to it. -/
def Live (sb : Superblock) (s : NamexState) (inum : Nat) : Prop :=
  (sb.dinodeAt s.store.view inum).type ≠ 0 ∧
    ((sb.dinodeAt s.store.view inum).nlink ≠ 0 ∨ 0 < refs s inum)

structure At (s : NamexState) (ip : InodePtr) (inum : Nat) : Prop where
  ref : 0 < (s.itable ip).ref
  inum : (s.itable ip).ip.inum = inum

/-- `t` differs from `s` by references to the inodes `held`. -/
structure WithRefs (sb : Superblock) (s t : NamexState) (held : List Nat) : Prop where
  view : t.store.view = s.store.view
  log : t.store.log = s.store.log
  table : TableOk sb t
  refs : ∀ inum, refs t inum = Code.refs s inum + held.count inum

def withEntry (s : NamexState) (ip : InodePtr) (e : Entry) : NamexState :=
  { s with itable := Function.update s.itable ip e }

section

variable {sb : Superblock} {s t u : NamexState} {ip ip' cwd : InodePtr} {inum i j : Nat}
  {held : List Nat} {e : Entry}

@[simp] theorem store_withEntry : (withEntry s ip e).store = s.store := rfl

@[simp] theorem withEntry_self : (withEntry s ip e).itable ip = e := Function.update_self ..

theorem withEntry_of_ne (h : ip' ≠ ip) : (withEntry s ip e).itable ip' = s.itable ip' :=
  Function.update_of_ne h ..

theorem at_iff : At s ip inum ↔ 0 < (s.itable ip).ref ∧ (s.itable ip).ip.inum = inum :=
  ⟨fun h => ⟨h.ref, h.inum⟩, fun h => ⟨h.1, h.2⟩⟩

/-! ### Counting references -/

def Entry.refsTo (e : Entry) (inum : Nat) : Nat := if e.ip.inum = inum then e.ref else 0

theorem refs_withEntry (s : NamexState) (ip : InodePtr) (e : Entry) (inum : Nat) :
    refs (withEntry s ip e) inum + (s.itable ip).refsTo inum = refs s inum + e.refsTo inum := by
  have hold : refs s inum = (s.itable ip).refsTo inum +
      ∑ k ∈ Finset.univ.erase ip, (s.itable k).refsTo inum :=
    (Finset.add_sum_erase _ _ (Finset.mem_univ ip)).symm
  have hnew : refs (withEntry s ip e) inum = e.refsTo inum +
      ∑ k ∈ Finset.univ.erase ip, (s.itable k).refsTo inum := by
    have hsplit := (Finset.add_sum_erase Finset.univ
      (fun k => (Function.update s.itable ip e k).refsTo inum) (Finset.mem_univ ip)).symm
    have hrest : ∀ k ∈ Finset.univ.erase ip,
        (Function.update s.itable ip e k).refsTo inum = (s.itable k).refsTo inum := by
      intro k hk
      rw [Function.update_of_ne (Finset.ne_of_mem_erase hk)]
    rw [Function.update_self, Finset.sum_congr rfl hrest] at hsplit
    exact hsplit
  omega

theorem refs_pos_iff : 0 < refs s inum ↔ ∃ ip, At s ip inum := by
  rw [Nat.pos_iff_ne_zero, refs, ne_eq, Finset.sum_eq_zero_iff]
  simp [at_iff, Nat.pos_iff_ne_zero, and_comm]

theorem refs_of_at (h : TableOk sb s) (hat : At s ip inum) : refs s inum = (s.itable ip).ref := by
  rw [refs, Finset.sum_eq_single_of_mem ip (Finset.mem_univ ip), if_pos hat.inum]
  intro k _ hk
  split
  · rename_i hinum
    by_contra hne
    exact hk (h.unique k ip (Nat.pos_of_ne_zero hne) hat.ref (hinum.trans hat.inum.symm))
  · rfl

theorem mem_inTable : inum ∈ inTable s ↔ 0 < refs s inum := by
  rw [refs_pos_iff]
  simp [inTable, at_iff]

theorem TableOk.card (h : TableOk sb s) (hfull : ∀ ip, (s.itable ip).ref ≠ 0) :
    (inTable s).card = ninode := by
  have hall : (Finset.univ.filter fun ip => 0 < (s.itable ip).ref) = Finset.univ := by
    apply Finset.filter_true_of_mem
    intro ip _
    exact Nat.pos_of_ne_zero (hfull ip)
  rw [inTable, hall, Finset.card_image_of_injOn]
  · simp
  · intro ip _ ip' _ hinum
    exact h.unique ip ip' (Nat.pos_of_ne_zero (hfull ip)) (Nat.pos_of_ne_zero (hfull ip')) hinum

/-! ### Changing an entry -/

theorem At.of_ne (hat : At s ip inum) (hne : ip ≠ ip') (e : Entry) :
    At (withEntry s ip' e) ip inum := by
  rw [at_iff, withEntry_of_ne hne]
  exact at_iff.mp hat

theorem at_withEntry : At (withEntry s ip e) ip inum ↔ 0 < e.ref ∧ e.ip.inum = inum := by
  rw [at_iff, withEntry_self]

theorem TableOk.withEntry (h : TableOk sb s)
    (hother : 0 < e.ref → ∀ ip', At s ip' e.ip.inum → ip' = ip)
    (hsynced : 0 < e.ref → e.valid = true → e.ip = inodeOn sb s.store.view e.ip.inum) :
    TableOk sb (withEntry s ip e) := by
  constructor
  case unique =>
      intro k k' hk hk' hinum
      by_cases hkip : k = ip
      · subst hkip
        by_cases hkip' : k' = k
        · exact hkip'.symm
        · rw [withEntry_self] at hk hinum
          rw [withEntry_of_ne hkip'] at hk' hinum
          exact absurd (hother hk k' ⟨hk', hinum.symm⟩) hkip'
      · rw [withEntry_of_ne hkip] at hk hinum
        by_cases hkip' : k' = ip
        · subst hkip'
          rw [withEntry_self] at hk' hinum
          exact hother hk' k ⟨hk, hinum⟩
        · rw [withEntry_of_ne hkip'] at hk' hinum
          exact h.unique k k' hk hk' hinum
  case synced =>
      intro k hk hvalid
      by_cases hkip : k = ip
      · subst hkip
        rw [withEntry_self] at hk hvalid ⊢
        exact hsynced hk hvalid
      · rw [withEntry_of_ne hkip] at hk hvalid ⊢
        exact h.synced k hk hvalid

theorem TableOk.sameInode (h : TableOk sb s) (hat : At s ip inum) (hinum : e.ip.inum = inum)
    (hsynced : e.valid = true → e.ip = inodeOn sb s.store.view inum) :
    TableOk sb (Code.withEntry s ip e) := by
  apply h.withEntry
  · intro _ k hk
    exact h.unique k ip hk.ref hat.ref (hk.inum.trans (hinum.trans hat.inum.symm))
  · intro _ hvalid
    rw [hinum]
    exact hsynced hvalid

theorem refs_sameInode (hat : At s ip inum) (hinum : e.ip.inum = inum) (j : Nat) :
    refs (withEntry s ip e) j + (if inum = j then (s.itable ip).ref else 0) =
      refs s j + if inum = j then e.ref else 0 := by
  have h := refs_withEntry s ip e j
  rw [Entry.refsTo, Entry.refsTo, hat.inum, hinum] at h
  exact h

theorem refs_withRef (hat : At s ip inum) (n j : Nat) :
    refs (withEntry s ip ((s.itable ip).withRef n)) j +
      (if inum = j then (s.itable ip).ref else 0) = refs s j + if inum = j then n else 0 :=
  refs_sameInode (e := (s.itable ip).withRef n) hat hat.inum j

theorem TableOk.inode (h : TableOk sb s) (hat : At s ip inum)
    (hvalid : (s.itable ip).valid = true) :
    (s.itable ip).ip = inodeOn sb s.store.view inum := by
  rw [← hat.inum]
  exact h.synced ip hat.ref hvalid

theorem WithRefs.reference (h : WithRefs sb s t held) (hat : At t ip inum) :
    WithRefs sb s (withEntry t ip ((t.itable ip).withRef ((t.itable ip).ref + 1)))
      (inum :: held) := by
  constructor
  case view => exact h.view
  case log => exact h.log
  case table => exact h.table.sameInode hat hat.inum fun hvalid => h.table.inode hat hvalid
  case refs =>
      intro j
      have hrefs := refs_withRef hat ((t.itable ip).ref + 1) j
      rw [h.refs j] at hrefs
      rw [List.count_cons]
      simp only [beq_iff_eq]
      split_ifs at hrefs ⊢ <;> omega

theorem WithRefs.recycle (h : WithRefs sb s t held) (hfree : (t.itable ip).ref = 0)
    (hnew : ∀ k, ¬ At t k inum) (href : e.ref = 1) (hvalid : e.valid = false)
    (hinum : e.ip.inum = inum) : WithRefs sb s (withEntry t ip e) (inum :: held) := by
  constructor
  case view => exact h.view
  case log => exact h.log
  case table =>
      apply h.table.withEntry
      · intro _ k hk
        rw [hinum] at hk
        exact absurd hk (hnew k)
      · intro _ htrue
        rw [hvalid] at htrue
        cases htrue
  case refs =>
      intro j
      have hrefs := refs_withEntry t ip e j
      rw [h.refs j, Entry.refsTo, Entry.refsTo, hfree, href, hinum] at hrefs
      rw [List.count_cons]
      simp only [beq_iff_eq]
      split_ifs at hrefs ⊢ <;> omega

theorem WithRefs.drop (h : WithRefs sb s t (inum :: held)) (hat : At t ip inum) :
    WithRefs sb s (withEntry t ip ((t.itable ip).withRef ((t.itable ip).ref - 1))) held := by
  have hpos := hat.ref
  constructor
  case view => exact h.view
  case log => exact h.log
  case table => exact h.table.sameInode hat hat.inum fun hvalid => h.table.inode hat hvalid
  case refs =>
      intro j
      have hrefs := refs_withRef hat ((t.itable ip).ref - 1) j
      rw [h.refs j, List.count_cons] at hrefs
      simp only [beq_iff_eq] at hrefs
      split_ifs at hrefs <;> omega

theorem WithRefs.load (h : WithRefs sb s t held) (hat : At t ip inum)
    (href : e.ref = (t.itable ip).ref) (he : e.ip = inodeOn sb t.store.view inum) :
    WithRefs sb s (withEntry t ip e) held := by
  have hinum : e.ip.inum = inum := by
    rw [he]
    rfl
  constructor
  case view => exact h.view
  case log => exact h.log
  case table => exact h.table.sameInode hat hinum fun _ => he
  case refs =>
      intro j
      have hrefs := refs_sameInode hat hinum j
      rw [href] at hrefs
      rw [← h.refs j]
      omega

theorem WithRefs.store (h : WithRefs sb s t held) {store : Store}
    (hview : store.view = t.store.view) (hlog : store.log = t.store.log) :
    WithRefs sb s { t with store := store } held := by
  constructor
  case view => exact hview.trans h.view
  case log => exact hlog.trans h.log
  case table =>
      constructor
      case unique => exact h.table.unique
      case synced =>
          change ∀ k, 0 < (t.itable k).ref → (t.itable k).valid = true →
            (t.itable k).ip = inodeOn sb store.view (t.itable k).ip.inum
          rw [hview]
          exact h.table.synced
  case refs => exact h.refs

theorem WithRefs.refl (h : TableOk sb s) : WithRefs sb s s [] where
  view := rfl
  log := rfl
  table := h
  refs := fun inum => by rw [List.count_nil, Nat.add_zero]

theorem WithRefs.swap (h : WithRefs sb s t [i, j]) : WithRefs sb s t [j, i] where
  view := h.view
  log := h.log
  table := h.table
  refs := fun inum => by rw [h.refs, (List.Perm.swap j i []).count_eq]

theorem WithRefs.live (h : WithRefs sb s t held) (hlive : Live sb s inum) : Live sb t inum := by
  rw [Live, h.view, h.refs]
  exact ⟨hlive.1, hlive.2.imp_right fun hpos => Nat.add_pos_left hpos _⟩

/-! ### How the functions run -/

theorem get_run : (get : NamexM NamexState) t = .ok (t, t) := rfl

theorem entry_run : Itable.entry ip t = .ok (t.itable ip, t) := rfl

theorem setEntry_ptr : Itable.setEntry ip e t = .ok ((), withEntry t ip e) := rfl

theorem Looks.onItable {α : Type} {p : FsProg α} {a : α} (hp : Looks p t.store.view a)
    (h : WithRefs sb s t held) :
    ∃ store, Itable.onStore p t = .ok (a, { t with store := store }) ∧
      store.view = t.store.view ∧ WithRefs sb s { t with store := store } held := by
  obtain ⟨_, _, _, ⟨rfl, rfl, rfl⟩, hruns⟩ := hp.runs rfl
  cases hruns with
  | inl hok =>
      obtain ⟨-, store, hrun, hview, hlog⟩ := hok
      refine ⟨store, ?_, hview, h.store hview hlog⟩
      rw [Itable.onStore, hrun]
      rfl
  | inr hpanic => exact absurd trivial hpanic.1

theorem idup_run (h : WithRefs sb s t held) (hat : At t ip inum) :
    ∃ u, Itable.idup ip t = .ok (ip, u) ∧ WithRefs sb s u (inum :: held) ∧ At u ip inum :=
  ⟨_, rfl, h.reference hat, at_withEntry.mpr ⟨Nat.succ_pos _, hat.inum⟩⟩

theorem findInode_some (h : Itable.findInode t inum = some ip) : At t ip inum := by
  have hfound := List.find?_some h
  simp only [decide_eq_true_eq] at hfound
  exact ⟨hfound.1, hfound.2⟩

theorem findInode_none (h : Itable.findInode t inum = none) (ip : InodePtr) : ¬ At t ip inum := by
  intro hat
  have hnot := List.find?_eq_none.mp h ip (List.mem_finRange ip)
  simp only [decide_eq_true_eq] at hnot
  exact hnot ⟨hat.ref, hat.inum⟩

theorem iget_holds (h : WithRefs sb s t held) (inum : Nat) :
    Ensures (fun e => e = .igetNoInodes ∧ ninode ≤ (inTable s).card + held.length)
      (Itable.iget inum) t fun ip u => At u ip inum ∧ WithRefs sb s u (inum :: held) ∧
        ∀ k j, At t k j → At u k j := by
  cases hfind : Itable.findInode t inum with
  | some ip =>
      have hat := findInode_some hfind
      have hrun : Itable.iget inum t = .ok (ip, withEntry t ip
          ((t.itable ip).withRef ((t.itable ip).ref + 1))) := by
        rw [Itable.iget, Total.run_bind get_run, hfind]
        rfl
      apply Ensures.of_eq hrun
      refine ⟨at_withEntry.mpr ⟨Nat.succ_pos _, hat.inum⟩, h.reference hat, ?_⟩
      intro k j hk
      by_cases hkip : k = ip
      · subst hkip
        exact at_withEntry.mpr ⟨Nat.succ_pos _, hk.inum⟩
      · exact hk.of_ne hkip _
  | none =>
      have hnew := findInode_none hfind
      cases hempty : Itable.findEmpty t with
      | some ip =>
          have hfree : (t.itable ip).ref = 0 := by
            simpa using List.find?_some hempty
          have hrun : Itable.iget inum t = .ok (ip, withEntry t ip
              { ref := 1, valid := false, ip := { (t.itable ip).ip with inum := inum } }) := by
            rw [Itable.iget, Total.run_bind get_run, hfind, hempty]
            rfl
          apply Ensures.of_eq hrun
          refine ⟨at_withEntry.mpr ⟨Nat.one_pos, rfl⟩, h.recycle hfree hnew rfl rfl rfl, ?_⟩
          intro k j hk
          apply hk.of_ne
          rintro rfl
          exact absurd hk.ref (by omega)
      | none =>
          have hrun : Itable.iget inum t = .error .igetNoInodes := by
            rw [Itable.iget, Total.run_bind get_run, hfind, hempty]
            rfl
          apply Ensures.of_error hrun
          refine ⟨rfl, ?_⟩
          have hfull : ∀ ip, (t.itable ip).ref ≠ 0 := by
            intro ip
            simpa using List.find?_eq_none.mp hempty ip (List.mem_finRange ip)
          have hsub : inTable t ⊆ inTable s ∪ held.toFinset := by
            intro j hj
            rw [mem_inTable, h.refs] at hj
            rw [Finset.mem_union, mem_inTable, List.mem_toFinset, ← List.count_pos_iff]
            omega
          calc ninode = (inTable t).card := (h.table.card hfull).symm
            _ ≤ (inTable s ∪ held.toFinset).card := Finset.card_le_card hsub
            _ ≤ (inTable s).card + held.toFinset.card := Finset.card_union_le _ _
            _ ≤ (inTable s).card + held.length :=
                Nat.add_le_add_left (List.toFinset_card_le held) _

theorem ilock_holds (h : WithRefs sb s t held) (hat : At t ip inum)
    (htype : (sb.dinodeAt t.store.view inum).type ≠ 0) :
    ∃ u, Itable.ilock sb ip t = .ok ((), u) ∧ WithRefs sb s u held ∧ At u ip inum ∧
      (u.itable ip).ip = inodeOn sb s.store.view inum := by
  have hpos := hat.ref
  have href : ¬ (t.itable ip).ref < 1 := by omega
  rw [Itable.ilock, Total.run_bind entry_run, if_neg href]
  cases hvalid : (t.itable ip).valid with
  | true =>
      refine ⟨t, rfl, h, hat, ?_⟩
      rw [← h.view]
      exact h.table.inode hat hvalid
  | false =>
      have hread : Looks (readInode sb (t.itable ip).ip.inum) t.store.view
          (inodeOn sb t.store.view inum) := by
        rw [hat.inum]
        exact readInode_looks htype
      obtain ⟨store, hrun, hview, hstore⟩ := hread.onItable h
      have hat' : At { t with store := store } ip inum := ⟨hat.ref, hat.inum⟩
      have hinode : inodeOn sb t.store.view inum = inodeOn sb store.view inum := by rw [hview]
      refine ⟨withEntry { t with store := store } ip
        ⟨(t.itable ip).ref, true, inodeOn sb t.store.view inum⟩, Total.run_bind hrun,
        hstore.load hat' rfl hinode, at_withEntry.mpr ⟨hat.ref, rfl⟩, ?_⟩
      rw [withEntry_self, h.view]

/-- `iput` of an inode that stays alive: nothing is freed. -/
theorem iput_holds (h : WithRefs sb s t (inum :: held)) (hat : At t ip inum)
    (hlive : Live sb s inum) :
    ∃ u, Itable.iput sb ip t = .ok ((), u) ∧ WithRefs sb s u held ∧
      ∀ k j, At t k j → 0 < refs u j → At u k j := by
  have hkeep : ¬ ((t.itable ip).ref = 1 ∧ (t.itable ip).valid = true ∧
      (t.itable ip).ip.nlink = 0) := by
    rintro ⟨hone, hvalid, hnlink⟩
    have hrefs := refs_of_at h.table hat
    rw [h.refs, List.count_cons_self] at hrefs
    rw [h.table.inode hat hvalid, inodeOn, h.view] at hnlink
    have hlinks := hlive.2.resolve_left (not_not_intro hnlink)
    omega
  have hdrop := h.drop hat
  refine ⟨_, ?_, hdrop, ?_⟩
  · rw [Itable.iput, Total.run_bind entry_run, if_neg hkeep]
    rfl
  · intro k j hk hpos
    by_cases hkip : k = ip
    · subst hkip
      obtain ⟨k', hk'⟩ := refs_pos_iff.mp hpos
      have hsame : k' = k := by
        by_contra hne
        have hold : At t k' j := by
          rw [at_iff, withEntry_of_ne hne] at hk'
          exact at_iff.mpr hk'
        exact hne (h.table.unique k' k hold.ref hk.ref (hold.inum.trans hk.inum.symm))
      rw [hsame] at hk'
      exact hk'
    · exact hk.of_ne hkip _

end

end SyscallSched.Xv6.Fs.Code
