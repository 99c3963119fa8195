import SyscallSched.Xv6.Fs.Dirents

/-!
# `dirlookup` and `dirlink` (`fs.c`, `sysfile.c`)

Both work on a directory that the caller has locked.  Where an entry is found there is
also a reference to its inode, which `dirlink` gives back.  Of `sys_unlink` there is the
part that clears the entry that `dirlookup` found.
-/

namespace SyscallSched.Xv6.Fs.Code

open SyscallSched.Foundation SyscallSched.Xv6.Fs SlotMap

inductive DirError where
  | fs (e : FsError)
  | lookup (p : DirPanic)
  | linkRead
  | unlinkWritei
  deriving DecidableEq, Repr

abbrev DirM := StateT FsState (Except DirError)

namespace Dir

def onFs {α : Type} (x : FsM α) : DirM α := fun s => (x s).mapError .fs

variable (sb : Superblock)

/-- The inode number and the offset of the entry, with a reference to the inode. -/
def dirlookup (dp : Inode) (name : List Nat) : DirM (Inode × Option (Nat × Nat)) := do
  let r ← onFs (onStore (Code.dirlookup sb dp name))
  match r.2 with
  | .error p => throw (.lookup p)
  | .ok none => pure (r.1, none)
  | .ok (some found) => do
      onFs (iget found.1)
      pure (r.1, some found)

/-- `dirlink` once the name is not present. -/
def linkNew (dp : Inode) (name : List Nat) (inum : Nat) : DirM (Inode × Bool) := do
  let e ← onFs (onStore
    (emptyFrom sb ((dp.size + (direntSize - 1)) / direntSize) 0 dp))
  match e.2 with
  | none => throw .linkRead
  | some off => do
      let w ← onFs (onStore
        (writei sb e.1 (Source.ofBytes (linkDirent name inum).bytes) off direntSize))
      pure (w.1, decide (w.2 = some direntSize))

/-- Return value 0 is `true`, and -1 `false`. -/
def dirlink (dp : Inode) (name : List Nat) (inum : Nat) : DirM (Inode × Bool) := do
  let r ← dirlookup sb dp name
  match r.2 with
  | some found => do
      onFs (iput sb found.1)
      pure (r.1, false)
  | none => linkNew sb r.1 name inum

/-- `memset(&de, 0, sizeof(de))` and the `writei` of `sys_unlink`. -/
def clearEntry (dp : Inode) (off : Nat) : DirM Inode := do
  let w ← onFs (onStore (writei sb dp (Source.ofBytes unlinkDirent.bytes) off direntSize))
  if w.2 = some direntSize then pure w.1 else throw .unlinkWritei

/-- The part of `sys_unlink` that looks for the name and clears its entry. -/
def unlink (dp : Inode) (name : List Nat) : DirM (Inode × Bool) := do
  let r ← dirlookup sb dp name
  match r.2 with
  | none => pure (r.1, false)
  | some found => do
      let dp ← clearEntry sb r.1 found.2
      pure (dp, true)

end Dir

/-! ## The directory and the table of inodes -/

def inodeAt (sb : Superblock) (s : FsState) (inum : Nat) : Inode :=
  { sb.dinodeAt s.store.view inum with inum := inum }

def slotsAt (sb : Superblock) (s : FsState) (dnum : Nat) : Slots (List Nat) Nat :=
  slotsOf s.store.view (sb.dinodeAt s.store.view dnum)

/-- The inode `dnum` is a directory that the caller has locked. -/
structure DirOpen (sb : Superblock) (s : FsState) (dnum : Nat) : Prop where
  consistent : Consistent sb s
  /-- entries without references are left out of the table -/
  counted : ∀ inum e, s.inodes inum = some e → 0 < e.ref
  locked : ∃ e, s.inodes dnum = some e ∧ e.valid = true
  inum_lt : dnum < sb.ninodes
  file : DirFile s.store.view (inodeAt sb s dnum)
  distinct : Distinct (slotsAt sb s dnum)

/-- Only buffers differ that nobody uses. -/
structure SameState (s t : FsState) : Prop where
  view : t.store.view = s.store.view
  log : t.store.log = s.store.log
  inodes : t.inodes = s.inodes

def afterIget (s : FsState) (inum : Nat) : FsState :=
  { s with inodes := Function.update s.inodes inum (some (referenced inum (s.inodes inum))) }

def afterLookup (s : FsState) : Option (Nat × Nat) → FsState
  | none => s
  | some found => afterIget s found.1

def foundIn (sb : Superblock) (s : FsState) (dnum : Nat) (name : List Nat) :
    Option (Nat × Nat) :=
  (scan (name.take dirSiz) 0 (slotsAt sb s dnum)).map fun r => (r.1, r.2 * direntSize)

def withCopy (s : FsState) (dnum : Nat) (ip : Inode) : FsState :=
  { s with inodes := Function.update s.inodes dnum ((s.inodes dnum).map fun e => { e with ip }) }

section

variable {sb : Superblock} {s t u : FsState} {dnum inum i : Nat} {name bytes : List Nat}
  {α β : Type} {E : DirError → Prop}

theorem SameState.trans (h : SameState s t) (h' : SameState t u) : SameState s u :=
  ⟨h'.view.trans h.view, h'.log.trans h.log, h'.inodes.trans h.inodes⟩

theorem inodes_afterIget (s : FsState) (inum : Nat) : (afterIget s inum).inodes =
    Function.update s.inodes inum (some (referenced inum (s.inodes inum))) := rfl

theorem store_afterLookup (s : FsState) (found : Option (Nat × Nat)) :
    (afterLookup s found).store = s.store := by
  cases found with
  | none => rfl
  | some found => rfl

theorem inodeAt_congr (h : t.store.view = s.store.view) :
    inodeAt sb t dnum = inodeAt sb s dnum := by
  rw [inodeAt, inodeAt, h]

theorem slotsAt_congr (hsame : SameState s t) : slotsAt sb t dnum = slotsAt sb s dnum := by
  rw [slotsAt, slotsAt, hsame.view]

theorem Consistent.congr (h : Consistent sb s) (hsame : SameState s t) : Consistent sb t := by
  constructor
  case settled =>
      rw [hsame.view]
      exact h.settled
  case synced =>
      rw [TableSynced, hsame.view, hsame.inodes]
      exact h.synced
  case log =>
      rw [hsame.log]
      exact h.log

namespace DirOpen

theorem entry (h : DirOpen sb s dnum) :
    ∃ ref, s.inodes dnum = some ⟨ref, true, inodeAt sb s dnum⟩ := by
  obtain ⟨e, he, hvalid⟩ := h.locked
  obtain ⟨hinum, hsynced⟩ := h.consistent.synced dnum e he hvalid
  have hinode := (hsynced h.inum_lt).inode
  rw [hinum] at hinode
  refine ⟨e.ref, ?_⟩
  rw [he, inodeAt, hinode, ← hinum, ← hvalid]

theorem synced (h : DirOpen sb s dnum) : Synced sb s.store.view (inodeAt sb s dnum) := by
  obtain ⟨ref, he⟩ := h.entry
  exact (h.consistent.synced dnum _ he rfl).2 h.inum_lt

theorem congr (h : DirOpen sb s dnum) (hsame : SameState s t) : DirOpen sb t dnum := by
  have hinode : inodeAt sb t dnum = inodeAt sb s dnum := inodeAt_congr hsame.view
  constructor
  case consistent => exact h.consistent.congr hsame
  case counted =>
      rw [hsame.inodes]
      exact h.counted
  case locked =>
      rw [hsame.inodes]
      exact h.locked
  case inum_lt => exact h.inum_lt
  case file =>
      rw [hinode, hsame.view]
      exact h.file
  case distinct =>
      rw [slotsAt_congr hsame]
      exact h.distinct

theorem iget (h : DirOpen sb s dnum) (inum : Nat) :
    DirOpen sb (afterIget s inum) dnum := by
  constructor
  case consistent => exact (iget_ensures h.consistent inum).post () _ rfl
  case counted =>
      intro i e he
      by_cases hi : i = inum
      · subst hi
        rw [inodes_afterIget, Function.update_self] at he
        cases he
        cases s.inodes i with
        | none => exact Nat.one_pos
        | some e => exact Nat.succ_pos e.ref
      · rw [inodes_afterIget, Function.update_of_ne hi] at he
        exact h.counted i e he
  case locked =>
      obtain ⟨e, he, hvalid⟩ := h.locked
      by_cases hi : dnum = inum
      · subst hi
        refine ⟨_, Function.update_self _ _ _, ?_⟩
        rw [he]
        exact hvalid
      · exact ⟨e, by rw [inodes_afterIget, Function.update_of_ne hi, he], hvalid⟩
  case inum_lt => exact h.inum_lt
  case file => exact h.file
  case distinct => exact h.distinct

theorem afterLookup (h : DirOpen sb s dnum) (found : Option (Nat × Nat)) :
    DirOpen sb (Code.afterLookup s found) dnum := by
  cases found with
  | none => exact h
  | some found => exact h.iget found.1

end DirOpen

/-! ## How the functions run -/

theorem onFs_run {x : FsM α} {a : α} (h : x s = .ok (a, t)) : Dir.onFs x s = .ok (a, t) := by
  rw [Dir.onFs, h]
  rfl

theorem onFs_ensures {E' : FsError → Prop} {x : FsM α} {Q : α → FsState → Prop}
    (h : Ensures E' x s Q) (hE : ∀ e, E' e → E (.fs e)) : Ensures E (Dir.onFs x) s Q := by
  cases hx : x s with
  | error e =>
      have herr : Dir.onFs x s = .error (.fs e) := by
        rw [Dir.onFs, hx]
        rfl
      exact Ensures.of_error herr (hE e (h.error e hx))
  | ok r => exact Ensures.of_eq (onFs_run hx) (h.post r.1 r.2 hx)

theorem Looks.run {p : FsProg α} {a : α} (h : Looks p s.store.view a) :
    ∃ t, Dir.onFs (onStore p) s = .ok (a, t) ∧ SameState s t := by
  obtain ⟨_, _, _, ⟨rfl, rfl, rfl⟩, hruns⟩ := h.runs rfl
  cases hruns with
  | inl hok =>
      obtain ⟨-, store, hrun, hview, hlog⟩ := hok
      refine ⟨{ s with store := store }, onFs_run ?_, hview, hlog, rfl⟩
      rw [onStore, hrun]
      rfl
  | inr hpanic => exact absurd trivial hpanic.1

/-- What `dirlookup` leaves: the directory is as it was, and the inode that was found
has one more reference. -/
structure LookedUp (sb : Superblock) (s : FsState) (dnum : Nat) (name : List Nat)
    (t : FsState) : Prop where
  isOpen : DirOpen sb t dnum
  state : SameState (afterLookup s (foundIn sb s dnum name)) t
  view : t.store.view = s.store.view
  log : t.store.log = s.store.log

theorem dirlookup_run (h : DirOpen sb s dnum) (hname : 0 ∉ name) :
    ∃ t, Dir.dirlookup sb (inodeAt sb s dnum) name s =
        .ok ((inodeAt sb s dnum, foundIn sb s dnum name), t) ∧ LookedUp sb s dnum name t := by
  have hlooks : Looks (Code.dirlookup sb (inodeAt sb s dnum) name) s.store.view
      (inodeAt sb s dnum, .ok (foundIn sb s dnum name)) := dirlookup_scans h.file hname
  obtain ⟨t, hrun, hsame⟩ := hlooks.run
  have hlooked : ∀ u, SameState (afterLookup s (foundIn sb s dnum name)) u →
      LookedUp sb s dnum name u := by
    intro u hu
    have hview := hu.view
    have hlog := hu.log
    rw [store_afterLookup] at hview hlog
    exact ⟨(h.afterLookup _).congr hu, hu, hview, hlog⟩
  rw [Dir.dirlookup, Total.run_bind hrun]
  cases hfound : foundIn sb s dnum name with
  | none =>
      rw [hfound] at hlooked
      exact ⟨t, rfl, hlooked t hsame⟩
  | some found =>
      rw [hfound] at hlooked
      refine ⟨afterIget t found.1, rfl, hlooked _ ⟨hsame.view, hsame.log, ?_⟩⟩
      rw [inodes_afterIget, hsame.inodes]
      rfl

/-- `iput` takes back what `iget` did: the inode has other references, or it was not
valid. -/
theorem iput_afterIget (hcounted : ∀ e, s.inodes inum = some e → 0 < e.ref)
    (hsame : SameState (afterIget s inum) t) :
    iput sb inum t = .ok ((), { t with inodes := s.inodes }) := by
  have hentry : t.inodes inum = some (referenced inum (s.inodes inum)) := by
    rw [hsame.inodes, inodes_afterIget, Function.update_self]
  have hrun : entryOf inum t = .ok (referenced inum (s.inodes inum), t) := by
    rw [entryOf, hentry]
  have hback : ∀ o, o = s.inodes inum → Function.update t.inodes inum o = s.inodes := by
    intro o ho
    rw [hsame.inodes, inodes_afterIget, Function.update_idem, ho, Function.update_eq_self]
  rw [iput, Total.run_bind hrun]
  cases hold : s.inodes inum with
  | none =>
      have hcond : ¬ ((referenced inum none).ref = 1 ∧ (referenced inum none).valid = true ∧
          (referenced inum none).ip.nlink = 0) := fun hcond => Bool.false_ne_true hcond.2.1
      rw [if_neg hcond, setEntry_run, hback]
      exact hold.symm
  | some e =>
      have hpos := hcounted e hold
      have hcond : ¬ ((referenced inum (some e)).ref = 1 ∧
          (referenced inum (some e)).valid = true ∧ (referenced inum (some e)).ip.nlink = 0) := by
        intro hcond
        have hone : e.ref + 1 = 1 := hcond.1
        omega
      rw [if_neg hcond, setEntry_run, hback]
      have hmore : ¬ e.ref + 1 ≤ 1 := by omega
      rw [hold, referenced, dropRef, if_neg hmore]
      rfl

theorem writei_ensures (hl : sb.Laid) (h : DirOpen sb s dnum)
    (hi : i ≤ (slotsAt sb s dnum).length) (hb : bytes.length = direntSize) :
    Ensures (fun e => (∃ p, e = .log p) ∧ ¬ Log.HasRoom s.store.log)
      (onStore (writei sb (inodeAt sb s dnum) (Source.ofBytes bytes) (i * direntSize) direntSize))
      s fun r t => EntryWritten sb s.store.view (inodeAt sb s dnum) i bytes r t.store.view ∧
        LogBelow sb t.store.log ∧ t.inodes = s.inodes := by
  obtain ⟨r, v', bs, ⟨hwritten, hwrites, hcard⟩, hruns⟩ :=
    (writei_entry hl h.consistent.settled h.synced h.file hi hb).runs rfl
  cases hruns with
  | inl hok =>
      obtain ⟨htakes, store, hrun, hview, hlog⟩ := hok
      have honStore : onStore (writei sb (inodeAt sb s dnum) (Source.ofBytes bytes)
          (i * direntSize) direntSize) s = .ok (r, { s with store := store }) := by
        rw [onStore, hrun]
        rfl
      apply Ensures.of_eq honStore
      refine ⟨hview.symm ▸ hwritten, ?_, rfl⟩
      rw [hlog]
      exact (ownershipTerms_logs sb).absorbs h.consistent.log htakes hwrites
  | inr hpanic =>
      obtain ⟨htakes, p, hrun⟩ := hpanic
      have honStore : onStore (writei sb (inodeAt sb s dnum) (Source.ofBytes bytes)
          (i * direntSize) direntSize) s = .error (.log p) := by
        rw [onStore, hrun]
        rfl
      exact Ensures.of_error honStore ⟨⟨p, rfl⟩,
          fun hroom => htakes (Log.HasRoomFor.takes hroom hcard)⟩

theorem DirOpen.written {r : Inode × Option Nat} (h : DirOpen sb s dnum)
    (hw : EntryWritten sb s.store.view (inodeAt sb s dnum) i bytes r t.store.view)
    (hlog : LogBelow sb t.store.log) (hinodes : t.inodes = s.inodes)
    (hd : Distinct (slotsOf t.store.view r.1.toDinode)) :
    DirOpen sb (withCopy t dnum r.1) dnum ∧
      slotsAt sb (withCopy t dnum r.1) dnum = slotsOf t.store.view r.1.toDinode := by
  obtain ⟨ref, he⟩ := h.entry
  have hinode : sb.dinodeAt t.store.view dnum = r.1.toDinode := hw.updated.inode
  have hinum : r.1.inum = dnum := hw.updated.inum
  have hcopy : inodeAt sb (withCopy t dnum r.1) dnum = r.1 := by
    change { sb.dinodeAt t.store.view dnum with inum := dnum } = r.1
    rw [hinode, ← hinum]
  have hslots : slotsAt sb (withCopy t dnum r.1) dnum = slotsOf t.store.view r.1.toDinode := by
    change slotsOf t.store.view (sb.dinodeAt t.store.view dnum) = _
    rw [hinode]
  have htable : (withCopy t dnum r.1).inodes =
      Function.update s.inodes dnum (some ⟨ref, true, r.1⟩) := by
    rw [withCopy, hinodes, he]
    rfl
  refine ⟨?_, hslots⟩
  constructor
  case consistent =>
      have hreplaced : Consistent sb ⟨t.store, Function.update s.inodes (inodeAt sb s dnum).inum
          (some ⟨ref, true, r.1⟩)⟩ := by
        apply h.consistent.replace hw.updated hlog
        intro e he' _
        cases he'
        refine ⟨rfl, ?_⟩
        rw [hw.file.type]
        decide
      exact hreplaced.congr ⟨rfl, rfl, htable⟩
  case counted =>
      intro inum e hentry
      rw [htable] at hentry
      by_cases hsame : inum = dnum
      · subst hsame
        rw [Function.update_self] at hentry
        cases hentry
        have hpos : 0 < ref := h.counted inum _ he
        exact hpos
      · rw [Function.update_of_ne hsame] at hentry
        exact h.counted inum e hentry
  case locked => exact ⟨_, by rw [htable, Function.update_self], rfl⟩
  case inum_lt => exact h.inum_lt
  case file =>
      rw [hcopy]
      exact hw.file
  case distinct =>
      rw [hslots]
      exact hd

end

end SyscallSched.Xv6.Fs.Code
