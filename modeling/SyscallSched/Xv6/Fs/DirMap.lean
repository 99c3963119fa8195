import SyscallSched.Xv6.Fs.Dirlink

/-!
# A directory is a finite map (`fs.c`, `sysfile.c`)

Calls on one directory that stays locked, in any order, with operations of the log
around them.  The directory maps names, cut off at `DIRSIZ` bytes, to inode numbers;
every call does to this map what its name says.
-/

namespace SyscallSched.Xv6.Fs.Code

open SyscallSched.Foundation SyscallSched.Xv6.Fs SlotMap

/-! ## Calls -/

/-- A string without its 0. -/
abbrev CString := { name : List Nat // 0 ∉ name }

/-- The inode number of an entry in use. -/
abbrev EntryInum := { inum : Nat // inum ≠ 0 ∧ inum < 2 ^ 16 }

inductive DirCall where
  | beginOp
  | endOp
  | lookup (name : CString)
  | link (name : CString) (inum : EntryInum)
  | unlink (name : CString)

inductive DirAnswer where
  | done
  | found (inum : Option Nat)
  | linked (ok : Bool)
  | unlinked (ok : Bool)
  deriving DecidableEq

namespace Dir

variable (sb : Superblock) (dnum : Nat)

def onDir {α : Type} (f : Inode → DirM (Inode × α)) : DirM α := do
  let e ← onFs (entryOf dnum)
  let r ← f e.ip
  modify fun s => withCopy s dnum r.1
  pure r.2

def perform : DirCall → DirM DirAnswer
  | .beginOp => do
      let _ ← onFs (onLog beginOp)
      pure .done
  | .endOp => do
      onFs endTransaction
      pure .done
  | .lookup name => do
      let r ← onDir dnum fun dp => dirlookup sb dp name
      pure (.found (r.map fun found => found.1))
  | .link name inum => do
      let ok ← onDir dnum fun dp => dirlink sb dp name inum
      pure (.linked ok)
  | .unlink name => do
      let ok ← onDir dnum fun dp => unlink sb dp name
      pure (.unlinked ok)

def performAll : List DirCall → DirM (List DirAnswer)
  | [] => pure []
  | c :: cs => do
      let a ← perform sb dnum c
      let as ← performAll cs
      pure (a :: as)

end Dir

/-! ## What the calls do -/

/-- The part of a name that is compared and stored. -/
def keyOf (name : CString) : List Nat := name.val.take dirSiz

abbrev DirMap := List Nat → Option Nat

def dirMap (sb : Superblock) (s : FsState) (dnum : Nat) : DirMap := toMap (slotsAt sb s dnum)

/-- The calls on a map from names to inode numbers.  Where a name is not bound,
`dirlink` may also fail. -/
def MapStep (m : DirMap) : DirCall → DirAnswer → DirMap → Prop
  | .beginOp, a, m' => a = .done ∧ m' = m
  | .endOp, a, m' => a = .done ∧ m' = m
  | .lookup name, a, m' => a = .found (m (keyOf name)) ∧ m' = m
  | .link name inum, a, m' =>
      (m (keyOf name) = none ∧ a = .linked true ∧
        m' = Function.update m (keyOf name) (some inum.val)) ∨ (a = .linked false ∧ m' = m)
  | .unlink name, a, m' =>
      a = .unlinked (m (keyOf name)).isSome ∧ m' = Function.update m (keyOf name) none

def MapRun (m : DirMap) : List DirCall → List DirAnswer → DirMap → Prop
  | [], [], m' => m' = m
  | c :: cs, a :: as, m' => ∃ m₁, MapStep m c a m₁ ∧ MapRun m₁ cs as m'
  | _, _, _ => False

structure LinkStep (sb : Superblock) (dnum : Nat) (s : FsState) (name : CString)
    (inum : Nat) (ok : Bool) (t : FsState) : Prop where
  bound : dirMap sb s dnum (keyOf name) ≠ none → ok = false ∧ SameState s t
  /-- a free entry is used before the directory grows -/
  linked : ok = true → slotsAt sb t dnum =
    put (slotsAt sb s dnum) (freeSlot (slotsAt sb s dnum)) (some (keyOf name, inum))
  failed : ok = false → slotsAt sb t dnum = slotsAt sb s dnum
  refused : dirMap sb s dnum (keyOf name) = none → ok = false →
    freeSlot (slotsAt sb s dnum) = (slotsAt sb s dnum).length ∧
      (maxFile * bsize < (sb.dinodeAt s.store.view dnum).size + direntSize ∨
        Full sb t.store.view)

def DirStep (sb : Superblock) (dnum : Nat) (s : FsState) :
    DirCall → DirAnswer → FsState → Prop
  | .beginOp, a, t => a = .done ∧ slotsAt sb t dnum = slotsAt sb s dnum
  | .endOp, a, t => a = .done ∧ slotsAt sb t dnum = slotsAt sb s dnum
  | .lookup name, a, t =>
      a = .found (dirMap sb s dnum (keyOf name)) ∧
        SameState (afterLookup s (foundIn sb s dnum name)) t
  | .link name inum, a, t => ∃ ok, a = .linked ok ∧ LinkStep sb dnum s name inum ok t
  | .unlink name, a, t =>
      a = .unlinked (dirMap sb s dnum (keyOf name)).isSome ∧
        dirMap sb t dnum = Function.update (dirMap sb s dnum) (keyOf name) none ∧
        (slotsAt sb t dnum).length = (slotsAt sb s dnum).length

/-- The errors that a call may stop with. -/
def DirStops (s : FsState) : DirCall → DirError → Prop
  | .beginOp, _ => False
  | .endOp, e => e = .fs .noTransaction ∨ ∃ p, e = .fs (.log p)
  | .lookup _, _ => False
  | .link _ _, e => (∃ p, e = .fs (.log p)) ∧ ¬ Log.HasRoom s.store.log
  | .unlink _, e => (∃ p, e = .fs (.log p)) ∧ ¬ Log.HasRoom s.store.log

section

variable {sb : Superblock} {s t u : FsState} {dnum i : Nat} {name : CString}
  {α : Type} {E : DirError → Prop}

/-! ## One call -/

theorem freeSlot_le (slots : Slots (List Nat) Nat) : freeSlot slots ≤ slots.length :=
  List.findIdx_le_length

theorem map_foundIn :
    (foundIn sb s dnum name).map (fun found => found.1) = dirMap sb s dnum (keyOf name) := by
  rw [foundIn, Option.map_map, dirMap, ← map_scan (i := 0)]
  rfl

theorem withCopy_self (h : DirOpen sb t dnum) : withCopy t dnum (inodeAt sb t dnum) = t := by
  obtain ⟨ref, he⟩ := h.entry
  have htable : Function.update t.inodes dnum
      ((t.inodes dnum).map fun e => { e with ip := inodeAt sb t dnum }) = t.inodes := by
    rw [Function.update_eq_self_iff, he]
    rfl
  rw [withCopy, htable]

theorem onDir_ensures (h : DirOpen sb s dnum) {f : Inode → DirM (Inode × α)}
    {Q : α → FsState → Prop}
    (hf : Ensures E (f (inodeAt sb s dnum)) s fun r t => Q r.2 (withCopy t dnum r.1)) :
    Ensures E (Dir.onDir dnum f) s Q := by
  obtain ⟨ref, he⟩ := h.entry
  have hentry : entryOf dnum s = .ok (⟨ref, true, inodeAt sb s dnum⟩, s) := by
    rw [entryOf, he]
  rw [Dir.onDir]
  apply Ensures.bind_eq (onFs_run hentry)
  apply hf.bind
  intro r t hr
  exact Ensures.of_eq rfl hr

theorem lookup_ensures (h : DirOpen sb s dnum) :
    Ensures (fun _ => False) (Dir.perform sb dnum (.lookup name)) s fun a t =>
      DirOpen sb t dnum ∧ DirStep sb dnum s (.lookup name) a t := by
  obtain ⟨t, hrun, hlooked⟩ := dirlookup_run h name.property
  have hlookup : Ensures (fun _ => False) (Dir.onDir dnum fun dp => Dir.dirlookup sb dp name) s
      fun found u => found = foundIn sb s dnum name ∧ u = t := by
    apply onDir_ensures h
    apply Ensures.of_eq hrun
    refine ⟨rfl, ?_⟩
    rw [← inodeAt_congr hlooked.view]
    exact withCopy_self hlooked.isOpen
  rw [Dir.perform]
  apply hlookup.bind
  rintro found u ⟨rfl, rfl⟩
  apply Ensures.pure
  rw [map_foundIn]
  exact ⟨hlooked.isOpen, rfl, hlooked.state⟩

theorem linkNew_ensures (hl : sb.Laid) (h : DirOpen sb s dnum) (inum : EntryInum)
    (hnew : dirMap sb s dnum (keyOf name) = none) :
    Ensures (DirStops s (.link name inum)) (Dir.linkNew sb (inodeAt sb s dnum) name.val inum.val)
      s fun r t => DirOpen sb (withCopy t dnum r.1) dnum ∧
        LinkStep sb dnum s name inum.val r.2 (withCopy t dnum r.1) := by
  have hempty : Looks (emptyFrom sb (((inodeAt sb s dnum).size + (direntSize - 1)) / direntSize)
      0 (inodeAt sb s dnum)) s.store.view (inodeAt sb s dnum,
        some ((0 + freeSlot (slotsAt sb s dnum)) * direntSize)) :=
    emptyFrom_finds (i := 0) h.file h.file.count
  rw [Nat.zero_add] at hempty
  obtain ⟨u, hrun, hsame⟩ := hempty.run
  have hopen := h.congr hsame
  have hslots : slotsAt sb u dnum = slotsAt sb s dnum := slotsAt_congr hsame
  have hi : freeSlot (slotsAt sb s dnum) ≤ (slotsAt sb u dnum).length := by
    rw [hslots]
    exact freeSlot_le _
  have hslot : (getDirent (linkDirent name.val inum.val).bytes).slot =
      some (keyOf name, inum.val) := by
    rw [getDirent_dirent inum.property.2]
    exact slot_linkDirent name.property inum.property.1
  rw [Dir.linkNew]
  apply Ensures.bind_eq hrun
  rw [← inodeAt_congr hsame.view]
  have hwrite := writei_ensures hl hopen hi (length_linkDirent name.val inum.val)
  have hstops : ∀ e, (∃ p, e = FsError.log p) ∧ ¬ Log.HasRoom u.store.log →
      DirStops s (.link name inum) (.fs e) := by
    rintro e ⟨⟨p, rfl⟩, hroom⟩
    rw [hsame.log] at hroom
    exact ⟨⟨p, rfl⟩, hroom⟩
  apply (onFs_ensures hwrite hstops).bind
  rintro w t ⟨hw, hlog, hinodes⟩
  apply Ensures.pure
  have hfree : ∀ x, (slotsAt sb s dnum)[freeSlot (slotsAt sb s dnum)]? = some x → x = none :=
    fun _ hx => eq_none_of_freeSlot hx
  cases hw.outcome with
  | inl hdone =>
      obtain ⟨hall, hput⟩ := hdone
      have hplaced : slotsOf t.store.view w.1.toDinode = put (slotsAt sb s dnum)
          (freeSlot (slotsAt sb s dnum)) (some (keyOf name, inum.val)) := by
        rw [hput, hslot]
        change put (slotsAt sb u dnum) _ _ = _
        rw [hslots]
      have hdistinct : Distinct (slotsOf t.store.view w.1.toDinode) := by
        rw [hplaced]
        exact distinct_put hfree h.distinct hnew
      obtain ⟨hopen', hslots'⟩ := hopen.written hw hlog hinodes hdistinct
      have hok : decide (w.2 = some direntSize) = true := decide_eq_true hall
      refine ⟨hopen', ?_⟩
      rw [hok]
      constructor
      case bound => exact fun hbound => absurd hnew hbound
      case linked => exact fun _ => hslots'.trans hplaced
      case failed => exact fun hfalse => absurd hfalse.symm Bool.false_ne_true
      case refused => exact fun _ hfalse => absurd hfalse.symm Bool.false_ne_true
  | inr hfail =>
      obtain ⟨hshort, hkept, hend, hwhy⟩ := hfail
      have hsame' : slotsOf t.store.view w.1.toDinode = slotsAt sb s dnum := hkept.trans hslots
      have hdistinct : Distinct (slotsOf t.store.view w.1.toDinode) := by
        rw [hsame']
        exact h.distinct
      obtain ⟨hopen', hslots'⟩ := hopen.written hw hlog hinodes hdistinct
      have hok : decide (w.2 = some direntSize) = false := decide_eq_false hshort
      refine ⟨hopen', ?_⟩
      rw [hok]
      constructor
      case bound => exact fun hbound => absurd hnew hbound
      case linked => exact fun htrue => absurd htrue Bool.false_ne_true
      case failed => exact fun _ => hslots'.trans hsame'
      case refused =>
          intro _ _
          refine ⟨hend.trans (congrArg List.length hslots), ?_⟩
          rw [inodeAt_congr hsame.view] at hwhy
          exact hwhy

theorem dirMap_congr (hsame : SameState s t) : dirMap sb t dnum = dirMap sb s dnum := by
  rw [dirMap, dirMap, slotsAt_congr hsame]

theorem LinkStep.congr {inum : Nat} {ok : Bool} (hsame : SameState s t)
    (h : LinkStep sb dnum t name inum ok u) : LinkStep sb dnum s name inum ok u := by
  have hslots : slotsAt sb t dnum = slotsAt sb s dnum := slotsAt_congr hsame
  have hmap : dirMap sb t dnum = dirMap sb s dnum := dirMap_congr hsame
  constructor
  case bound =>
      rw [← hmap]
      exact fun hbound => (h.bound hbound).imp_right hsame.trans
  case linked =>
      rw [← hslots]
      exact h.linked
  case failed =>
      rw [← hslots]
      exact h.failed
  case refused =>
      rw [← hmap, ← hslots, ← hsame.view]
      exact h.refused

theorem foundIn_eq_none_iff :
    foundIn sb s dnum name = none ↔ dirMap sb s dnum (keyOf name) = none := by
  rw [← map_foundIn, Option.map_eq_none_iff]

/-- A name that is found is in a slot, and `dirlookup` reports its offset. -/
theorem foundIn_some {found : Nat × Nat} (h : foundIn sb s dnum name = some found) :
    ∃ j, scan (keyOf name) 0 (slotsAt sb s dnum) = some (found.1, j) ∧
      found.2 = j * direntSize ∧ j < (slotsAt sb s dnum).length := by
  obtain ⟨r, hscan, rfl⟩ := Option.map_eq_some_iff.mp h
  obtain ⟨a, c, hslots, hj⟩ := scan_some hscan
  refine ⟨r.2, hscan, rfl, ?_⟩
  rw [hslots, hj, List.length_append, List.length_cons]
  omega

theorem link_bound (h : DirOpen sb s dnum) (inum : EntryInum) {found : Nat × Nat}
    (hfound : foundIn sb s dnum name = some found) :
    ∃ t, Dir.dirlink sb (inodeAt sb s dnum) name.val inum.val s =
      .ok ((inodeAt sb s dnum, false), t) ∧ SameState s t := by
  obtain ⟨t, hrun, hlooked⟩ := dirlookup_run h name.property
  have hsame := hlooked.state
  rw [hfound] at hrun hsame
  have hiput : iput sb found.1 t = .ok ((), { t with inodes := s.inodes }) :=
    iput_afterIget (fun e he => h.counted found.1 e he) hsame
  refine ⟨{ t with inodes := s.inodes }, ?_, hsame.view, hsame.log, rfl⟩
  rw [Dir.dirlink, Total.run_bind hrun]
  exact Total.run_bind (onFs_run hiput)

theorem link_ensures (hl : sb.Laid) (h : DirOpen sb s dnum) (inum : EntryInum) :
    Ensures (DirStops s (.link name inum)) (Dir.perform sb dnum (.link name inum)) s fun a t =>
      DirOpen sb t dnum ∧ DirStep sb dnum s (.link name inum) a t := by
  have hlink : Ensures (DirStops s (.link name inum))
      (Dir.onDir dnum fun dp => Dir.dirlink sb dp name.val inum.val) s
      fun ok t => DirOpen sb t dnum ∧ LinkStep sb dnum s name inum.val ok t := by
    apply onDir_ensures h
    cases hfound : foundIn sb s dnum name with
    | some found =>
        obtain ⟨t, hrun, hsame⟩ := link_bound h inum hfound
        have hopen := h.congr hsame
        apply Ensures.of_eq hrun
        rw [← inodeAt_congr hsame.view, withCopy_self hopen]
        refine ⟨hopen, ?_⟩
        constructor
        case bound => exact fun _ => ⟨rfl, hsame⟩
        case linked => exact fun htrue => absurd htrue Bool.false_ne_true
        case failed => exact fun _ => slotsAt_congr hsame
        case refused =>
            intro hnone _
            rw [← foundIn_eq_none_iff, hfound] at hnone
            cases hnone
    | none =>
        obtain ⟨t, hrun, hlooked⟩ := dirlookup_run h name.property
        have hstate := hlooked.state
        rw [hfound] at hrun hstate
        have hsame : SameState s t := hstate
        rw [Dir.dirlink]
        apply Ensures.bind_eq hrun
        have hnone := foundIn_eq_none_iff.mp hfound
        rw [← dirMap_congr hsame] at hnone
        have hnew := linkNew_ensures hl (h.congr hsame) inum hnone
        rw [inodeAt_congr hsame.view] at hnew
        apply hnew.mono
        · intro e he
          rw [DirStops, hsame.log] at he
          exact he
        · intro r u hr
          exact ⟨hr.1, hr.2.congr hsame⟩
  rw [Dir.perform]
  apply hlink.bind
  rintro ok t ⟨hopen, hstep⟩
  exact Ensures.pure ⟨hopen, ok, rfl, hstep⟩

theorem clearEntry_ensures (hl : sb.Laid) (h : DirOpen sb s dnum) {inum j : Nat}
    (hscan : scan (keyOf name) 0 (slotsAt sb s dnum) = some (inum, j))
    (hj : j < (slotsAt sb s dnum).length) :
    Ensures (DirStops s (.unlink name)) (Dir.clearEntry sb (inodeAt sb s dnum) (j * direntSize)) s
      fun dp t => DirOpen sb (withCopy t dnum dp) dnum ∧
        slotsAt sb (withCopy t dnum dp) dnum = put (slotsAt sb s dnum) j none := by
  have hlength : unlinkDirent.bytes.length = direntSize := by decide
  have hslot : (getDirent unlinkDirent.bytes).slot = none := by decide
  have hstops : ∀ e, (∃ p, e = FsError.log p) ∧ ¬ Log.HasRoom s.store.log →
      DirStops s (.unlink name) (.fs e) := by
    rintro e ⟨⟨p, rfl⟩, hroom⟩
    exact ⟨⟨p, rfl⟩, hroom⟩
  rw [Dir.clearEntry]
  apply (onFs_ensures (writei_ensures hl h (Nat.le_of_lt hj) hlength) hstops).bind
  rintro w t ⟨hw, hlog, hinodes⟩
  cases hw.outcome with
  | inl hdone =>
      obtain ⟨hall, hput⟩ := hdone
      have hcleared : slotsOf t.store.view w.1.toDinode = put (slotsAt sb s dnum) j none := by
        rw [hput, hslot]
        rfl
      have hdistinct : Distinct (slotsOf t.store.view w.1.toDinode) := by
        rw [hcleared]
        exact distinct_put_none h.distinct hscan
      rw [if_pos hall]
      apply Ensures.pure
      obtain ⟨hopen, hslots⟩ := h.written hw hlog hinodes hdistinct
      exact ⟨hopen, hslots.trans hcleared⟩
  | inr hfail =>
      obtain ⟨-, -, hend, -⟩ := hfail
      exact absurd hend (Nat.ne_of_lt hj)

theorem unlink_ensures (hl : sb.Laid) (h : DirOpen sb s dnum) :
    Ensures (DirStops s (.unlink name)) (Dir.perform sb dnum (.unlink name)) s fun a t =>
      DirOpen sb t dnum ∧ DirStep sb dnum s (.unlink name) a t := by
  have hunlink : Ensures (DirStops s (.unlink name))
      (Dir.onDir dnum fun dp => Dir.unlink sb dp name.val) s fun ok t => DirOpen sb t dnum ∧
        ok = (dirMap sb s dnum (keyOf name)).isSome ∧
        dirMap sb t dnum = Function.update (dirMap sb s dnum) (keyOf name) none ∧
        (slotsAt sb t dnum).length = (slotsAt sb s dnum).length := by
    apply onDir_ensures h
    obtain ⟨t, hrun, hlooked⟩ := dirlookup_run h name.property
    have hopen := hlooked.isOpen
    have hview := hlooked.view
    have hslots : slotsAt sb t dnum = slotsAt sb s dnum := by rw [slotsAt, slotsAt, hview]
    rw [Dir.unlink]
    apply Ensures.bind_eq hrun
    cases hfound : foundIn sb s dnum name with
    | none =>
        have hnone := foundIn_eq_none_iff.mp hfound
        have hmap : dirMap sb t dnum = dirMap sb s dnum := by rw [dirMap, dirMap, hslots]
        apply Ensures.pure
        rw [← inodeAt_congr hview, withCopy_self hopen]
        refine ⟨hopen, by rw [hnone]; rfl, ?_, congrArg List.length hslots⟩
        rw [hmap, eq_comm, Function.update_eq_self_iff, hnone]
    | some found =>
        obtain ⟨j, hscan, hoff, hj⟩ := foundIn_some hfound
        have hmap : dirMap sb s dnum (keyOf name) = some found.1 := by
          rw [← map_foundIn, hfound]
          rfl
        rw [← hslots] at hscan hj
        have hclear := clearEntry_ensures hl hopen hscan hj
        rw [inodeAt_congr hview, ← hoff] at hclear
        have hstops : ∀ e, DirStops t (.unlink name) e → DirStops s (.unlink name) e := by
          intro e he
          rw [DirStops, hlooked.log] at he
          exact he
        apply (hclear.mono hstops fun _ _ hpost => hpost).bind
        rintro dp u ⟨hopen', hput⟩
        apply Ensures.pure
        refine ⟨hopen', by rw [hmap]; rfl, ?_, ?_⟩
        · rw [dirMap, hput, toMap_put_none hopen.distinct hscan, hslots, dirMap]
        · rw [hput, length_put none hj, hslots]
  rw [Dir.perform]
  apply hunlink.bind
  rintro ok t ⟨hopen, rfl, hmap, hlength⟩
  exact Ensures.pure ⟨hopen, rfl, hmap, hlength⟩

theorem DirOpen.sameBlocks {store : Store} (hl : sb.Laid) (h : DirOpen sb s dnum)
    (hkept : LogKept sb s.store store) :
    DirOpen sb { s with store := store } dnum ∧
      slotsAt sb { s with store := store } dnum = slotsAt sb s dnum := by
  have hinode : sb.dinodeAt store.view dnum = sb.dinodeAt s.store.view dnum :=
    (h.consistent.settled.congr hl hkept.view).2 dnum
  have hediting := h.synced.editing hl h.consistent.settled
  have hblocks : KeepsBlocks s.store.view (sb.dinodeAt s.store.view dnum).addrs store.view
      (sb.dinodeAt s.store.view dnum).addrs :=
    KeepsBlocks.of_held (fun x hx => hkept.view x (hediting.held_writes hx)) fun _ _ => rfl
  have hcontent : contentOf store.view (sb.dinodeAt s.store.view dnum) =
      contentOf s.store.view (sb.dinodeAt s.store.view dnum) := by
    apply contentOf_congr rfl
    intro o ho
    obtain ⟨hfbn, hblock⟩ := h.file.noHoles o (Nat.zero_le o) (by rw [Nat.zero_add]; exact ho)
    exact hblocks.byte hfbn hblock
  have hsame : inodeAt sb { s with store := store } dnum = inodeAt sb s dnum := by
    rw [inodeAt, inodeAt, hinode]
  have hslots : slotsAt sb { s with store := store } dnum = slotsAt sb s dnum := by
    rw [slotsAt, slotsAt, hinode, slotsOf, hcontent, slotsOf]
  refine ⟨?_, hslots⟩
  constructor
  case consistent => exact h.consistent.sameBlocks hl hkept.view hkept.log
  case counted => exact h.counted
  case locked => exact h.locked
  case inum_lt => exact h.inum_lt
  case file =>
      rw [hsame]
      refine ⟨h.file.type, h.file.aligned, ?_⟩
      intro o hlow hhigh
      obtain ⟨hfbn, hblock⟩ := h.file.noHoles o hlow hhigh
      refine ⟨hfbn, ?_⟩
      have hplace : blockAt store.view (inodeAt sb s dnum).addrs (o / bsize) = _ :=
        hblocks.places _ hfbn hblock
      rw [hplace]
      exact hblock
  case distinct =>
      rw [hslots]
      exact h.distinct

theorem beginOp_ensures (hl : sb.Laid) (h : DirOpen sb s dnum) :
    Ensures (DirStops s .beginOp) (Dir.perform sb dnum .beginOp) s fun a t =>
      DirOpen sb t dnum ∧ DirStep sb dnum s .beginOp a t := by
  have hrun : ∃ b store, beginOp s.store = .ok (b, store) := ⟨_, _, beginOp_run⟩
  obtain ⟨b, store, hrun⟩ := hrun
  have hkept := (beginOp_kept h.consistent.log).post b store hrun
  have hlog : onLog beginOp s = .ok (b, { s with store := store }) := by
    rw [onLog, lift, hrun]
    rfl
  obtain ⟨hopen, hslots⟩ := h.sameBlocks hl hkept
  rw [Dir.perform]
  apply Ensures.bind_eq (onFs_run hlog)
  exact Ensures.pure ⟨hopen, rfl, hslots⟩

theorem endOp_ensures (hl : sb.Laid) (h : DirOpen sb s dnum) :
    Ensures (DirStops s .endOp) (Dir.perform sb dnum .endOp) s fun a t =>
      DirOpen sb t dnum ∧ DirStep sb dnum s .endOp a t := by
  have hend : Ensures (fun e => e = .noTransaction ∨ ∃ p, e = .log p) endTransaction s
      fun _ t => DirOpen sb t dnum ∧ slotsAt sb t dnum = slotsAt sb s dnum := by
    apply endTransaction_rule (Or.inl rfl)
    apply (onLog_ensures (endOpCommit_kept h.consistent.log)).mono
    · exact fun _ he => Or.inr he
    · rintro _ t ⟨store, hkept, rfl⟩
      exact h.sameBlocks hl hkept
  have hstops : ∀ e, (e = .noTransaction ∨ ∃ p, e = .log p) → DirStops s .endOp (.fs e) := by
    rintro e (rfl | ⟨p, rfl⟩)
    · exact Or.inl rfl
    · exact Or.inr ⟨p, rfl⟩
  rw [Dir.perform]
  apply (onFs_ensures hend hstops).bind
  rintro _ t ⟨hopen, hslots⟩
  exact Ensures.pure ⟨hopen, rfl, hslots⟩

theorem perform_step (hl : sb.Laid) (h : DirOpen sb s dnum) (c : DirCall) :
    Ensures (DirStops s c) (Dir.perform sb dnum c) s fun a t =>
      DirOpen sb t dnum ∧ DirStep sb dnum s c a t := by
  cases c with
  | beginOp => exact beginOp_ensures hl h
  | endOp => exact endOp_ensures hl h
  | lookup name => exact lookup_ensures h
  | link name inum => exact link_ensures hl h inum
  | unlink name => exact unlink_ensures hl h

/-! ## Whole runs -/

/-- Every step of the directory is a step of the map. -/
theorem DirStep.map {c : DirCall} {a : DirAnswer} (h : DirStep sb dnum s c a t) :
    MapStep (dirMap sb s dnum) c a (dirMap sb t dnum) := by
  cases c with
  | beginOp => exact ⟨h.1, by rw [dirMap, h.2, dirMap]⟩
  | endOp => exact ⟨h.1, by rw [dirMap, h.2, dirMap]⟩
  | lookup name =>
      obtain ⟨ha, hsame⟩ := h
      refine ⟨ha, ?_⟩
      rw [dirMap, slotsAt, hsame.view, store_afterLookup]
      rfl
  | link name inum =>
      obtain ⟨ok, ha, hstep⟩ := h
      cases ok with
      | false =>
          right
          exact ⟨ha, by rw [dirMap, hstep.failed rfl, dirMap]⟩
      | true =>
          have hnew : dirMap sb s dnum (keyOf name) = none := by
            by_contra hbound
            exact absurd (hstep.bound hbound).1.symm Bool.false_ne_true
          have hfree : ∀ x, (slotsAt sb s dnum)[freeSlot (slotsAt sb s dnum)]? = some x →
              x = none := fun _ hx => eq_none_of_freeSlot hx
          left
          refine ⟨hnew, ha, ?_⟩
          rw [dirMap, hstep.linked rfl, toMap_put hfree hnew, dirMap]
  | unlink name => exact ⟨h.1, h.2.1⟩

theorem performAll_map (hl : sb.Laid) (h : DirOpen sb s dnum) (cs : List DirCall) :
    Ensures (fun e => e = .fs .noTransaction ∨ ∃ p, e = .fs (.log p))
      (Dir.performAll sb dnum cs) s fun as t =>
        DirOpen sb t dnum ∧ MapRun (dirMap sb s dnum) cs as (dirMap sb t dnum) := by
  induction cs generalizing s with
  | nil => exact Ensures.pure ⟨h, rfl⟩
  | cons c cs ih =>
      have hstops : ∀ e, DirStops s c e → e = .fs .noTransaction ∨ ∃ p, e = .fs (.log p) := by
        intro e he
        cases c with
        | beginOp => exact he.elim
        | endOp => exact he
        | lookup name => exact he.elim
        | link name inum => exact Or.inr he.1
        | unlink name => exact Or.inr he.1
      rw [Dir.performAll]
      apply ((perform_step hl h c).mono hstops fun _ _ hpost => hpost).bind
      rintro a t ⟨hopen, hstep⟩
      apply (ih hopen).bind
      rintro as u ⟨hopen', hruns⟩
      exact Ensures.pure ⟨hopen', _, hstep.map, hruns⟩

end

/-! ## A small directory -/

def smallDirStore : Store where
  disk := fun b =>
    if b = 32 then fun i => if i = 64 then 1 else if i = 72 then 32 else if i = 76 then 34 else 0
    else if b = 33 then fun i => if i < 4 then 255 else if i = 4 then 7 else 0
    else if b = 34 then fun i => if i = 0 then 1 else if i = 2 then 46 else 0
    else zeroBlock
  cache := fun _ => none
  log := { start := 2, size := 30 }

def smallDirEntry : Entry where
  ref := 1
  valid := true
  ip := { openDisk.dinodeAt smallDirStore.view 1 with inum := 1 }

def smallDirState : FsState where
  store := smallDirStore
  inodes := fun inum => if inum = 1 then some smallDirEntry else none

theorem smallDirState_entry {inum : Nat} {e : Entry}
    (he : smallDirState.inodes inum = some e) : inum = 1 ∧ e = smallDirEntry := by
  by_cases hone : inum = 1
  · subst hone
    cases he
    exact ⟨rfl, rfl⟩
  · have hnone : smallDirState.inodes inum = none := if_neg hone
    rw [hnone] at he
    cases he

theorem smallDirState_open : DirOpen openDisk smallDirState 1 := by
  constructor
  case consistent =>
    constructor
    case settled =>
      constructor
      case meta_used =>
        have hmeta : ∀ b, b < 34 → openDisk.used smallDirState.store.view b = true := by decide
        intro b hb _
        exact hmeta b hb
      case owned => decide
    case synced =>
      intro inum e he _
      obtain ⟨rfl, rfl⟩ := smallDirState_entry he
      exact ⟨rfl, fun _ => ⟨rfl, by decide, by decide⟩⟩
    case log => exact ⟨by decide, by simp [smallDirState, smallDirStore], Or.inl rfl⟩
  case counted =>
    intro inum e he
    obtain ⟨-, rfl⟩ := smallDirState_entry he
    decide
  case locked => exact ⟨_, rfl, rfl⟩
  case inum_lt => decide
  case file =>
    refine ⟨by decide, by decide, ?_⟩
    intro o _ ho
    have hsize : (inodeAt openDisk smallDirState 1).size = 32 := by decide
    have hfirst : o / bsize = 0 := by
      rw [bsize]
      omega
    rw [hfirst]
    decide
  case distinct => decide

def nameA : CString := ⟨[97], by decide⟩

def nameB : CString := ⟨[98], by decide⟩

/-- Within one operation `a` is linked and unlinked. -/
def smallDirCalls : List DirCall :=
  [.beginOp, .link nameA ⟨1, by decide⟩, .unlink nameA]

end SyscallSched.Xv6.Fs.Code
