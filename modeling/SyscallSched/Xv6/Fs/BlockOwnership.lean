import SyscallSched.Xv6.Fs.Truncate

/-!
# Block ownership over whole runs

The table of inodes in memory, and runs of the calls that allocate and free blocks.
The table is named by inode numbers: `iget` never makes two entries for one inode.
An entry whose reference count is zero is left out.
-/

namespace SyscallSched.Xv6.Fs.Code

open SyscallSched.Foundation SyscallSched.Xv6.Fs

structure Entry where
  ref : Nat
  valid : Bool
  ip : Inode

structure FsState where
  store : Store
  inodes : Nat → Option Entry

abbrev FsM := StateT FsState (Except FsError)

variable (sb : Superblock)

def onStore {α : Type} (p : FsProg α) : FsM α := fun s =>
  (run p s.store).map fun r => (r.1, { s with store := r.2 })

def onLog {α : Type} (x : StoreM α) : FsM α := fun s =>
  (lift x s.store).map fun r => (r.1, { s with store := r.2 })

def setEntry (inum : Nat) (e : Option Entry) : FsM Unit :=
  modify fun s => { s with inodes := Function.update s.inodes inum e }

def entryOf (inum : Nat) : FsM Entry := fun s =>
  match s.inodes inum with
  | none => .error .noReference
  | some e => .ok (e, s)

def referenced (inum : Nat) : Option Entry → Entry
  | none => { ref := 1, valid := false, ip := { inum := inum } }
  | some e => { e with ref := e.ref + 1 }

def iget (inum : Nat) : FsM Unit := do
  let s ← get
  setEntry inum (some (referenced inum (s.inodes inum)))

def ilock (inum : Nat) : FsM Entry := do
  let e ← entryOf inum
  if e.valid then
    pure e
  else do
    let ip ← onStore (readInode sb inum)
    setEntry inum (some { e with valid := true, ip := ip })
    pure { e with valid := true, ip := ip }

def writeInode (inum : Nat) (src : Source) (off n : Nat) : FsM (Option Nat) := do
  let e ← ilock sb inum
  let r ← onStore (writei sb e.ip src off n)
  setEntry inum (some { e with ip := r.1 })
  pure r.2

def truncInode (inum : Nat) : FsM Unit := do
  let e ← ilock sb inum
  let ip ← onStore (itrunc sb e.ip)
  setEntry inum (some { e with ip := ip })

def dropRef (e : Entry) : Option Entry :=
  if e.ref ≤ 1 then none else some { e with ref := e.ref - 1 }

def iput (inum : Nat) : FsM Unit := do
  let e ← entryOf inum
  if e.ref = 1 ∧ e.valid = true ∧ e.ip.nlink = 0 then do
    let ip ← onStore (freeInode sb e.ip)
    setEntry inum (dropRef { e with valid := false, ip := ip })
  else
    setEntry inum (dropRef e)

def Inode.withNlink (ip : Inode) (nlink : Nat) : Inode := { ip with nlink := nlink }

/-- `ilock`, a new link count, `iupdate`, `iunlock` -/
def relink (inum nlink : Nat) : FsM Unit := do
  let e ← ilock sb inum
  onStore (iupdate sb (e.ip.withNlink nlink))
  setEntry inum (some { e with ip := e.ip.withNlink nlink })

/-! ## Runs -/

def endOpCommit : StoreM Unit := do
  let last ← endOp
  if last then endCommit else pure ()

def endTransaction : FsM Unit := do
  let s ← get
  if s.store.log.outstanding = 0 then throw .noTransaction else onLog endOpCommit

/-- Offsets and counts are `uint`, and link counts 16 bits. -/
inductive Call where
  | beginOp
  | endOp
  | iget (inum : Fin sb.ninodes)
  | write (inum : Fin sb.ninodes) (src : Source) (off n : UInt32)
  | trunc (inum : Fin sb.ninodes)
  | relink (inum : Fin sb.ninodes) (nlink : UInt16)
  | iput (inum : Fin sb.ninodes)

def perform : Call sb → FsM Unit
  | .beginOp => do
      let _ ← onLog beginOp
      pure ()
  | .endOp => endTransaction
  | .iget inum => iget inum
  | .write inum src off n => do
      let _ ← writeInode sb inum src off.toNat n.toNat
      pure ()
  | .trunc inum => truncInode sb inum
  | .relink inum nlink => relink sb inum nlink.toNat
  | .iput inum => iput sb inum

def performAll : List (Call sb) → FsM Unit
  | [] => pure ()
  | c :: cs => do
      perform sb c
      performAll cs

/-! ## Ownership -/

/-- The inode as the kernel sees it: the copy in memory where that is valid. -/
def current (s : FsState) (inum : Nat) : Dinode :=
  match s.inodes inum with
  | none => sb.dinodeAt s.store.view inum
  | some e => if e.valid then e.ip.toDinode else sb.dinodeAt s.store.view inum

def blocksOf (s : FsState) (inum : Nat) : Multiset Nat := share s.store.view (current sb s) inum

structure BlockOwnership (s : FsState) : Prop where
  used : ∀ inum, inum < sb.ninodes → ∀ b ∈ blocksOf sb s inum,
    (sb.dataStart ≤ b ∧ b < sb.size) ∧ sb.used s.store.view b = true
  once : (∑ inum ∈ Finset.range sb.ninodes, blocksOf sb s inum).Nodup
  held : ∀ b, sb.dataStart ≤ b → b < sb.size → sb.used s.store.view b = true →
    ∃ inum, inum < sb.ninodes ∧ b ∈ blocksOf sb s inum

def TableSynced (s : FsState) : Prop :=
  ∀ inum e, s.inodes inum = some e → e.valid = true →
    e.ip.inum = inum ∧ (inum < sb.ninodes → Synced sb s.store.view e.ip)

/-- The log lies before the inodes, and its header has room for what it lists. -/
structure LogBelow (l : Log) : Prop where
  below : l.start + l.size ≤ sb.inodestart
  writes : ∀ b ∈ l.lh, sb.Writes b
  fits : l.lh = [] ∨ l.lh.length < l.size

/-- Ownership, with what else holds between calls. -/
structure FsInv (s : FsState) : Prop where
  ownership : BlockOwnership sb s
  meta_used : MetaUsed sb s.store.view
  synced : TableSynced sb s
  log : LogBelow sb s.store.log

/-! ## What the calls keep -/

/-- `FsInv` in the terms of single functions: the inodes on the disk own the blocks. -/
structure Consistent (s : FsState) : Prop where
  settled : Settled sb s.store.view
  synced : TableSynced sb s
  log : LogBelow sb s.store.log

section

variable {sb : Superblock} {s : FsState} {store : Store} {inum : Nat}

theorem current_of_synced (h : TableSynced sb s) (hinum : inum < sb.ninodes) :
    current sb s inum = sb.dinodeAt s.store.view inum := by
  rw [current]
  cases he : s.inodes inum with
  | none => rfl
  | some e =>
      cases hvalid : e.valid with
      | false => simp [hvalid]
      | true =>
          have hentry := h inum e he hvalid
          have hinode := (hentry.2 hinum).inode
          rw [hentry.1] at hinode
          simp [hvalid, hinode]

theorem blocksOf_of_synced (h : TableSynced sb s) (hinum : inum < sb.ninodes) :
    blocksOf sb s inum = share s.store.view (sb.dinodeAt s.store.view) inum := by
  rw [blocksOf, share, share, current_of_synced h hinum]

theorem blockOwnership_iff :
    BlockOwnership sb s ↔
      ∑ inum ∈ Finset.range sb.ninodes, blocksOf sb s inum = (sb.usedData s.store.view).val := by
  constructor
  · intro h
    rw [Multiset.Nodup.ext h.once (sb.usedData s.store.view).nodup]
    intro b
    rw [Multiset.mem_sum, Finset.mem_val, mem_usedData]
    constructor
    · intro hb
      obtain ⟨inum, hinum, hmem⟩ := hb
      exact h.used inum (Finset.mem_range.mp hinum) b hmem
    · intro hb
      obtain ⟨inum, hinum, hmem⟩ := h.held b hb.1.1 hb.1.2 hb.2
      exact ⟨inum, Finset.mem_range.mpr hinum, hmem⟩
  · intro h
    have hmem : ∀ b, (∃ inum, inum < sb.ninodes ∧ b ∈ blocksOf sb s inum) ↔
        (sb.dataStart ≤ b ∧ b < sb.size) ∧ sb.used s.store.view b = true := by
      intro b
      rw [← mem_usedData, ← Finset.mem_val, ← h, Multiset.mem_sum]
      simp
    constructor
    case used =>
      intro inum hinum b hb
      exact (hmem b).mp ⟨inum, hinum, hb⟩
    case once =>
      rw [h]
      exact (sb.usedData s.store.view).nodup
    case held =>
      intro b hge hlt hused
      exact (hmem b).mpr ⟨⟨hge, hlt⟩, hused⟩

theorem fsInv_iff_consistent : FsInv sb s ↔ Consistent sb s := by
  have hsum : TableSynced sb s →
      ∑ inum ∈ Finset.range sb.ninodes, blocksOf sb s inum =
        ∑ inum ∈ Finset.range sb.ninodes,
          share s.store.view (sb.dinodeAt s.store.view) inum := by
    intro hsynced
    apply Finset.sum_congr rfl
    intro i hi
    exact blocksOf_of_synced hsynced (Finset.mem_range.mp hi)
  constructor
  · intro h
    have howned := blockOwnership_iff.mp h.ownership
    rw [hsum h.synced] at howned
    constructor
    case settled =>
      constructor
      case meta_used => exact h.meta_used
      case owned => rw [add_zero, howned]
    case synced => exact h.synced
    case log => exact h.log
  · intro h
    have howned := h.settled.owned
    rw [add_zero, ← hsum h.synced] at howned
    constructor
    case ownership => exact blockOwnership_iff.mpr howned
    case meta_used => exact h.settled.meta_used
    case synced => exact h.synced
    case log => exact h.log

theorem Consistent.replace (h : Consistent sb s) {ip ip' : Inode} {o : Option Entry}
    (hupdated : Updated sb s.store.view ip ip' store.view) (hlog : LogBelow sb store.log)
    (ho : ∀ e, o = some e → e.valid = true → e.ip = ip' ∧ ip'.type ≠ 0) :
    Consistent sb ⟨store, Function.update s.inodes ip.inum o⟩ := by
  constructor
  case settled => exact hupdated.settled
  case synced =>
    intro i e he hvalid
    by_cases hi : i = ip.inum
    · rw [hi] at he
      simp only [Function.update_self] at he
      obtain ⟨heq, htype⟩ := ho e he hvalid
      rw [heq, hi]
      refine ⟨hupdated.inum, ?_⟩
      intro hlt
      constructor
      case inode =>
        rw [hupdated.inum]
        exact hupdated.inode
      case inum_lt =>
        rw [hupdated.inum]
        exact hlt
      case type => exact htype
    · simp only [Function.update_of_ne hi] at he
      have hentry := h.synced i e he hvalid
      refine ⟨hentry.1, ?_⟩
      intro hlt
      have hold := hentry.2 hlt
      refine { hold with inode := ?_ }
      rw [hentry.1, hupdated.other i hlt hi, ← hold.inode, hentry.1]
  case log => exact hlog

theorem Consistent.table (h : Consistent sb s) {o : Option Entry}
    (hview : store.view = s.store.view) (hlog : LogBelow sb store.log)
    (ho : ∀ e, o = some e → e.valid = true →
      e.ip.inum = inum ∧ (inum < sb.ninodes → Synced sb s.store.view e.ip)) :
    Consistent sb ⟨store, Function.update s.inodes inum o⟩ := by
  constructor
  case settled =>
    simp only [hview]
    exact h.settled
  case synced =>
    intro i e he hvalid
    simp only [hview]
    by_cases hi : i = inum
    · rw [hi] at he
      simp only [Function.update_self] at he
      rw [hi]
      exact ho e he hvalid
    · simp only [Function.update_of_ne hi] at he
      exact h.synced i e he hvalid
  case log => exact hlog

/-! ## One call -/

/-- The error that ownership excludes. -/
def Allowed (e : FsError) : Prop := e ≠ .freeingFreeBlock

def ownershipTerms (sb : Superblock) : Terms where
  error := Allowed
  log := LogBelow sb

theorem ownershipTerms_logs (sb : Superblock) : (ownershipTerms sb).Logs sb.Writes := by
  constructor
  case panic =>
    intro p
    simp [ownershipTerms, Allowed]
  case append =>
    intro l b hl hfull hb
    rw [Log.Full] at hfull
    constructor
    case below => exact hl.below
    case writes =>
      intro c hc
      cases List.mem_append.mp hc with
      | inl hold => exact hl.writes c hold
      | inr hnew =>
          rw [List.mem_singleton.mp hnew]
          exact hb
    case fits =>
      right
      simp only [List.length_append, List.length_singleton]
      omega

theorem onStore_ensures {α : Type} {E : Terms} {p : FsProg α}
    {Q : α → (Nat → Block) → Prop} (hlog : E.log s.store.log) (h : Does E p s.store.view Q) :
    Ensures E.error (onStore p) s fun a t =>
      Q a t.store.view ∧ E.log t.store.log ∧ t.inodes = s.inodes := by
  have hp := h s.store rfl hlog
  cases hrun : run p s.store with
  | error e =>
      have herr : onStore p s = .error e := by rw [onStore, hrun]; rfl
      exact Ensures.of_error herr (hp.error e hrun)
  | ok r =>
      have hok : onStore p s = .ok (r.1, { s with store := r.2 }) := by rw [onStore, hrun]; rfl
      have hpost := hp.post r.1 r.2 hrun
      exact Ensures.of_eq hok ⟨hpost.1, hpost.2, rfl⟩

theorem setEntry_run (inum : Nat) (o : Option Entry) (s : FsState) :
    setEntry inum o s =
      .ok ((), { s with inodes := Function.update s.inodes inum o }) := rfl

theorem entryOf_ensures (s : FsState) (inum : Nat) :
    Ensures Allowed (entryOf inum) s fun e t => t = s ∧ s.inodes inum = some e := by
  cases he : s.inodes inum with
  | none =>
      have herr : entryOf inum s = .error .noReference := by simp [entryOf, he]
      exact Ensures.of_error herr (by simp [Allowed])
  | some e =>
      have hok : entryOf inum s = .ok (e, s) := by simp [entryOf, he]
      exact Ensures.of_eq hok ⟨rfl, rfl⟩

theorem iget_ensures (h : Consistent sb s) (inum : Nat) :
    Ensures Allowed (iget inum) s fun _ t => Consistent sb t := by
  have hrun : iget inum s = .ok ((), { s with
      inodes := Function.update s.inodes inum (some (referenced inum (s.inodes inum))) }) := rfl
  apply Ensures.of_eq hrun
  apply h.table rfl h.log
  intro e he hvalid
  cases hold : s.inodes inum with
  | none =>
      rw [hold] at he
      cases he
      cases hvalid
  | some e₀ =>
      rw [hold] at he
      cases he
      exact h.synced inum e₀ hold hvalid

theorem readInode_does {E : Terms} {v : Nat → Block} (hE : E.error .ilockNoType) (inum : Nat) :
    Does E (readInode sb inum) v fun ip v' =>
      v' = v ∧ ip.inum = inum ∧ sb.dinodeAt v inum = ip.toDinode ∧ ip.type ≠ 0 := by
  rw [readInode]
  apply bread_bind
  apply brelse_bind
  by_cases htype : (getDinode (v (sb.iblock inum)) (inodeOffset inum)).type = 0
  · rw [if_pos htype]
    exact fail_does hE
  · rw [if_neg htype]
    apply Does.pure
    exact ⟨rfl, rfl, rfl, htype⟩

structure Locked (sb : Superblock) (s : FsState) (inum : Nat) (e : Entry) (t : FsState) :
    Prop where
  consistent : Consistent sb t
  view : t.store.view = s.store.view
  valid : e.valid = true
  inum_eq : e.ip.inum = inum
  synced : Synced sb t.store.view e.ip

theorem ilock_ensures (h : Consistent sb s) (hinum : inum < sb.ninodes) :
    Ensures Allowed (ilock sb inum) s (Locked sb s inum) := by
  rw [ilock]
  apply (entryOf_ensures s inum).bind
  intro e s' hs'
  obtain ⟨hs, he⟩ := hs'
  subst s'
  by_cases hvalid : e.valid = true
  · rw [if_pos hvalid]
    apply Ensures.pure
    have hentry := h.synced inum e he hvalid
    exact ⟨h, rfl, hvalid, hentry.1, hentry.2 hinum⟩
  · rw [if_neg hvalid]
    have hallowed : (ownershipTerms sb).error .ilockNoType := by simp [ownershipTerms, Allowed]
    have hread : Does (ownershipTerms sb) (readInode sb inum) s.store.view _ :=
      readInode_does hallowed inum
    apply (onStore_ensures h.log hread).bind
    intro ip t₁ hread
    obtain ⟨⟨hview, rfl, hinode, htype⟩, hlog, hinodes⟩ := hread
    have hsynced : Synced sb _ ip := ⟨hinode, hinum, htype⟩
    apply Ensures.bind_eq (setEntry_run _ _ t₁)
    apply Ensures.pure
    refine ⟨?_, hview, rfl, rfl, ?_⟩
    · rw [hinodes]
      apply h.table hview hlog
      intro e' he' _
      cases he'
      exact ⟨rfl, fun _ => hsynced⟩
    · rw [hview]
      exact hsynced

theorem writeInode_ensures (hl : sb.Laid) (h : Consistent sb s) (hinum : inum < sb.ninodes)
    {src : Source} {off n : Nat} (hoff : off < 2 ^ 32) (hn : n < 2 ^ 32) :
    Ensures Allowed (writeInode sb inum src off n) s fun _ t => Consistent sb t := by
  rw [writeInode]
  apply (ilock_ensures h hinum).bind
  intro e s₁ hlocked
  apply (onStore_ensures hlocked.consistent.log (writei_does (ownershipTerms_logs sb) hl
    hlocked.consistent.settled hlocked.synced hoff hn)).bind
  intro r s₂ hr
  obtain ⟨⟨hupdated, htype⟩, hlog, hinodes⟩ := hr
  apply Ensures.bind_eq (setEntry_run _ _ s₂)
  apply Ensures.pure
  rw [hinodes, ← hlocked.inum_eq]
  apply hlocked.consistent.replace hupdated hlog
  intro e' he' _
  cases he'
  refine ⟨rfl, ?_⟩
  rw [htype]
  exact hlocked.synced.type

def FreesBlocks (sb : Superblock) (s : FsState) (inum : Nat) (t : FsState) : Prop :=
  ∀ b, b < sb.size →
    (sb.used t.store.view b = true ↔ sb.used s.store.view b = true ∧ b ∉ blocksOf sb s inum)

theorem freesBlocks_of_freed (h : Consistent sb s) {ip : Inode}
    (hsynced : Synced sb s.store.view ip) {t : FsState}
    (hfreed : Freed sb s.store.view ip t.store.view) : FreesBlocks sb s ip.inum t := by
  have hblocks : blocksOf sb s ip.inum = held s.store.view ip.addrs := by
    rw [blocksOf_of_synced h.synced hsynced.inum_lt]
    rw [share, hsynced.inode, if_neg hsynced.type]
  intro b hb
  rw [hblocks]
  exact hfreed b hb

theorem truncInode_ensures (hl : sb.Laid) (h : Consistent sb s) (hinum : inum < sb.ninodes) :
    Ensures Allowed (truncInode sb inum) s fun _ t =>
      Consistent sb t ∧ FreesBlocks sb s inum t := by
  rw [truncInode]
  apply (ilock_ensures h hinum).bind
  intro e s₁ hlocked
  have htrunc := itrunc_does (ownershipTerms_logs sb) hl hlocked.consistent.settled
    hlocked.synced
  apply (onStore_ensures hlocked.consistent.log htrunc).bind
  intro ip s₂ hip
  obtain ⟨htruncated, hlog, hinodes⟩ := hip
  have hsynced := hlocked.synced
  rw [hlocked.view] at hsynced
  have hfreed := htruncated.freed
  rw [hlocked.view] at hfreed
  apply Ensures.of_eq (setEntry_run _ _ s₂)
  rw [hinodes, ← hlocked.inum_eq]
  constructor
  · apply hlocked.consistent.replace htruncated.updated hlog
    intro e' he' _
    cases he'
    refine ⟨rfl, ?_⟩
    rw [htruncated.type]
    exact hsynced.type
  · exact freesBlocks_of_freed h hsynced hfreed

theorem share_withNlink {v : Nat → Block} {d : Nat → Dinode} {ip : Inode} (n i : Nat)
    (hd : d ip.inum = ip.toDinode) :
    share v (Function.update d ip.inum (ip.withNlink n).toDinode) i = share v d i := by
  by_cases hi : i = ip.inum
  · rw [share, share, hi, Function.update_self, hd]
    rfl
  · rw [share, share, Function.update_of_ne hi]

theorem relink_ensures (hl : sb.Laid) (h : Consistent sb s) (hinum : inum < sb.ninodes)
    {n : Nat} (hn : n < 2 ^ 16) :
    Ensures Allowed (relink sb inum n) s fun _ t => Consistent sb t := by
  rw [relink]
  apply (ilock_ensures h hinum).bind
  intro e s₁ hlocked
  have hsynced := hlocked.synced
  have hediting := hsynced.editing hl hlocked.consistent.settled
  have hfits : (e.ip.withNlink n).toDinode.Fits := { hediting.fits with nlink := hn }
  have howned : Owned sb s₁.store.view (Function.update (sb.dinodeAt s₁.store.view) e.ip.inum
      (e.ip.withNlink n).toDinode) 0 := by
    apply hediting.owned.congr_share
    intro i _
    exact share_withNlink n i hsynced.inode
  have hupdated : Updated sb s₁.store.view e.ip (e.ip.withNlink n)
      (sb.withInode s₁.store.view e.ip.inum (e.ip.withNlink n).toDinode) :=
    updated_withInode hl hsynced.inum_lt rfl hfits howned fun _ _ => rfl
  have hupdate : Does (ownershipTerms sb) (iupdate sb (e.ip.withNlink n)) s₁.store.view
      fun _ v' => Updated sb s₁.store.view e.ip (e.ip.withNlink n) v' :=
    iupdate_does (ownershipTerms_logs sb) hupdated
  apply (onStore_ensures hlocked.consistent.log hupdate).bind
  intro _ s₂ hs₂
  apply Ensures.of_eq (setEntry_run _ _ s₂)
  rw [hs₂.2.2, ← hlocked.inum_eq]
  apply hlocked.consistent.replace hs₂.1 hs₂.2.1
  intro e' he' _
  cases he'
  exact ⟨rfl, hsynced.type⟩

theorem dropRef_some {e e' : Entry} (h : dropRef e = some e') :
    e'.valid = e.valid ∧ e'.ip = e.ip := by
  rw [dropRef] at h
  split at h
  · cases h
  · cases h
    exact ⟨rfl, rfl⟩

theorem iput_ensures (hl : sb.Laid) (h : Consistent sb s) (hinum : inum < sb.ninodes) :
    Ensures Allowed (iput sb inum) s fun _ t => Consistent sb t := by
  rw [iput]
  apply (entryOf_ensures s inum).bind
  rintro e _ ⟨rfl, he⟩
  by_cases hlast : e.ref = 1 ∧ e.valid = true ∧ e.ip.nlink = 0
  · rw [if_pos hlast]
    obtain ⟨rfl, hsynced⟩ := h.synced inum e he hlast.2.1
    apply (onStore_ensures h.log (freeInode_does (ownershipTerms_logs sb) hl h.settled
      (hsynced hinum))).bind
    intro ip t hip
    obtain ⟨⟨hupdated, _, _⟩, hlog, hinodes⟩ := hip
    apply Ensures.of_eq (setEntry_run _ _ t)
    rw [hinodes]
    apply h.replace hupdated hlog
    intro e' he' hvalid
    rw [(dropRef_some he').1] at hvalid
    cases hvalid
  · rw [if_neg hlast]
    apply Ensures.of_eq (setEntry_run _ _ _)
    apply h.table rfl h.log
    intro e' he' hvalid
    obtain ⟨hvalid', hip⟩ := dropRef_some he'
    rw [hvalid'] at hvalid
    rw [hip]
    exact h.synced inum e he hvalid

/-! ## Transactions -/

theorem Settled.congr {v v' : Nat → Block} (hl : sb.Laid) (h : Settled sb v)
    (hv : ∀ b, sb.Writes b → v' b = v b) :
    Settled sb v' ∧ ∀ i, sb.dinodeAt v' i = sb.dinodeAt v i := by
  have hinodes : ∀ i, sb.dinodeAt v' i = sb.dinodeAt v i := by
    intro i
    exact dinodeAt_congr (hv _ (writes_iblock sb i))
  have howned : Owned sb v' (sb.dinodeAt v) 0 := by
    apply Owned.congr h
    · intro b _
      exact hv _ (writes_bblock hl b)
    · intro i hi htype hx
      exact hv _ (writes_data hl (Owned.indirect_ge h hi htype hx))
  exact ⟨howned.congr_inodes fun i _ => hinodes i, hinodes⟩

theorem Consistent.sameBlocks (hl : sb.Laid) (h : Consistent sb s)
    (hview : ∀ b, sb.Writes b → store.view b = s.store.view b) (hlog : LogBelow sb store.log) :
    Consistent sb { s with store := store } := by
  obtain ⟨hsettled, hinodes⟩ := h.settled.congr hl hview
  constructor
  case settled => exact hsettled
  case synced =>
    intro i e he hvalid
    have hentry := h.synced i e he hvalid
    refine ⟨hentry.1, ?_⟩
    intro hlt
    have hold := hentry.2 hlt
    exact { hold with inode := (hinodes e.ip.inum).trans hold.inode }
  case log => exact hlog

theorem onLog_ensures {α : Type} {x : StoreM α} {Q : α → Store → Prop}
    (hx : Ensures (fun _ => True) x s.store Q) :
    Ensures (fun e => ∃ p, e = .log p) (onLog x) s fun a t =>
      ∃ store, Q a store ∧ t = { s with store := store } := by
  cases hrun : x s.store with
  | error e =>
      have herr : onLog x s = .error (.log e) := by rw [onLog, lift, hrun]; rfl
      exact Ensures.of_error herr ⟨e, rfl⟩
  | ok r =>
      have hok : onLog x s = .ok (r.1, { s with store := r.2 }) := by rw [onLog, lift, hrun]; rfl
      exact Ensures.of_eq hok ⟨r.2, hx.post r.1 r.2 hrun, rfl⟩

structure LogKept (sb : Superblock) (s : Store) (t : Store) : Prop where
  view : ∀ b, sb.Writes b → t.view b = s.view b
  log : LogBelow sb t.log

theorem beginOp_kept {st : Store} (h : LogBelow sb st.log) :
    Ensures (fun _ => True) beginOp st fun _ t => LogKept sb st t := by
  by_cases hadmits : st.log.Admits
  · have hrun := beginOp_run (s := st)
    rw [if_pos hadmits] at hrun
    exact Ensures.of_eq hrun ⟨fun _ _ => rfl, ⟨h.below, h.writes, h.fits⟩⟩
  · have hrun := beginOp_run (s := st)
    rw [if_neg hadmits] at hrun
    exact Ensures.of_eq hrun ⟨fun _ _ => rfl, h⟩

theorem endOp_kept {st : Store} (h : LogBelow sb st.log) :
    Ensures (fun _ => True) endOp st fun _ t => LogKept sb st t := by
  by_cases hc : st.log.committing = false
  · have hrun := endOp_run hc
    by_cases hlast : st.log.outstanding - 1 = 0
    · rw [if_pos hlast] at hrun
      exact Ensures.of_eq hrun ⟨fun _ _ => rfl, ⟨h.below, h.writes, h.fits⟩⟩
    · rw [if_neg hlast] at hrun
      exact Ensures.of_eq hrun ⟨fun _ _ => rfl, ⟨h.below, h.writes, h.fits⟩⟩
  · have hrun : endOp st = .error .logCommitting := by
      have hc' : st.log.committing = true := by simpa using hc
      rw [endOp]
      change (if st.log.committing then throw .logCommitting else _ : StoreM Bool) _ = _
      rw [if_pos hc']
      rfl
    exact Ensures.of_error hrun trivial

theorem endCommit_kept {st : Store} (h : LogBelow sb st.log) :
    Ensures (fun _ => True) endCommit st fun _ t => LogKept sb st t := by
  have hhome : ∀ b, sb.Writes b → st.log.Home b := by
    intro b hb
    right
    exact Nat.le_trans h.below hb
  obtain ⟨_, t, hcommit, hlog, hview⟩ :=
    commit_view (fun b hb => hhome b (h.writes b hb)) h.fits
  have hrun : endCommit st =
      .ok ((), { t with log := { t.log with committing := false } }) := by
    rw [endCommit, Total.run_bind hcommit]
    rfl
  apply Ensures.of_eq hrun
  constructor
  case view =>
    intro b hb
    exact hview b (hhome b hb)
  case log =>
    simp only [hlog]
    exact ⟨h.below, by simp, Or.inl rfl⟩

theorem endOpCommit_kept {st : Store} (h : LogBelow sb st.log) :
    Ensures (fun _ => True) endOpCommit st fun _ t => LogKept sb st t := by
  rw [endOpCommit]
  apply (endOp_kept h).bind
  intro last t ht
  by_cases hlast : last = true
  · rw [if_pos hlast]
    apply (endCommit_kept ht.log).imp
    intro _ u hu
    exact ⟨fun b hb => (hu.view b hb).trans (ht.view b hb), hu.log⟩
  · rw [if_neg hlast]
    exact Ensures.pure ht

theorem onLog_kept (hl : sb.Laid) (h : Consistent sb s) {α : Type} {x : StoreM α}
    (hx : Ensures (fun _ => True) x s.store fun _ t => LogKept sb s.store t) :
    Ensures Allowed (onLog x) s fun _ t => Consistent sb t := by
  apply (onLog_ensures hx).mono
  · rintro e ⟨p, rfl⟩
    simp [Allowed]
  · rintro _ t ⟨store, hkept, rfl⟩
    exact h.sameBlocks hl hkept.view hkept.log

theorem endTransaction_rule {E : FsError → Prop} {Q : Unit → FsState → Prop}
    (hnone : E .noTransaction) (hend : Ensures E (onLog endOpCommit) s Q) :
    Ensures E endTransaction s Q := by
  by_cases hout : s.store.log.outstanding = 0
  · have herr : endTransaction s = .error .noTransaction := by
      change (if s.store.log.outstanding = 0 then throw .noTransaction else _ : FsM Unit) s = _
      rw [if_pos hout]
      rfl
    exact Ensures.of_error herr hnone
  · have heq : endTransaction s = onLog endOpCommit s := by
      change (if s.store.log.outstanding = 0 then _ else onLog endOpCommit : FsM Unit) s = _
      rw [if_neg hout]
    constructor
    case post =>
      intro a t ht
      exact hend.post a t (heq.symm.trans ht)
    case error =>
      intro e he
      exact hend.error e (heq.symm.trans he)

theorem endTransaction_ensures (hl : sb.Laid) (h : Consistent sb s) :
    Ensures Allowed endTransaction s fun _ t => Consistent sb t :=
  endTransaction_rule (by simp [Allowed]) (onLog_kept hl h (endOpCommit_kept h.log))

/-! ## Whole runs -/

theorem perform_ensures (hl : sb.Laid) (h : Consistent sb s) (c : Call sb) :
    Ensures Allowed (perform sb c) s fun _ t => Consistent sb t := by
  cases c with
  | beginOp =>
      apply (onLog_kept hl h (beginOp_kept h.log)).bind
      intro _ t ht
      exact Ensures.pure ht
  | endOp => exact endTransaction_ensures hl h
  | iget inum => exact iget_ensures h inum
  | write inum src off n =>
      apply (writeInode_ensures hl h inum.isLt off.toNat_lt n.toNat_lt).bind
      intro _ t ht
      exact Ensures.pure ht
  | trunc inum => exact (truncInode_ensures hl h inum.isLt).imp fun _ _ ht => ht.1
  | relink inum nlink => exact relink_ensures hl h inum.isLt nlink.toNat_lt
  | iput inum => exact iput_ensures hl h inum.isLt

theorem performAll_ensures (hl : sb.Laid) (h : Consistent sb s) (cs : List (Call sb)) :
    Ensures Allowed (performAll sb cs) s fun _ t => Consistent sb t := by
  induction cs generalizing s with
  | nil => exact Ensures.pure h
  | cons c cs ih =>
      apply (perform_ensures hl h c).bind
      intro _ t ht
      exact ih ht

/-- From a state with `FsInv`, every run of calls keeps it; no run stops with
"freeing free block"; and after any run `itrunc` frees exactly the blocks of its
inode. -/
theorem block_ownership (hl : sb.Laid) (h : FsInv sb s) (cs : List (Call sb)) :
    performAll sb cs s ≠ .error .freeingFreeBlock ∧
      ∀ t, performAll sb cs s = .ok ((), t) → FsInv sb t ∧
        ∀ (inum : Fin sb.ninodes) u, truncInode sb inum t = .ok ((), u) →
          FreesBlocks sb t inum u := by
  have hrun := performAll_ensures hl (fsInv_iff_consistent.mp h) cs
  constructor
  · intro herr
    exact hrun.error _ herr rfl
  · intro t ht
    have hconsistent := hrun.post () t ht
    refine ⟨fsInv_iff_consistent.mpr hconsistent, ?_⟩
    intro inum u hu
    exact ((truncInode_ensures hl hconsistent inum.isLt).post () u hu).2

def smallDisk : Superblock := { size := 8, ninodes := 2, inodestart := 4, bmapstart := 5 }

def smallFile : Fin smallDisk.ninodes := ⟨1, by decide⟩

def smallState : FsState where
  store :=
    { disk := fun b =>
        if b = 4 then fun i => if i = 64 then 2 else if i = 76 then 6 else 0
        else if b = 5 then fun i => if i = 0 then 127 else 0
        else zeroBlock
      cache := fun _ => none
      log := { start := 0, size := 4 } }
  inodes := fun _ => none

theorem smallState_fsInv : FsInv smallDisk smallState := by
  rw [fsInv_iff_consistent]
  constructor
  case settled =>
    constructor
    case meta_used =>
      have hmeta : ∀ b, b < 6 → smallDisk.used smallState.store.view b = true := by decide
      intro b hb _
      exact hmeta b hb
    case owned => decide
  case synced =>
    intro inum e he
    cases he
  case log => exact ⟨by decide, by simp [smallState], Or.inl rfl⟩

theorem block_ownership_small : smallDisk.Laid ∧ FsInv smallDisk smallState ∧
    performAll smallDisk [.beginOp, .iget smallFile, .trunc smallFile, .iput smallFile, .endOp]
      smallState ≠ .error .freeingFreeBlock := by
  have hl : smallDisk.Laid := ⟨by decide, by decide⟩
  exact ⟨hl, smallState_fsInv, (block_ownership hl smallState_fsInv _).1⟩

end

end SyscallSched.Xv6.Fs.Code
