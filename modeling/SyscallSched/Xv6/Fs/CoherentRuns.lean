import SyscallSched.Xv6.Fs.Coherence

/-!
# Coherent runs

The steps of the processes, the beginning of a run, and coherence in every state that the
processes reach while no copy that fails has changed a block outside the transaction.
-/

namespace SyscallSched.Xv6.Fs.Code.Sharing

open SyscallSched.Foundation SyscallSched.Xv6.Fs

/-! ## Steps of the processes -/

def holdsOf (l : Nat → Local) : Holds := fun i => (l i).held

def phasesOf (l : Nat → Local) : Phases := fun i => (l i).phase

section

variable {l : Nat → Local} {i b : Nat}

theorem holdsOf_hold {x : Hold} : holdsOf (Function.update l i ((l i).hold b x)) =
    (holdsOf l).set i b (some x) := by
  funext j
  by_cases hj : j = i
  · subst hj
    simp [holdsOf, Holds.set]
  · simp [holdsOf, Holds.set, hj]

theorem holdsOf_release : holdsOf (Function.update l i ((l i).release b)) =
    (holdsOf l).set i b none := by
  funext j
  by_cases hj : j = i
  · subst hj
    simp [holdsOf, Holds.set]
  · simp [holdsOf, Holds.set, hj]

theorem holdsOf_enter {p : Phase} : holdsOf (Function.update l i ((l i).enter p)) = holdsOf l := by
  funext j
  by_cases hj : j = i
  · subst hj
    simp [holdsOf]
  · simp [holdsOf, hj]

theorem phasesOf_update {l' : Local} :
    phasesOf (Function.update l i l') = Function.update (phasesOf l) i l'.phase := by
  funext j
  by_cases hj : j = i
  · subst hj
    simp [phasesOf]
  · simp [phasesOf, hj]

theorem phasesOf_hold {x : Hold} :
    phasesOf (Function.update l i ((l i).hold b x)) = phasesOf l := by
  rw [phasesOf_update, Local.phase_hold]
  exact Function.update_eq_self i (phasesOf l)

theorem phasesOf_release : phasesOf (Function.update l i ((l i).release b)) = phasesOf l := by
  rw [phasesOf_update, Local.phase_release]
  exact Function.update_eq_self i (phasesOf l)

/-- `Inv` of the processes as they are described by `l`. -/
def Tied (s : System) (l : Nat → Local) : Prop := Inv s (holdsOf l) (phasesOf l)

variable {s s' : System}

theorem Tied.of_hold {x : Hold} (h : Inv s ((holdsOf l).set i b (some x)) (phasesOf l)) :
    Tied s (Function.update l i ((l i).hold b x)) := by
  rw [Tied, holdsOf_hold, phasesOf_hold]
  exact h

theorem Tied.of_enter {p : Phase} (h : Inv s (holdsOf l) (Function.update (phasesOf l) i p)) :
    Tied s (Function.update l i ((l i).enter p)) := by
  rw [Tied, holdsOf_enter, phasesOf_update]
  exact h

theorem lift_ok {α : Type} {x : StoreM α} {s : Store} {r : α × Store} (h : lift x s = .ok r) :
    x s = .ok r := by
  rw [lift] at h
  cases hx : x s with
  | error e =>
      rw [hx] at h
      cases h
  | ok r' =>
      rw [hx] at h
      cases h
      rfl

theorem Tied.endOp {store : Store} {last : Bool} {Q : Bool → Local → Prop} (h : Tied s l)
    (hi : (l i).phase = .inside) (hfalse : Q false ((l i).enter .outside))
    (htrue : ∀ lh, Q true ((l i).enter (.committing [] lh)))
    (hrun : Fs.endOp s.store = .ok (last, store)) :
    ∃ l', Tied { s with store := store } (Function.update l i l') ∧ Q last l' := by
  have hphase : phasesOf l i = .inside := hi
  have hoff : s.store.log.committing = false := by
    by_contra hcommitting
    have hzero := h.logging.quiet (by simpa using hcommitting)
    have hpos := h.logging.outstanding_pos hphase
    omega
  have hnot : ∀ installed rest, phasesOf l i ≠ .committing installed rest := by simp [hphase]
  rw [endOp_run hoff] at hrun
  by_cases hlast : s.store.log.outstanding - 1 = 0
  · rw [if_pos hlast] at hrun
    cases hrun
    refine ⟨_, Tied.of_enter (h.enter ?_ (h.logging.endLast hphase hlast) hnot ?_),
      htrue s.store.log.lh⟩
    · rfl
    · intro installed rest heq
      cases heq
      rfl
  · rw [if_neg hlast] at hrun
    cases hrun
    exact ⟨_, Tied.of_enter (h.enter rfl (h.logging.endOp hphase) hnot (by simp)), hfalse⟩

theorem Tied.act {sb : Superblock} {o : BufOp} {r : o.Res} {Q : o.Res → Local → Prop}
    (h : Tied s l) (hrule : rules o Q (l i))
    (hact : (machine sb FailedCopiesKeep).act i o s r s') :
    ∃ l', Tied s' (Function.update l i l') ∧ Q r l' := by
  obtain ⟨store, holder⟩ := s'
  obtain ⟨hready, hguard, hexec, hholder⟩ := hact
  cases hholder
  cases o with
  | bread b =>
      cases hexec
      have hfree : (l i).held b = none := h.locked.not_held hready i
      exact ⟨_, Tied.of_hold (h.bread hready), hrule hfree _⟩
  | store b data =>
      cases hexec
      exact ⟨_, Tied.of_hold (h.setData hrule.1 data), hrule.2⟩
  | copyin b data ok =>
      cases hexec
      cases ok with
      | true => exact ⟨_, Tied.of_hold (h.setData hrule.1 data), hrule.2⟩
      | false =>
          refine ⟨l i, ?_, hrule.2.2⟩
          rw [Function.update_eq_self]
          exact h.copyinFailed hrule.1 hrule.2.1 hguard
  | logWrite b => exact ⟨_, Tied.of_hold (h.logWrite hrule.1 (lift_ok hexec)), hrule.2⟩
  | brelse b =>
      cases hexec
      refine ⟨(l i).release b, ?_, hrule.2.2⟩
      rw [Tied, holdsOf_release, phasesOf_release]
      exact h.brelse hrule.1 hrule.2.1
  | bwrite b =>
      cases hexec
      exact ⟨_, Tied.of_hold (h.bwrite hrule.1), hrule.2⟩
  | bunpin b =>
      cases hexec
      obtain ⟨installed, rest, hheld, hphase, hQ⟩ := hrule
      exact ⟨_, Tied.of_enter (h.bunpin hheld hphase), hQ⟩
  | getLog =>
      cases hexec
      refine ⟨l i, ?_, hrule s.store.log fun installed rest hphase => (h.logging.commit hphase).2⟩
      rw [Function.update_eq_self]
      exact h
  | clearLog =>
      cases hexec
      obtain ⟨installed, hphase, hQ⟩ := hrule
      refine ⟨_, Tied.of_enter (h.finish hphase rfl (h.logging.clear hphase) ?_), hQ⟩
      intro installed' rest heq
      cases heq
      rfl
  | beginOp =>
      have hadmits : s.store.log.Admits := hready
      have hphase : phasesOf l i = .outside := hrule.1
      have hrun := lift_ok hexec
      rw [beginOp_run, if_pos hadmits] at hrun
      cases hrun
      exact ⟨_, Tied.of_enter (h.enter rfl (h.logging.beginOp hadmits hphase) (by simp [hphase])
        (by simp)), hrule.2⟩
  | endOp => exact h.endOp hrule.1 hrule.2.1 hrule.2.2 (lift_ok hexec)
  | endCommit =>
      cases hexec
      have hlh : s.store.log.lh = [] := (h.logging.commit hrule.1).2
      exact ⟨_, Tied.of_enter (h.finish hrule.1 hlh (h.logging.endCommit hrule.1) (by simp)),
        hrule.2⟩
  | fail e => cases hexec

end

def discipline (sb : Superblock) : Pool.Discipline (machine sb FailedCopiesKeep) Local where
  inv := Tied
  rules := rules
  idle := Local.Idle
  act_ok := Tied.act
  env_ok := by
    intro s s' l h henv
    obtain ⟨store, holder⟩ := s'
    obtain ⟨b, hrun, hholder⟩ := henv
    cases hholder
    exact h.recycle hrun
  start_ok := fun _ hidle hstart => begins_follows hstart hidle

/-! ## The beginning -/

section

variable {s : Store}

/-- Installing the log copies and writes: what readers see stays what is on the disk. -/
theorem installFrom_same {start tail : Nat} {bs : List Nat} (h : s.view = s.disk) :
    Total (Fs.installFrom true start tail bs) s fun _ s' =>
      s'.view = s'.disk ∧ s'.log = s.log := by
  induction bs generalizing s tail with
  | nil => exact Total.pure ⟨h, rfl⟩
  | cons b bs ih =>
      rw [Fs.installFrom]
      apply Total.bind_eq bread_run
      apply Total.bind_eq bread_run
      apply Total.bind_eq setData_run
      apply Total.bind_eq bwrite_run
      apply Total.bind_eq rfl
      apply Total.bind_eq brelse_run
      apply Total.bind_eq brelse_run
      generalize hs₁ : Store.setBuf _ b _ _ = s₁
      have hsame : s₁.view = s₁.disk := by
        subst hs₁
        simp [h]
      have hlog : s₁.log = s.log := by
        subst hs₁
        simp
      rw [← hlog]
      exact ih hsame

theorem writeHead_same (h : s.view = s.disk) :
    Total Fs.writeHead s fun _ s' => s'.view = s'.disk ∧ s'.log = s.log := by
  apply writeHead_spec.mono
  intro _ s' hs'
  refine ⟨?_, hs'.2⟩
  rw [hs'.1.view, hs'.1.disk, h]

theorem readHead_same (h : s.view = s.disk) : Total readHead s fun _ s' =>
    s'.view = s'.disk ∧ ∃ lh, s'.log = { s.log with lh := lh } := by
  rw [readHead]
  apply Total.bind_eq get_run
  apply Total.bind_eq bread_run
  apply Total.bind_eq rfl
  apply Total.of_eq brelse_run
  refine ⟨?_, _, rfl⟩
  rw [view_setBuf, Function.update_eq_self]
  exact (view_setBuf.trans (Function.update_eq_self _ _)).trans h

theorem recoverFromLog_same (h : s.view = s.disk) : Total recoverFromLog s fun _ s' =>
    s'.view = s'.disk ∧ s'.log = { s.log with lh := [] } := by
  rw [recoverFromLog]
  apply Total.bind (readHead_same h)
  intro _ s₁ hs₁
  obtain ⟨lh, hlog₁⟩ := hs₁.2
  have hinstall : Total (Fs.installTrans true) s₁ fun _ s' =>
      s'.view = s'.disk ∧ s'.log = s₁.log := by
    apply Total.bind_eq get_run
    exact installFrom_same hs₁.1
  apply Total.bind hinstall
  intro _ s₂ hs₂
  apply Total.bind_eq (a := ()) (t := { s₂ with log := { s₂.log with lh := [] } }) rfl
  have hsame : ({ s₂ with log := { s₂.log with lh := [] } } : Store).view = s₂.disk := hs₂.1
  apply (writeHead_same hsame).mono
  intro _ s' hs'
  refine ⟨hs'.1, ?_⟩
  rw [hs'.2]
  simp only [hs₂.2, hlog₁]

theorem fsinit_same (l : Log) (disk : Nat → Block) : Total fsinit (boot l disk) fun _ s' =>
    s'.view = s'.disk ∧ s'.log = { start := l.start, size := l.size } := by
  apply Total.bind_eq bread_run
  apply Total.bind_eq brelse_run
  have hboot : (boot l disk).view = disk := rfl
  apply recoverFromLog_same
  simp [hboot]
  rfl

end

theorem started_good {sb : Superblock} {l : Log} {disk : Nat → Block} {s₀ : Store}
    (h : fsinit (boot l disk) = .ok ((), s₀)) : (discipline sb).Good (started s₀) := by
  obtain ⟨_, s₁, hrun, hsame, hlog⟩ := fsinit_same l disk
  rw [h] at hrun
  cases hrun
  refine ⟨fun _ => { held := fun _ => none, phase := .outside }, ?_, fun _ => ⟨fun _ => rfl, rfl⟩⟩
  constructor
  case locked =>
    intro b i
    simp [started, holdsOf]
  case logging =>
    have hout : s₀.log.outstanding = 0 := by rw [hlog]
    have hlh : s₀.log.lh = [] := by rw [hlog]
    constructor
    case inside => exact ⟨[], List.nodup_nil, by simp [phasesOf], hout⟩
    case quiet => exact fun _ => hout
    case commit => simp [phasesOf]
    case alone => simp [phasesOf]
    case nodup =>
      rw [started, hlh]
      exact List.nodup_nil
  case contents =>
    constructor
    case settled =>
      intro b
      left
      exact congrFun hsame b
    case saved => simp [holdsOf]
    case installed => simp [phasesOf]
  case counted =>
    have hlh : s₀.log.lh = [] := by rw [hlog]
    constructor
    case lock => simp [started, lockRef]
    case pin =>
      intro b hb
      have hmem : b ∈ s₀.log.lh := hb.1
      rw [hlh] at hmem
      cases hmem

/-- While copies that fail keep the buffers as they were, the cache is coherent in every
state that any number of processes reach. -/
theorem cache_coherent (sb : Superblock) (l : Log) (disk : Nat → Block) (s : System)
    (h : Reaches sb FailedCopiesKeep l disk s) : Coherent s := by
  obtain ⟨s₀, c, hinit, hreach, rfl⟩ := h
  obtain ⟨_, hinv, _⟩ := (discipline sb).good_of_reachable (started_good hinit) hreach
  exact Inv.coherent hinv

/-! ## A write whose source is not mapped -/

section

variable {m : Pool.Machine System Nat BufOp BufOp.Res} {c₀ c : Pool System Nat BufOp BufOp.Res}

theorem reaches_act {o : BufOp} {next : o.Res → FsProg Unit} {r : o.Res} {s' : System}
    (hc : Pool.Reachable m c₀ c) (hthread : c.threads 0 = .act o next)
    (hact : m.act 0 o c.shared r s') :
    ∃ c', Pool.Reachable m c₀ c' ∧ c'.shared = s' ∧ c'.threads 0 = next r := by
  refine ⟨_, hc.step (.act hthread hact), rfl, ?_⟩
  exact Function.update_self 0 (next r) c.threads

def shortFile : Inode where
  inum := 2
  type := 2
  nlink := 1
  size := 2
  addrs := fun j => if j = 0 then 100 else 0

variable (sb : Superblock) (src : Source)

def writeTwo : Program FsCall FsCall.Res Unit :=
  .act (.writei shortFile src 0 2) fun _ => .ret ()

/-- What is left of the write when the buffer is released. -/
def writeRest : FsProg Unit := do
  iupdate sb (shortFile.withSize 2)
  endOp

theorem writeTwo_fails (h : (src.copyin 2).2 = false) :
    ((writeTwo src).expand (FsCall.code sb) >>= fun _ => endOp) = (do
      let data ← bread 100
      copyin 100 (putBytes data 0 (src.copyin 2).1) false
      brelse 100
      writeRest sb) := by
  have hbmap : bmap sb shortFile 0 = pure (shortFile, 100) := rfl
  have hchunk : chunk 2 0 = 2 := rfl
  have hwrite : writei sb shortFile src 0 2 = (do
      let data ← bread 100
      copyin 100 (putBytes data 0 (src.copyin 2).1) false
      brelse 100
      iupdate sb (shortFile.withSize 2)
      pure (shortFile.withSize 2, some 0)) := by
    rw [writei, if_neg (by simp), if_neg (by decide), writeLoop, dif_neg (by simp), Nat.zero_div,
      hbmap, hchunk, h]
    rfl
  change ((writei sb shortFile src 0 2 >>= fun _ => pure ()) >>= fun _ => endOp) = _
  rw [hwrite]
  rfl

/-- The state that the write reaches when it has released the buffer. -/
theorem writeTwo_reaches {guard : BufOp → Store → Prop} {l : Log} {disk : Nat → Block}
    {s₀ : Store} (hinit : fsinit (boot l disk) = .ok ((), s₀))
    (hcopy : (src.copyin 2).2 = false)
    (hguard : ∀ o s, (∀ b data, o = .copyin b data false →
      b = 100 ∧ data = putBytes (s.view 100) 0 (src.copyin 2).1) → guard o s) :
    ∃ s, Reaches sb guard l disk s ∧ s.holder 100 = none ∧ s.store.log.lh = [] ∧
      s.store.disk = s₀.disk ∧
      ∃ buf, s.store.cache 100 = some buf ∧
        buf.data = putBytes (s₀.view 100) 0 (src.copyin 2).1 := by
  obtain ⟨_, s₁, hrun, hsame, hlog⟩ := fsinit_same l disk
  rw [hinit] at hrun
  cases hrun
  have hidle : (started s₀).threads 0 = .ret () := rfl
  have hbegun := Pool.Reachable.init.step
    (Pool.Step.start (m := machine sb guard) hidle (Begins.transaction (writeTwo src)))
  have hfree : ∀ o s, (∀ b data, o ≠ .copyin b data false) → guard o s :=
    fun o s ho => hguard o s fun b data hdata => absurd hdata (ho b data)
  have hadmits : s₀.log.Admits := by
    rw [hlog]
    exact ⟨rfl, Nat.le_add_left 10 20⟩
  have hrun : Fs.beginOp s₀ = .ok (true,
      { s₀ with log := { s₀.log with outstanding := s₀.log.outstanding + 1 } }) := by
    rw [beginOp_run, if_pos hadmits]
  generalize ht : ({ s₀ with log := { s₀.log with outstanding := s₀.log.outstanding + 1 } } : Store)
    = t at hrun
  have hview : t.view = s₀.view := by rw [← ht, view_withLog]
  have hact₁ : (machine sb guard).act 0 .beginOp (started s₀).shared true
      { store := t, holder := fun _ => none } := by
    refine ⟨hadmits, hfree _ _ (by simp), ?_, rfl⟩
    change lift Fs.beginOp s₀ = _
    rw [lift, hrun]
    rfl
  obtain ⟨c₁, hc₁, hs₁, ht₁⟩ := reaches_act hbegun rfl hact₁
  have hact₂ : (machine sb guard).act 0 (.bread 100) c₁.shared (t.view 100)
      { store := t.setBuf 100 (t.view 100) (t.refcnt 100 + 1)
        holder := Function.update (fun _ => none) 100 (some 0) } := by
    rw [hs₁]
    exact ⟨rfl, hfree _ _ (by simp), rfl, rfl⟩
  obtain ⟨c₂, hc₂, hs₂, ht₂⟩ :=
    reaches_act hc₁ (ht₁.trans (writeTwo_fails sb src hcopy)) hact₂
  generalize hu : t.setBuf 100 (t.view 100) (t.refcnt 100 + 1) = u at hs₂
  have hviewu : u.view 100 = t.view 100 := by simp [← hu]
  have hact₃ : (machine sb guard).act 0
      (.copyin 100 (putBytes (t.view 100) 0 (src.copyin 2).1) false) c₂.shared ()
      { store := u.setBuf 100 (putBytes (t.view 100) 0 (src.copyin 2).1) (u.refcnt 100)
        holder := Function.update (fun _ => none) 100 (some 0) } := by
    rw [hs₂]
    refine ⟨trivial, hguard _ _ ?_, rfl, rfl⟩
    intro b data hdata
    injection hdata with hb hdata _
    rw [← hdata, hviewu]
    exact ⟨hb.symm, rfl⟩
  obtain ⟨c₃, hc₃, hs₃, ht₃⟩ := reaches_act hc₂ ht₂ hact₃
  generalize hv : u.setBuf 100 (putBytes (t.view 100) 0 (src.copyin 2).1) (u.refcnt 100) = v at hs₃
  have hact₄ : (machine sb guard).act 0 (.brelse 100) c₃.shared ()
      { store := v.setBuf 100 (v.view 100) (v.refcnt 100 - 1)
        holder := Function.update (Function.update (fun _ => none) 100 (some 0)) 100 none } := by
    rw [hs₃]
    exact ⟨rfl, hfree _ _ (by simp), rfl, rfl⟩
  obtain ⟨c₄, hc₄, hs₄, _⟩ := reaches_act hc₃ ht₃ hact₄
  refine ⟨_, ⟨s₀, c₄, hinit, hc₄, hs₄⟩, rfl, ?_, ?_,
    { data := v.view 100, refcnt := v.refcnt 100 - 1 }, rfl, ?_⟩
  · rw [log_setBuf, ← hv, log_setBuf, ← hu, log_setBuf, ← ht, hlog]
  · rw [disk_setBuf, ← hv, disk_setBuf, ← hu, disk_setBuf, ← ht]
  · rw [← hview]
    simp [← hv]

end

theorem putBytes_nil (blk : Block) (o : Nat) : putBytes blk o [] = blk := by
  funext i
  rw [putBytes, if_neg (by simp)]

/-! ## An image with one file -/

def imageLog : Log := { start := 2, size := 30 }

def imageSuperblock : Superblock :=
  { size := 2000, ninodes := 200, inodestart := 32, bmapstart := 45 }

def rootInode : Dinode where
  type := 1
  nlink := 1
  size := 48
  addrs := fun j => if j = 0 then 46 else 0

/-- `.`, `..` and `f`, which is `shortFile` -/
def rootEntries : Block := fun i =>
  if i = 0 ∨ i = 16 then 1 else if i = 32 then 2
  else if i = 2 ∨ i = 18 ∨ i = 19 then 46 else if i = 34 then 102 else 0

def imageDisk : Nat → Block := fun b =>
  if b = 1 then setWords zeroBlock 0 [0x10203040, 2000, 1954, 200, 30, 2, 32, 45]
  else if b = 32 then putDinode shortFile.toDinode 128 (putDinode rootInode 64 zeroBlock)
  else if b = 45 then fun i =>
    if i < 5 then 255 else if i = 5 then 127 else if i = 12 then 16 else 0
  else if b = 46 then rootEntries
  else zeroBlock

theorem fsinit_imageDisk : ∃ s₀, fsinit (boot imageLog imageDisk) = .ok ((), s₀) ∧
    s₀.disk 100 = zeroBlock ∧ s₀.view = s₀.disk := by
  have hempty : ∀ s : Store, s.view = s.disk → s.disk = imageDisk → s.log = imageLog →
      Total recoverFromLog s fun _ s' => s'.disk 100 = zeroBlock := by
    intro s hview hdisk hlog
    have hhead : headOf (s.disk s.log.start) = [] := by
      rw [hdisk, hlog]
      rfl
    apply (recoverFromLog_spec (fun b => congrFun hview b) (by simp [hhead])
      (by rw [hhead, hlog]; decide)).mono
    intro _ s' hs'
    obtain ⟨_, empty, _, hflushed⟩ := hs'
    rw [hflushed.disk, hhead, hlog, hdisk]
    rfl
  have hinit : Total fsinit (boot imageLog imageDisk) fun _ s' => s'.disk 100 = zeroBlock := by
    apply Total.bind_eq bread_run
    apply Total.bind_eq brelse_run
    have hboot : (boot imageLog imageDisk).view = imageDisk := rfl
    apply hempty
    case _ =>
      simp [hboot]
      rfl
    case _ => rfl
    case _ => rfl
  obtain ⟨_, s₀, hrun, hzero, hsame, _⟩ := hinit.and (fsinit_same imageLog imageDisk)
  exact ⟨s₀, hrun, hzero, hsame⟩

/-- One mapped page, and a buffer of two bytes that starts at its last byte. -/
def splitSource : Source :=
  .user (fun page => if page = 0 then some (fun _ => 7) else none) 4095

theorem copyin_splitSource : splitSource.copyin 2 = ([7], false) := by
  have hchunk : pageChunk 4095 2 = 1 := rfl
  have hfault : copyinUser (fun page => if page = 0 then some (fun _ => 7) else none) 4096 1 =
      ([], false) := by
    rw [copyinUser, dif_neg (by decide)]
    rfl
  have hnext : 4095 - 4095 % pgSize + pgSize = 4096 := rfl
  rw [splitSource, Source.copyin, copyinUser, dif_neg (by decide), hchunk, hnext, hfault]
  rfl

/-- A buffer in pages that are not mapped. -/
def unmappedSource : Source := .user (fun _ => none) 0

theorem copyin_unmappedSource : unmappedSource.copyin 2 = ([], false) := by
  rw [unmappedSource, Source.copyin, copyinUser, dif_neg (by decide)]

/-- The byte that was copied before the fault stays in the buffer, and the block is not
logged. -/
theorem cache_incoherent : ¬ ∀ sb l disk s,
    Reaches sb (fun _ _ => True) l disk s → Coherent s := by
  intro h
  obtain ⟨s₀, hinit, hzero, hsame⟩ := fsinit_imageDisk
  obtain ⟨s, hs, hfree, hlog, hdisk, buf, hbuf, hdata⟩ :=
    writeTwo_reaches imageSuperblock splitSource hinit (by rw [copyin_splitSource])
      (fun _ _ _ => trivial)
  have hcoherent := (h _ _ _ s hs).data 100 buf hbuf hfree (by simp [hlog])
  rw [hdata, hdisk, hsame, hzero, copyin_splitSource] at hcoherent
  have hbyte := congrFun hcoherent 0
  cases hbyte

/-- A copy that fails at its first byte. -/
theorem cache_coherent_unmapped : ∃ s,
    Reaches imageSuperblock FailedCopiesKeep imageLog imageDisk s ∧
    s.holder 100 = none ∧ Coherent s := by
  obtain ⟨s₀, hinit, _, _⟩ := fsinit_imageDisk
  have hkeep : ∀ o s, (∀ b data, o = .copyin b data false →
      b = 100 ∧ data = putBytes (s.view 100) 0 (unmappedSource.copyin 2).1) →
      FailedCopiesKeep o s := by
    intro o s ho
    cases o with
    | copyin b data ok =>
        cases ok with
        | true => exact trivial
        | false =>
            obtain ⟨rfl, hdata⟩ := ho b data rfl
            left
            rw [hdata, copyin_unmappedSource, putBytes_nil]
    | _ => exact trivial
  obtain ⟨s, hs, hfree, _⟩ := writeTwo_reaches imageSuperblock unmappedSource hinit
    (by rw [copyin_unmappedSource]) hkeep
  exact ⟨s, hs, hfree, cache_coherent _ _ _ s hs⟩

end SyscallSched.Xv6.Fs.Code.Sharing
