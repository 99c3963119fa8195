import SyscallSched.Xv6.Fs.Processes

/-!
# What processes do with their buffers

`Local` is what one process knows: the buffers that it holds and where it is with respect
to the log.  A buffer that the kernel changed is logged or written out before it is
released; `rules` asks this of every operation.  Every function of `fs.c` follows the
rules and returns with the buffers that it was called with.
-/

namespace SyscallSched.Xv6.Fs.Code.Sharing

open SyscallSched.Foundation SyscallSched.Xv6.Fs

/-- The contents of a buffer in the hands of a process. -/
inductive Hold where
  /-- as on the disk, or in the current transaction -/
  | clean
  | dirty
  /-- as on the disk -/
  | written

inductive Phase where
  | outside
  | inside
  /-- in `commit`: the blocks of the log that are installed, and the others -/
  | committing (installed rest : List Nat)

structure Local where
  held : Nat → Option Hold
  phase : Phase

namespace Local

def hold (l : Local) (b : Nat) (h : Hold) : Local :=
  { l with held := Function.update l.held b (some h) }

def release (l : Local) (b : Nat) : Local := { l with held := Function.update l.held b none }

def enter (l : Local) (p : Phase) : Local := { l with phase := p }

def Idle (l : Local) : Prop := (∀ b, l.held b = none) ∧ l.phase = .outside

variable {l : Local} {b c : Nat} {h h' : Hold} {p : Phase}

@[simp] theorem held_hold : (l.hold b h).held = Function.update l.held b (some h) := rfl

@[simp] theorem phase_hold : (l.hold b h).phase = l.phase := rfl

@[simp] theorem held_release : (l.release b).held = Function.update l.held b none := rfl

@[simp] theorem phase_release : (l.release b).phase = l.phase := rfl

@[simp] theorem held_enter : (l.enter p).held = l.held := rfl

@[simp] theorem phase_enter : (l.enter p).phase = p := rfl

@[simp] theorem hold_hold : (l.hold b h).hold b h' = l.hold b h' := by
  simp [hold]

theorem hold_comm (hbc : b ≠ c) : (l.hold b h).hold c h' = (l.hold c h').hold b h := by
  simp only [hold]
  rw [Function.update_comm hbc]

theorem release_hold (hb : l.held b = none) : (l.hold b h).release b = l := by
  have hupdate : Function.update l.held b none = l.held := by
    rw [← hb, Function.update_eq_self]
  simp [hold, release, hupdate]

theorem enter_hold : (l.hold b h).enter p = (l.enter p).hold b h := rfl

@[simp] theorem enter_enter {q : Phase} : (l.enter p).enter q = l.enter q := rfl

theorem enter_self (hp : l.phase = p) : l.enter p = l := by
  rw [← hp]
  rfl

end Local

def rules : Program.Rules Local BufOp.Res
  | .bread b, Q, l => l.held b = none → ∀ data, Q data (l.hold b .clean)
  | .store b _, Q, l => l.held b ≠ none ∧ Q () (l.hold b .dirty)
  | .copyin b _ true, Q, l => l.held b ≠ none ∧ Q () (l.hold b .dirty)
  | .copyin b _ false, Q, l => l.held b = some .clean ∧ l.phase = .inside ∧ Q () l
  | .logWrite b, Q, l => l.held b ≠ none ∧ Q () (l.hold b .clean)
  | .brelse b, Q, l => l.held b ≠ none ∧ l.held b ≠ some .dirty ∧ Q () (l.release b)
  | .bwrite b, Q, l => l.held b ≠ none ∧ Q () (l.hold b .written)
  | .bunpin b, Q, l => ∃ installed rest, l.held b = some .written ∧
      l.phase = .committing installed (b :: rest) ∧
      Q () (l.enter (.committing (installed ++ [b]) rest))
  | .getLog, Q, l => ∀ log : Log, (∀ installed rest,
      l.phase = .committing installed rest → log.lh = installed ++ rest) → Q log l
  | .clearLog, Q, l => ∃ installed, l.phase = .committing installed [] ∧
      Q () (l.enter (.committing [] []))
  | .beginOp, Q, l => l.phase = .outside ∧ Q true (l.enter .inside)
  | .endOp, Q, l => l.phase = .inside ∧ Q false (l.enter .outside) ∧
      ∀ lh, Q true (l.enter (.committing [] lh))
  | .endCommit, Q, l => l.phase = .committing [] [] ∧ Q () (l.enter .outside)
  | .fail _, _, _ => True

/-- `p` takes a process from `l` to `l'`. -/
abbrev Leads {α : Type} (p : FsProg α) (l l' : Local) : Prop := Program.Leads rules p l l'

/-! ## Single operations -/

section

variable {α : Type} {l l' : Local} {b : Nat} {data : Block} {f : Unit → FsProg α}

theorem leads_bread {f : Block → FsProg α}
    (h : l.held b = none → ∀ data, Leads (f data) (l.hold b .clean) l') :
    Leads (bread b >>= f) l l' := by
  intro Q hQ hfree data
  exact h hfree data Q hQ

theorem leads_store {hold : Hold} (h : Leads (f ()) (l.hold b .dirty) l') :
    Leads (store b data >>= f) (l.hold b hold) l' := by
  intro Q hQ
  refine ⟨by simp, ?_⟩
  rw [Local.hold_hold]
  exact h Q hQ

theorem leads_logWrite {hold : Hold} (h : Leads (f ()) (l.hold b .clean) l') :
    Leads (logWrite b >>= f) (l.hold b hold) l' := by
  intro Q hQ
  refine ⟨by simp, ?_⟩
  rw [Local.hold_hold]
  exact h Q hQ

theorem leads_copyin {hold : Hold} (h : Leads (f ()) (l.hold b .dirty) l') :
    Leads (copyin b data true >>= f) (l.hold b hold) l' := by
  intro Q hQ
  refine ⟨by simp, ?_⟩
  rw [Local.hold_hold]
  exact h Q hQ

theorem leads_copyin_failed (hl : l.phase = .inside) (h : Leads (f ()) (l.hold b .clean) l') :
    Leads (copyin b data false >>= f) (l.hold b .clean) l' := by
  intro Q hQ
  exact ⟨by simp, hl, h Q hQ⟩

theorem leads_bunpin {installed rest : List Nat} (hl : l.phase = .committing installed (b :: rest))
    (h : Leads (f ()) ((l.enter (.committing (installed ++ [b]) rest)).hold b .written) l') :
    Leads (bunpin b >>= f) (l.hold b .written) l' := by
  intro Q hQ
  exact ⟨installed, rest, by simp, hl, h Q hQ⟩

theorem leads_clearLog {installed : List Nat} (hl : l.phase = .committing installed [])
    (h : Leads (f ()) (l.enter (.committing [] [])) l') : Leads (clearLog >>= f) l l' := by
  intro Q hQ
  exact ⟨installed, hl, h Q hQ⟩

theorem leads_bwrite {hold : Hold} (h : Leads (f ()) (l.hold b .written) l') :
    Leads (bwrite b >>= f) (l.hold b hold) l' := by
  intro Q hQ
  refine ⟨by simp, ?_⟩
  rw [Local.hold_hold]
  exact h Q hQ

theorem leads_brelse {hold : Hold} (hb : l.held b = none) (hclean : hold ≠ .dirty)
    (h : Leads (f ()) l l') : Leads (brelse b >>= f) (l.hold b hold) l' := by
  intro Q hQ
  refine ⟨by simp, by simpa using hclean, ?_⟩
  rw [Local.release_hold hb]
  exact h Q hQ

/-- `brelse` at the end of a function. -/
theorem leads_brelse_last (hb : l.held b = none) : Leads (brelse b) (l.hold b .clean) l :=
  leads_brelse (f := pure) hb (by simp) (Program.Leads.pure () l)

theorem leads_fail (e : FsError) : Leads (fail e : FsProg α) l l' := fun _ _ => trivial

end

/-! ## Blocks and inodes -/

section

variable {l : Local} (sb : Superblock)

theorem bzero_leads (bno : Nat) : Leads (bzero bno) l l := by
  apply leads_bread
  intro hfree data
  apply leads_store
  apply leads_logWrite
  exact leads_brelse_last hfree

theorem ballocFrom_leads (bs : List Nat) : Leads (ballocFrom sb bs) l l := by
  induction bs with
  | nil => exact Program.Leads.pure 0 l
  | cons b bs ih =>
      apply leads_bread
      intro hfree data
      cases hfind : findFree sb data b with
      | none =>
          rw [ballocBlock_none hfind]
          exact leads_brelse hfree (by simp) ih
      | some bi =>
          rw [ballocBlock_some hfind]
          apply leads_store
          apply leads_logWrite
          apply leads_brelse hfree (by simp)
          exact (bzero_leads (b + bi)).bind fun _ => Program.Leads.pure _ l

theorem balloc_leads : Leads (balloc sb) l l := ballocFrom_leads sb _

theorem bfree_leads (b : Nat) : Leads (bfree sb b) l l := by
  apply leads_bread
  intro hfree data
  by_cases hbit : bitAt data (b % bpb) = true
  · rw [if_pos hbit]
    apply leads_store
    apply leads_logWrite
    exact leads_brelse_last hfree
  · rw [if_neg hbit]
    exact leads_fail _

theorem iupdate_leads (ip : Inode) : Leads (iupdate sb ip) l l := by
  apply leads_bread
  intro hfree data
  apply leads_store
  apply leads_logWrite
  exact leads_brelse_last hfree

theorem readInode_leads (inum : Nat) : Leads (readInode sb inum) l l := by
  apply leads_bread
  intro hfree data
  apply leads_brelse hfree (by simp)
  by_cases htype : (getDinode data (inodeOffset inum)).type = 0
  · rw [if_pos htype]
    exact leads_fail _
  · rw [if_neg htype]
    exact Program.Leads.pure _ l

theorem iallocFrom_leads (type : Nat) (inums : List Nat) :
    Leads (iallocFrom sb type inums) l l := by
  induction inums with
  | nil => exact Program.Leads.pure 0 l
  | cons inum inums ih =>
      apply leads_bread
      intro hfree data
      by_cases htype : (getDinode data (inodeOffset inum)).type = 0
      · rw [if_pos htype]
        apply leads_store
        apply leads_logWrite
        exact leads_brelse hfree (by simp) (Program.Leads.pure _ l)
      · rw [if_neg htype]
        exact leads_brelse hfree (by simp) ih

/-! ## Inode content -/

theorem allocAddr_leads (ip : Inode) (j : Nat) : Leads (allocAddr sb ip j) l l := by
  rw [allocAddr]
  by_cases haddr : ip.addrs j = 0
  · rw [if_pos haddr]
    apply (balloc_leads sb).bind
    intro addr
    by_cases hnone : addr = 0
    · rw [if_pos hnone]
      exact Program.Leads.pure _ l
    · rw [if_neg hnone]
      exact Program.Leads.pure _ l
  · rw [if_neg haddr]
    exact Program.Leads.pure _ l

theorem bmapEntry_leads (x bn : Nat) : Leads (bmapEntry sb x bn) l l := by
  apply leads_bread
  intro hfree a
  by_cases hentry : a.word bn = 0
  · rw [if_pos hentry]
    -- the indirect block stays locked while `balloc` runs
    apply (balloc_leads sb).bind
    intro addr
    by_cases hnone : addr = 0
    · rw [if_pos hnone]
      exact leads_brelse hfree (by simp) (Program.Leads.pure _ l)
    · rw [if_neg hnone]
      apply leads_store
      apply leads_logWrite
      exact leads_brelse hfree (by simp) (Program.Leads.pure _ l)
  · rw [if_neg hentry]
    exact leads_brelse hfree (by simp) (Program.Leads.pure _ l)

theorem bmapIndirect_leads (ip : Inode) (bn : Nat) : Leads (bmapIndirect sb ip bn) l l := by
  apply (allocAddr_leads sb ip ndirect).bind
  intro r
  by_cases hnone : r.2 = 0
  · rw [if_pos hnone]
    exact Program.Leads.pure _ l
  · rw [if_neg hnone]
    exact (bmapEntry_leads sb r.2 bn).bind fun _ => Program.Leads.pure _ l

theorem bmap_leads (ip : Inode) (bn : Nat) : Leads (bmap sb ip bn) l l := by
  rw [bmap]
  by_cases hdirect : bn < ndirect
  · rw [if_pos hdirect]
    exact allocAddr_leads sb ip bn
  · rw [if_neg hdirect]
    by_cases hindirect : bn - ndirect < nindirect
    · rw [if_pos hindirect]
      exact bmapIndirect_leads sb ip (bn - ndirect)
    · rw [if_neg hindirect]
      exact leads_fail _

theorem freeDirect_leads (is : List Nat) (ip : Inode) : Leads (freeDirect sb is ip) l l := by
  induction is generalizing ip with
  | nil => exact Program.Leads.pure ip l
  | cons i is ih =>
      rw [freeDirect]
      by_cases haddr : ip.addrs i = 0
      · rw [if_pos haddr]
        exact ih ip
      · rw [if_neg haddr]
        exact (bfree_leads sb _).bind fun _ => ih _

theorem freeEntries_leads (a : Block) (js : List Nat) : Leads (freeEntries sb a js) l l := by
  induction js with
  | nil => exact Program.Leads.pure () l
  | cons j js ih =>
      rw [freeEntries]
      by_cases hentry : a.word j = 0
      · rw [if_pos hentry]
        exact ih
      · rw [if_neg hentry]
        exact (bfree_leads sb _).bind fun _ => ih

theorem freeIndirect_leads (ip : Inode) : Leads (freeIndirect sb ip) l l := by
  rw [freeIndirect]
  by_cases haddr : ip.addrs ndirect = 0
  · rw [if_pos haddr]
    exact Program.Leads.pure ip l
  · rw [if_neg haddr]
    apply leads_bread
    intro hfree a
    apply (freeEntries_leads sb a _).bind
    intro _
    apply leads_brelse hfree (by simp)
    exact (bfree_leads sb _).bind fun _ => Program.Leads.pure _ l

theorem itrunc_leads (ip : Inode) : Leads (itrunc sb ip) l l := by
  apply (freeDirect_leads sb _ ip).bind
  intro ip₁
  apply (freeIndirect_leads sb ip₁).bind
  intro ip₂
  exact (iupdate_leads sb _).bind fun _ => Program.Leads.pure _ l

/-! ## Reading and writing -/

theorem readLoop_leads (copyout : Nat → Nat → Bool) (ip : Inode) (dst off left : Nat) :
    Leads (readLoop sb copyout ip dst off left) l l := by
  induction ip, dst, off, left using readLoop.induct with
  | case1 ip dst off =>
      rw [readLoop, dif_pos rfl]
      exact Program.Leads.pure _ l
  | case2 ip dst off left hleft ih =>
      rw [readLoop, dif_neg hleft]
      apply (bmap_leads sb ip _).bind
      intro r
      by_cases hnone : r.2 = 0
      · rw [if_pos hnone]
        exact Program.Leads.pure _ l
      · rw [if_neg hnone]
        apply leads_bread
        intro hfree data
        apply leads_brelse hfree (by simp)
        by_cases hcopy : copyout dst (chunk left off) = true
        · rw [if_pos hcopy]
          exact (ih r hnone).bind fun _ => Program.Leads.pure _ l
        · rw [if_neg hcopy]
          exact Program.Leads.pure _ l

theorem readi_leads (copyout : Nat → Nat → Bool) (ip : Inode) (dst off n : Nat) :
    Leads (readi sb copyout ip dst off n) l l := by
  rw [readi]
  by_cases hrange : ip.size < off ∨ (off + n) % 2 ^ 32 < off
  · rw [if_pos hrange]
    exact Program.Leads.pure _ l
  · rw [if_neg hrange]
    exact readLoop_leads sb copyout ip dst off _

/-- In a transaction a copy may fail. -/
theorem writeLoop_leads (hl : l.phase = .inside) (ip : Inode) (src : Source) (off left : Nat) :
    Leads (writeLoop sb ip src off left) l l := by
  induction ip, src, off, left using writeLoop.induct with
  | case1 ip src off =>
      rw [writeLoop, dif_pos rfl]
      exact Program.Leads.pure _ l
  | case2 ip src off left hleft ih =>
      rw [writeLoop, dif_neg hleft]
      apply (bmap_leads sb ip _).bind
      intro r
      by_cases hnone : r.2 = 0
      · rw [if_pos hnone]
        exact Program.Leads.pure _ l
      · rw [if_neg hnone]
        apply leads_bread
        intro hfree data
        cases hcopy : (src.copyin (chunk left off)).2 with
        | true =>
            apply leads_copyin
            rw [if_pos rfl]
            apply leads_logWrite
            exact leads_brelse hfree (by simp) (ih r hnone)
        | false =>
            apply leads_copyin_failed hl
            rw [if_neg (by simp)]
            exact leads_brelse hfree (by simp) (Program.Leads.pure _ l)

theorem writei_leads (hl : l.phase = .inside) (ip : Inode) (src : Source) (off n : Nat) :
    Leads (writei sb ip src off n) l l := by
  rw [writei]
  by_cases hrange : ip.size < off ∨ (off + n) % 2 ^ 32 < off
  · rw [if_pos hrange]
    exact Program.Leads.pure _ l
  · rw [if_neg hrange]
    by_cases hlarge : maxFile * bsize < (off + n) % 2 ^ 32
    · rw [if_pos hlarge]
      exact Program.Leads.pure _ l
    · rw [if_neg hlarge]
      apply (writeLoop_leads sb hl ip src off n).bind
      intro r
      exact (iupdate_leads sb _).bind fun _ => Program.Leads.pure _ l

theorem readCall_leads (c : ReadCall) : Leads (c.code sb) l l := by
  cases c with
  | ilock inum => exact readInode_leads sb inum
  | readi copyout ip dst off n => exact readi_leads sb copyout ip dst off n

theorem fsCall_leads (hl : l.phase = .inside) (c : FsCall) : Leads (c.code sb) l l := by
  cases c with
  | read c => exact readCall_leads sb c
  | balloc => exact balloc_leads sb
  | bfree b => exact bfree_leads sb b
  | ialloc type => exact iallocFrom_leads sb type _
  | iupdate ip => exact iupdate_leads sb ip
  | bmap ip bn => exact bmap_leads sb ip bn
  | itrunc ip => exact itrunc_leads sb ip
  | writei ip src off n => exact writei_leads sb hl ip src off n

end

/-! ## Committing -/

section

variable {l : Local}

theorem leads_getLog {α : Type} {f : Log → FsProg α} {installed rest : List Nat} {l' : Local}
    (hl : l.phase = .committing installed rest)
    (h : ∀ log : Log, log.lh = installed ++ rest → Leads (f log) l l') :
    Leads (getLog >>= f) l l' := by
  intro Q hQ log hlog
  exact h log (hlog installed rest hl) Q hQ

theorem writeHead_leads {installed rest : List Nat} (hl : l.phase = .committing installed rest) :
    Leads writeHead l l := by
  apply leads_getLog hl
  intro log _
  apply leads_bread
  intro hfree data
  apply leads_store
  apply leads_bwrite
  exact leads_brelse (f := pure) hfree (by simp) (Program.Leads.pure () l)

/-- A block that is read while another one is held is another block. -/
theorem ne_of_held_hold {b c : Nat} {h : Hold} (hc : (l.hold b h).held c = none) :
    b ≠ c ∧ l.held c = none := by
  by_cases hbc : c = b
  · subst hbc
    simp at hc
  · rw [Local.held_hold, Function.update_of_ne hbc] at hc
    exact ⟨fun heq => hbc heq.symm, hc⟩

theorem writeLogFrom_leads (start tail : Nat) (bs : List Nat) :
    Leads (writeLogFrom start tail bs) l l := by
  induction bs generalizing tail with
  | nil => exact Program.Leads.pure () l
  | cons b bs ih =>
      apply leads_bread
      intro hto _
      apply leads_bread
      intro hfrom frm
      obtain ⟨hne, hb⟩ := ne_of_held_hold hfrom
      rw [Local.hold_comm hne]
      apply leads_store
      apply leads_bwrite
      rw [← Local.hold_comm hne]
      apply leads_brelse (by simp [hne.symm, hb]) (by simp)
      exact leads_brelse hto (by simp) (ih (tail + 1))

theorem installFrom_leads (start tail : Nat) (bs : List Nat) {installed : List Nat}
    (hl : l.phase = .committing installed bs) :
    Leads (installFrom start tail bs) l (l.enter (.committing (installed ++ bs) [])) := by
  induction bs generalizing l tail installed with
  | nil =>
      rw [List.append_nil, Local.enter_self hl]
      exact Program.Leads.pure () l
  | cons b bs ih =>
      apply leads_bread
      intro hlog lbuf
      apply leads_bread
      intro hdst _
      obtain ⟨hne, hb⟩ := ne_of_held_hold hdst
      apply leads_store
      apply leads_bwrite
      have hphase : (l.hold (start + tail + 1) .clean).phase =
          .committing installed (b :: bs) := hl
      apply leads_bunpin hphase
      rw [Local.enter_hold, Local.hold_comm hne]
      apply leads_brelse (by simp [hne, hlog]) (by simp)
      apply leads_brelse (by simp [hb]) (by simp)
      have hrest := ih (l := l.enter (.committing (installed ++ [b]) bs)) (tail + 1) rfl
      rw [List.append_assoc] at hrest
      exact hrest

theorem commit_leads {lh : List Nat} (hl : l.phase = .committing [] lh) :
    Leads commit l (l.enter (.committing [] [])) := by
  apply leads_getLog hl
  intro log hlog
  by_cases hlh : 0 < log.lh.length
  · rw [if_pos hlh]
    have hwrite : Leads writeLog l l := leads_getLog hl fun _ _ => writeLogFrom_leads _ _ _
    apply hwrite.bind
    intro _
    apply (writeHead_leads hl).bind
    intro _
    have hinstall : Leads installTrans l (l.enter (.committing lh [])) := by
      apply leads_getLog hl
      intro log' hlog'
      rw [hlog']
      exact installFrom_leads _ 0 lh hl
    apply hinstall.bind
    intro _
    apply leads_clearLog rfl
    exact writeHead_leads rfl
  · rw [if_neg hlh]
    have hnil : lh = [] := by
      rw [hlog] at hlh
      simpa using hlh
    subst hnil
    rw [Local.enter_self hl]
    exact Program.Leads.pure () l

theorem endOp_leads (hl : l.phase = .inside) : Leads endOp l (l.enter .outside) := by
  intro Q hQ
  refine ⟨hl, hQ (), ?_⟩
  intro lh
  have hcommit : Leads (commit >>= fun _ => endCommit) (l.enter (.committing [] lh))
      (l.enter .outside) := by
    apply (commit_leads rfl).bind
    intro _ Q' hQ'
    exact ⟨rfl, hQ' ()⟩
  exact hcommit Q hQ

end

/-- Whatever a process begins follows the rules, and the process is idle again afterwards. -/
theorem begins_follows {sb : Superblock} {p : FsProg Unit} {l : Local} (hp : Begins sb p)
    (hl : l.Idle) : Program.wp rules p (fun _ => Local.Idle) l := by
  cases hp with
  | transaction body =>
      have hbody : Leads (body.expand (FsCall.code sb)) (l.enter .inside) (l.enter .inside) :=
        Program.Leads.expand (fsCall_leads sb rfl) body
      have hend : Leads endOp (l.enter .inside) (l.enter .outside) := endOp_leads rfl
      refine ⟨hl.2, hbody.bind (fun _ => hend) _ ?_⟩
      intro _
      exact ⟨hl.1, rfl⟩
  | reading body => exact Program.Leads.expand (readCall_leads sb) body _ fun _ => hl

end SyscallSched.Xv6.Fs.Code.Sharing
