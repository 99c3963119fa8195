import SyscallSched.Xv6.Fs.Effect

/-!
# What the functions of `fs.c` do to the blocks

The functions below look only at what readers see, so `Does` states what they do in
these terms alone.  Of the log only an invariant is kept; it may stop any of them with
a panic of its own.
-/

namespace SyscallSched.Xv6.Fs.Code

open SyscallSched.Foundation SyscallSched.Xv6.Fs

variable {α β : Type}

structure Terms where
  error : FsError → Prop
  log : Log → Prop

structure Terms.Logs (E : Terms) (D : Nat → Prop) : Prop where
  panic : ∀ p, E.error (.log p)
  append : ∀ l b, E.log l → ¬ l.Full → D b → E.log { l with lh := l.lh ++ [b] }

theorem Terms.Logs.absorbs {E : Terms} {D : Nat → Prop} (hE : E.Logs D) {l : Log}
    {bs : List Nat} (h : E.log l) (htakes : Log.Takes l bs) (hD : ∀ b ∈ bs, D b) :
    E.log (bs.foldl Log.absorb l) := by
  induction bs generalizing l with
  | nil => exact h
  | cons b bs ih =>
      apply ih ?_ htakes.2 fun c hc => hD c (List.mem_cons_of_mem b hc)
      by_cases hb : b ∈ l.lh
      · simpa [Log.absorb, hb] using h
      · simpa [Log.absorb, hb] using hE.append l b h htakes.1.1 (hD b List.mem_cons_self)

/-- Where readers see `v`, `p` leaves `Q` within the terms `E`. -/
def Does (E : Terms) (p : FsProg α) (v : Nat → Block)
    (Q : α → (Nat → Block) → Prop) : Prop :=
  ∀ s : Store, s.view = v → E.log s.log →
    Ensures E.error (run p) s fun a s' => Q a s'.view ∧ E.log s'.log

namespace Does

variable {E : Terms} {p : FsProg α} {f : α → FsProg β} {v : Nat → Block}

theorem pure {a : α} {Q : α → (Nat → Block) → Prop} (h : Q a v) :
    Does E (Pure.pure a) v Q := by
  intro s hs hlog
  apply Ensures.pure
  rw [hs]
  exact ⟨h, hlog⟩

theorem bind {P : α → (Nat → Block) → Prop} {Q : β → (Nat → Block) → Prop}
    (hp : Does E p v P) (hf : ∀ a v', P a v' → Does E (f a) v' Q) : Does E (p >>= f) v Q := by
  intro s hs hlog
  rw [run_bind]
  apply (hp s hs hlog).bind
  intro a s' ha
  exact hf a s'.view ha.1 s' rfl ha.2

theorem imp {P Q : α → (Nat → Block) → Prop} (hp : Does E p v P)
    (hPQ : ∀ a v', P a v' → Q a v') : Does E p v Q := by
  intro s hs hlog
  apply (hp s hs hlog).imp
  intro a s' ha
  exact ⟨hPQ a s'.view ha.1, ha.2⟩

theorem of_performs {D : Nat → Prop} (hE : E.Logs D)
    {Q : α → (Nat → Block) → List Nat → Prop} (h : Performs p v Q)
    (hD : ∀ a v' bs, Q a v' bs → ∀ b ∈ bs, D b) :
    Does E p v fun a v' => ∃ bs, Q a v' bs := by
  intro s hs hlog
  obtain ⟨a, v', bs, hQ, hruns⟩ := h.runs hs
  cases hruns with
  | inl hok =>
      obtain ⟨htakes, s', hrun, hview, hlog'⟩ := hok
      apply Ensures.of_eq hrun
      rw [hview, hlog']
      exact ⟨⟨bs, hQ⟩, hE.absorbs hlog htakes (hD a v' bs hQ)⟩
  | inr hpanic =>
      obtain ⟨-, e, hrun⟩ := hpanic
      exact Ensures.of_error hrun (hE.panic e)

end Does

/-! ## Single operations -/

section

variable {E : Terms} {v : Nat → Block} {b : Nat} {data : Block}

theorem Does.of_run {p : FsProg α} {a : α} {v' : Nat → Block} {Q : α → (Nat → Block) → Prop}
    (hrun : ∀ s : Store, s.view = v →
      ∃ s', run p s = .ok (a, s') ∧ s'.view = v' ∧ s'.log = s.log)
    (h : Q a v') : Does E p v Q := by
  intro s hs hlog
  obtain ⟨s', hs', hview, hlog'⟩ := hrun s hs
  apply Ensures.of_eq hs'
  rw [hview, hlog']
  exact ⟨h, hlog⟩

theorem bread_does {Q : Block → (Nat → Block) → Prop} (h : Q (v b) v) :
    Does E (bread b) v Q := by
  apply Does.of_run _ h
  intro s hs
  refine ⟨s.setBuf b (s.view b) (s.refcnt b + 1), ?_, ?_, rfl⟩
  · rw [bread, run_op, ← hs]
    rfl
  · rw [view_setBuf, Function.update_eq_self, hs]

theorem store_does {Q : Unit → (Nat → Block) → Prop} (h : Q () (Function.update v b data)) :
    Does E (store b data) v Q := by
  apply Does.of_run _ h
  intro s hs
  refine ⟨s.setBuf b data (s.refcnt b), ?_, ?_, rfl⟩
  · rw [store, run_op]
    rfl
  · rw [view_setBuf, hs]

theorem brelse_does {Q : Unit → (Nat → Block) → Prop} (h : Q () v) :
    Does E (brelse b) v Q := by
  apply Does.of_run _ h
  intro s hs
  refine ⟨s.setBuf b (s.view b) (s.refcnt b - 1), ?_, ?_, rfl⟩
  · rw [brelse, run_op]
    rfl
  · rw [view_setBuf, Function.update_eq_self, hs]

variable {D : Nat → Prop}

theorem logWrite_does (hE : E.Logs D) (hb : D b) {Q : Unit → (Nat → Block) → Prop}
    (h : Q () v) : Does E (logWrite b) v Q := by
  intro s hs hok
  have hrun : run (logWrite b) s = (Fs.logWrite b s).mapError .log := by
    rw [logWrite, run_op]
    rfl
  cases hlog : Fs.logWrite b s with
  | error e =>
      rw [hlog] at hrun
      exact Ensures.of_error hrun (hE.panic e)
  | ok r =>
      rw [hlog] at hrun
      apply Ensures.of_eq hrun
      have hlog' : Fs.logWrite b s = .ok ((), r.2) := hlog
      obtain ⟨_, hview, hlh, _⟩ := logWrite_effect hlog'
      rw [hview, hs, hlh]
      refine ⟨h, ?_⟩
      by_cases hmem : b ∈ s.log.lh
      · rw [if_pos hmem]
        exact hok
      · rw [if_neg hmem]
        exact hE.append s.log b hok (logWrite_ok hlog').1 hb

theorem fail_does {e : FsError} {Q : α → (Nat → Block) → Prop} (h : E.error e) :
    Does E (fail e) v Q := by
  intro s _ _
  have hrun : run (fail e : FsProg α) s = .error e := rfl
  exact Ensures.of_error hrun h

variable {f : Unit → FsProg β} {Q : β → (Nat → Block) → Prop}

theorem bread_bind {f : Block → FsProg β} (h : Does E (f (v b)) v Q) :
    Does E (bread b >>= f) v Q := by
  apply (bread_does (Q := fun a v' => a = v b ∧ v' = v) ⟨rfl, rfl⟩).bind
  intro a v' ha
  rw [ha.1, ha.2]
  exact h

theorem store_bind (h : Does E (f ()) (Function.update v b data) Q) :
    Does E (store b data >>= f) v Q := by
  apply (store_does (Q := fun _ v' => v' = Function.update v b data) rfl).bind
  intro _ v' hv'
  rw [hv']
  exact h

theorem logWrite_bind (hE : E.Logs D) (hb : D b) (h : Does E (f ()) v Q) :
    Does E (logWrite b >>= f) v Q := by
  apply (logWrite_does hE hb (Q := fun _ v' => v' = v) rfl).bind
  intro _ v' hv'
  rw [hv']
  exact h

theorem brelse_bind (h : Does E (f ()) v Q) : Does E (brelse b >>= f) v Q := by
  apply (brelse_does (Q := fun _ v' => v' = v) rfl).bind
  intro _ v' hv'
  rw [hv']
  exact h

end

/-! ## The layout of the disk -/

/-- The first data block: after the bitmap. -/
def Superblock.dataStart (sb : Superblock) : Nat := sb.bmapstart + (sb.size / bpb + 1)

/-- The inode blocks come before the bitmap, and block numbers are 32-bit numbers. -/
structure Superblock.Laid (sb : Superblock) : Prop where
  inodes : sb.inodestart + (sb.ninodes / ipb + 1) ≤ sb.bmapstart
  size : sb.size < 2 ^ 32

section

variable {sb : Superblock} {b i : Nat}

theorem bblock_ge (sb : Superblock) (b : Nat) : sb.bmapstart ≤ sb.bblock b := Nat.le_add_left _ _

theorem bblock_lt (h : b < sb.size) : sb.bblock b < sb.dataStart := by
  have hdiv : b / bpb ≤ sb.size / bpb := Nat.div_le_div_right (Nat.le_of_lt h)
  rw [Superblock.bblock, Superblock.dataStart]
  omega

theorem iblock_lt (hl : sb.Laid) (h : i < sb.ninodes) : sb.iblock i < sb.bmapstart := by
  have hdiv : i / ipb ≤ sb.ninodes / ipb := Nat.div_le_div_right (Nat.le_of_lt h)
  have hinodes := hl.inodes
  rw [Superblock.iblock]
  omega

theorem bmapstart_lt_dataStart (sb : Superblock) : sb.bmapstart < sb.dataStart := by
  exact Nat.lt_add_of_pos_right (Nat.succ_pos _)

theorem inodestart_le_bmapstart (hl : sb.Laid) : sb.inodestart ≤ sb.bmapstart :=
  Nat.le_trans (Nat.le_add_right _ _) hl.inodes

/-- The blocks that `fs.c` writes: no block before the inodes. -/
def Superblock.Writes (sb : Superblock) (b : Nat) : Prop := sb.inodestart ≤ b

theorem writes_bblock (hl : sb.Laid) (b : Nat) : sb.Writes (sb.bblock b) :=
  Nat.le_trans (inodestart_le_bmapstart hl) (bblock_ge sb b)

theorem writes_iblock (sb : Superblock) (i : Nat) : sb.Writes (sb.iblock i) := Nat.le_add_left _ _

theorem writes_data (hl : sb.Laid) (h : sb.dataStart ≤ b) : sb.Writes b := by
  have hle := inodestart_le_bmapstart hl
  have hlt := bmapstart_lt_dataStart sb
  rw [Superblock.Writes]
  omega

end

/-! ## Blocks -/

def Superblock.used (sb : Superblock) (v : Nat → Block) (b : Nat) : Bool :=
  bitAt (v (sb.bblock b)) (b % bpb)

def Superblock.mark (sb : Superblock) (v : Nat → Block) (b : Nat) : Nat → Block :=
  Function.update v (sb.bblock b) (markBit (v (sb.bblock b)) (b % bpb))

def Superblock.clear (sb : Superblock) (v : Nat → Block) (b : Nat) : Nat → Block :=
  Function.update v (sb.bblock b) (clearBit (v (sb.bblock b)) (b % bpb))

section

variable {E : Terms} {sb : Superblock} {v : Nat → Block} {b : Nat}

theorem bzero_performs {f : Unit → FsProg β} {Q : β → (Nat → Block) → List Nat → Prop}
    (h : Performs (f ()) (Function.update v b zeroBlock) fun a v' bs => Q a v' (b :: bs)) :
    Performs (bzero b >>= f) v Q :=
  performs_bread (performs_store (performs_logWrite (performs_brelse h)))

structure Allocated (sb : Superblock) (v : Nat → Block) (b : Nat) (v' : Nat → Block) : Prop where
  lt : b < sb.size
  free : sb.used v b = false
  view : v' = Function.update (sb.mark v b) b zeroBlock

def FullFrom (sb : Superblock) (v : Nat → Block) (bs : List Nat) : Prop :=
  ∀ b ∈ bs, ∀ bi, bi < bpb → b + bi < sb.size → sb.used v (b + bi) = true

theorem used_start (sb : Superblock) {b bi : Nat} (hb : b % bpb = 0) (hbi : bi < bpb) :
    sb.bblock (b + bi) = sb.bblock b ∧ (b + bi) % bpb = bi := by
  have hbpb : bpb = 8192 := by decide
  simp only [Superblock.bblock, hbpb] at *
  omega

theorem findFree_some {data : Block} {bi : Nat} (h : findFree sb data b = some bi) :
    bi < bpb ∧ b + bi < sb.size ∧ bitAt data bi = false := by
  delta findFree at h
  have hmem := List.mem_of_find?_eq_some h
  have hsome := List.find?_some h
  rw [List.mem_range] at hmem
  simp only [Bool.and_eq_true, decide_eq_true_eq, Bool.not_eq_true'] at hsome
  exact ⟨hmem, hsome.1, hsome.2⟩

theorem findFree_none {data : Block} (h : findFree sb data b = none) {bi : Nat}
    (hbi : bi < bpb) (hlt : b + bi < sb.size) : bitAt data bi = true := by
  delta findFree at h
  have hnone := List.find?_eq_none.mp h bi (List.mem_range.mpr hbi)
  simpa [hlt] using hnone

theorem ballocBlock_some {data : Block} {bi : Nat} {next : FsProg Nat}
    (h : findFree sb data b = some bi) :
    ballocBlock sb b next data = takeBlock sb data b bi := by
  simp only [ballocBlock, h]

theorem ballocBlock_none {data : Block} {next : FsProg Nat} (h : findFree sb data b = none) :
    ballocBlock sb b next data = brelse (sb.bblock b) >>= fun _ => next := by
  simp only [ballocBlock, h]

def MetaUsed (sb : Superblock) (v : Nat → Block) : Prop :=
  ∀ b, b < sb.dataStart → b < sb.size → sb.used v b = true

theorem MetaUsed.free_ge (h : MetaUsed sb v) (hb : b < sb.size) (hfree : sb.used v b = false) :
    sb.dataStart ≤ b := by
  apply Nat.le_of_not_lt
  intro hlt
  rw [h b hlt hb] at hfree
  cases hfree

theorem ballocFrom_performs {bs : List Nat} (hbs : ∀ b ∈ bs, b % bpb = 0) :
    Performs (ballocFrom sb bs) v fun b v' logged =>
      (b = 0 ∧ v' = v ∧ logged = [] ∧ FullFrom sb v bs) ∨
        (Allocated sb v b v' ∧ logged = [sb.bblock b, b]) := by
  induction bs with
  | nil =>
      apply Performs.pure
      left
      refine ⟨rfl, rfl, rfl, ?_⟩
      intro b hb
      cases hb
  | cons b bs ih =>
      have hb : b % bpb = 0 := by
        apply hbs
        simp
      rw [ballocFrom]
      apply performs_bread
      cases hfind : findFree sb (v (sb.bblock b)) b with
      | some bi =>
          obtain ⟨hlt, hsize, hclear⟩ := findFree_some hfind
          obtain ⟨hblock, hbit⟩ := used_start sb hb hlt
          rw [ballocBlock_some hfind, takeBlock]
          apply performs_store
          apply performs_logWrite
          apply performs_brelse
          apply bzero_performs
          apply Performs.pure
          right
          constructor
          · constructor
            case lt => exact hsize
            case free =>
                rw [Superblock.used, hblock, hbit]
                exact hclear
            case view => rw [Superblock.mark, hblock, hbit]
          · rw [hblock]
      | none =>
          rw [ballocBlock_none hfind]
          apply performs_brelse
          apply (ih fun c hc => hbs c (List.mem_cons_of_mem b hc)).imp
          intro c v' logged hc
          cases hc with
          | inr htaken => exact Or.inr htaken
          | inl hfull =>
              left
              refine ⟨hfull.1, hfull.2.1, hfull.2.2.1, ?_⟩
              intro c hc bi hbi hlt
              cases List.mem_cons.mp hc with
              | inr hrest => exact hfull.2.2.2 c hrest bi hbi hlt
              | inl heq =>
                  subst heq
                  obtain ⟨hblock, hbit⟩ := used_start sb hb hbi
                  rw [Superblock.used, hblock, hbit]
                  exact findFree_none hfind hbi hlt

def Full (sb : Superblock) (v : Nat → Block) : Prop := ∀ b, b < sb.size → sb.used v b = true

theorem full_of_fullFrom (h : FullFrom sb v (bitmapStarts sb)) : Full sb v := by
  have hbpb : bpb = 8192 := by decide
  intro b hb
  have hsplit : b / bpb * bpb + b % bpb = b := Nat.div_add_mod' b bpb
  have hstart : b / bpb * bpb ∈ bitmapStarts sb := by
    rw [bitmapStarts, List.mem_map]
    refine ⟨b / bpb, ?_, rfl⟩
    rw [List.mem_range, hbpb]
    omega
  have hused := h _ hstart (b % bpb) (Nat.mod_lt _ (by decide)) (by rw [hsplit]; exact hb)
  rw [hsplit] at hused
  exact hused

theorem balloc_performs : Performs (balloc sb) v fun b v' bs =>
    (b = 0 ∧ v' = v ∧ bs = [] ∧ Full sb v) ∨
      (Allocated sb v b v' ∧ bs = [sb.bblock b, b]) := by
  have hbs : ∀ b ∈ bitmapStarts sb, b % bpb = 0 := by
    intro b hb
    rw [bitmapStarts, List.mem_map] at hb
    obtain ⟨k, _, rfl⟩ := hb
    exact Nat.mul_mod_left k bpb
  apply (ballocFrom_performs hbs).imp
  intro b v' bs hb
  cases hb with
  | inl hfull => exact Or.inl ⟨hfull.1, hfull.2.1, hfull.2.2.1, full_of_fullFrom hfull.2.2.2⟩
  | inr htaken => exact Or.inr htaken

theorem bfree_does (hE : E.Logs sb.Writes) (hl : sb.Laid) (hb : sb.used v b = true)
    {Q : Unit → (Nat → Block) → Prop} (h : Q () (sb.clear v b)) : Does E (bfree sb b) v Q := by
  rw [bfree]
  apply bread_bind
  have hbit : bitAt (v (sb.bblock b)) (b % bpb) = true := hb
  rw [if_pos hbit]
  apply store_bind
  apply logWrite_bind hE (writes_bblock hl b)
  exact brelse_does h

/-! ## Inodes -/

def Superblock.dinodeAt (sb : Superblock) (v : Nat → Block) (inum : Nat) : Dinode :=
  getDinode (v (sb.iblock inum)) (inodeOffset inum)

def Superblock.withInode (sb : Superblock) (v : Nat → Block) (inum : Nat) (d : Dinode) :
    Nat → Block :=
  Function.update v (sb.iblock inum) (putDinode d (inodeOffset inum) (v (sb.iblock inum)))

theorem iupdate_performs {ip : Inode} {f : Unit → FsProg β}
    {Q : β → (Nat → Block) → List Nat → Prop}
    (h : Performs (f ()) (sb.withInode v ip.inum ip.toDinode) fun a v' bs =>
      Q a v' (sb.iblock ip.inum :: bs)) : Performs (iupdate sb ip >>= f) v Q :=
  performs_bread (performs_store (performs_logWrite (performs_brelse h)))

theorem iupdate_does (hE : E.Logs sb.Writes) {ip : Inode} {Q : Unit → (Nat → Block) → Prop}
    (h : Q () (sb.withInode v ip.inum ip.toDinode)) : Does E (iupdate sb ip) v Q := by
  rw [iupdate]
  apply bread_bind
  apply store_bind
  apply logWrite_bind hE (writes_iblock sb ip.inum)
  exact brelse_does h

theorem iupdate_bind (hE : E.Logs sb.Writes) {ip : Inode} {f : Unit → FsProg β}
    {Q : β → (Nat → Block) → Prop}
    (h : Does E (f ()) (sb.withInode v ip.inum ip.toDinode) Q) :
    Does E (iupdate sb ip >>= f) v Q := by
  have hupdate : Does E (iupdate sb ip) v fun _ v' =>
      v' = sb.withInode v ip.inum ip.toDinode := iupdate_does hE rfl
  apply hupdate.bind
  intro _ v' hv'
  rw [hv']
  exact h

theorem dinodeAt_congr {v' : Nat → Block} {i : Nat} (h : v' (sb.iblock i) = v (sb.iblock i)) :
    sb.dinodeAt v' i = sb.dinodeAt v i := by
  rw [Superblock.dinodeAt, Superblock.dinodeAt, h]

theorem inodeOffset_disjoint {i inum : Nat} (hne : i ≠ inum) (h : sb.iblock i = sb.iblock inum) :
    inodeOffset i + dinodeSize ≤ inodeOffset inum ∨
      inodeOffset inum + dinodeSize ≤ inodeOffset i := by
  have hipb : ipb = 16 := by decide
  have hsize : dinodeSize = 64 := rfl
  simp only [Superblock.iblock, inodeOffset, hipb, hsize] at *
  omega

theorem dinodeAt_withInode {inum : Nat} {d : Dinode} (hd : d.Fits) :
    sb.dinodeAt (sb.withInode v inum d) = Function.update (sb.dinodeAt v) inum d := by
  funext i
  by_cases hi : i = inum
  · rw [hi, Superblock.dinodeAt, Superblock.withInode, Function.update_self,
      Function.update_self, getDinode_putDinode hd]
  · rw [Function.update_of_ne hi]
    by_cases hblock : sb.iblock i = sb.iblock inum
    · rw [Superblock.dinodeAt, Superblock.withInode, hblock, Function.update_self,
        getDinode_putDinode_of_disjoint (inodeOffset_disjoint hi hblock), Superblock.dinodeAt,
        hblock]
    · exact dinodeAt_congr (Function.update_of_ne hblock _ _)

end

end SyscallSched.Xv6.Fs.Code
