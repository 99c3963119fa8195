import SyscallSched.Xv6.Fs.Content
import SyscallSched.Xv6.Fs.View

/-!
# Reading files and directories (`fs.c`)

`dirlookup` reads entries one by one until the name matches.  `Looks p v a` is about
programs that change nothing: where readers see `v`, `p` returns `a`.  A file that has
all its blocks is read without a change, because `bmap` allocates nothing.
-/

namespace SyscallSched.Xv6.Fs.Code

open SyscallSched.Foundation SyscallSched.Xv6.Fs

def fsmagic : Nat := 0x10203040
def tDir : Nat := 1

/-! ## The superblock -/

def getSuperblock (data : Block) : Superblock where
  size := data.word 1
  ninodes := data.word 3
  inodestart := data.word 6
  bmapstart := data.word 7

def readsb : FsProg Block := do
  let data ← bread 1
  brelse 1
  pure data

/-- `fsinit` up to `initlog`; `none` is its panic. -/
def fsinit : FsProg (Option Superblock) := do
  let data ← readsb
  if data.word 0 ≠ fsmagic then pure none else pure (some (getSuperblock data))

/-! ## Names -/

/-- Behind a string there is 0. -/
def strncmp : Nat → List Nat → List Nat → Int
  | 0, _, _ => 0
  | n + 1, p, q =>
      if p.headD 0 ≠ 0 ∧ p.headD 0 = q.headD 0 then strncmp n p.tail q.tail
      else (p.headD 0 : Int) - q.headD 0

/-- A string in an array. -/
def untilNul (name : List Nat) : List Nat := name.takeWhile (· ≠ 0)

def namecmp (s t : List Nat) : Int := strncmp dirSiz s t

structure Dirent where
  inum : Nat
  name : List Nat

def getDirent (bytes : List Nat) : Dirent where
  inum := getLE (fun i => bytes.getD i 0) 0 2
  name := bytes.drop 2

inductive DirPanic where
  | dirlookupNotDir
  | dirlookupRead
  deriving DecidableEq, Repr

section

variable (sb : Superblock)

/-- The loop of `dirlookup` for the offsets that are left.  `readi` copies to kernel
memory.  Found are the inode number and the offset of the entry. -/
def dirlookupFrom (name : List Nat) :
    List Nat → Inode → FsProg (Inode × Except DirPanic (Option (Nat × Nat)))
  | [], dp => pure (dp, .ok none)
  | off :: offs, dp => do
      let r ← readi sb (fun _ _ => true) dp 0 off direntSize
      if r.2.2 = false ∨ r.2.1.length ≠ direntSize then
        pure (r.1, .error .dirlookupRead)
      else if (getDirent r.2.1).inum = 0 then
        dirlookupFrom name offs r.1
      else if namecmp name (getDirent r.2.1).name = 0 then
        pure (r.1, .ok (some ((getDirent r.2.1).inum, off)))
      else
        dirlookupFrom name offs r.1

/-- `0, sizeof(de), 2 * sizeof(de), …` below `size` -/
def direntOffsets (size : Nat) : List Nat :=
  (List.range' 0 ((size + (direntSize - 1)) / direntSize)).map (· * direntSize)

def dirlookup (dp : Inode) (name : List Nat) :
    FsProg (Inode × Except DirPanic (Option (Nat × Nat))) :=
  if dp.type ≠ tDir then
    pure (dp, .error .dirlookupNotDir)
  else
    dirlookupFrom sb name (direntOffsets dp.size) dp

end

/-! ## Programs that change nothing -/

def Reads {α : Type} (p : FsProg α) (v : Nat → Block) (a : α) : Prop :=
  ∀ st : Store, st.view = v → ∃ st', run p st = .ok (a, st') ∧ st'.view = v

def Looks {α : Type} (p : FsProg α) (v : Nat → Block) (a : α) : Prop :=
  Performs p v fun a' v' bs => a' = a ∧ v' = v ∧ bs = []

section

variable {α β : Type} {v : Nat → Block} {b : Nat} {p : FsProg α} {f : α → FsProg β} {a : α}
  {c : β}

theorem Looks.reads (h : Looks p v a) : Reads p v a := by
  intro st hst
  obtain ⟨_, _, _, ⟨rfl, rfl, rfl⟩, hruns⟩ := h.runs hst
  cases hruns with
  | inl hok =>
      obtain ⟨-, st', hrun, hview, -⟩ := hok
      exact ⟨st', hrun, hview⟩
  | inr hpanic => exact absurd trivial hpanic.1

theorem looks_pure : Looks (pure a) v a := Performs.pure ⟨rfl, rfl, rfl⟩

/-- A program that looks first goes on as if it had not. -/
theorem Looks.then {Q : β → (Nat → Block) → List Nat → Prop} (hp : Looks p v a)
    (hf : Performs (f a) v Q) : Performs (p >>= f) v Q := by
  apply Performs.bind hp
  intro a' v' bs ha
  obtain ⟨rfl, rfl, rfl⟩ := ha
  exact hf

theorem Looks.bind (hp : Looks p v a) (hf : Looks (f a) v c) : Looks (p >>= f) v c :=
  hp.then hf

theorem looks_bread : Looks (bread b) v (v b) :=
  performs_bread (f := pure) looks_pure

theorem looks_brelse : Looks (brelse b) v () :=
  performs_brelse (f := pure) looks_pure

end

/-! ## Inodes and their content -/

section

variable {sb : Superblock} {v : Nat → Block} {ip : Inode} {bn inum off n dst : Nat}
  {copyout : Nat → Nat → Bool}

theorem fsinit_looks (hmagic : (v 1).word 0 = fsmagic) :
    Looks fsinit v (some (getSuperblock (v 1))) := by
  refine Looks.bind (a := v 1) (looks_bread.bind (looks_brelse.bind looks_pure)) ?_
  rw [if_neg (not_not_intro hmagic)]
  exact looks_pure

theorem readInode_looks (htype : (sb.dinodeAt v inum).type ≠ 0) :
    Looks (readInode sb inum) v { sb.dinodeAt v inum with inum := inum } := by
  refine looks_bread.bind (looks_brelse.bind ?_)
  rw [Superblock.dinodeAt] at htype ⊢
  rw [if_neg htype]
  exact looks_pure

theorem bmap_looks (hbn : bn < maxFile) (hblock : blockAt v ip.addrs bn ≠ 0) :
    Looks (bmap sb ip bn) v (ip, blockAt v ip.addrs bn) := by
  by_cases hdirect : bn < ndirect
  · rw [bmap, if_pos hdirect, allocAddr]
    rw [blockAt_direct hdirect] at hblock ⊢
    rw [if_neg hblock]
    exact looks_pure
  · have hge := Nat.le_of_not_lt hdirect
    have hx : ip.addrs ndirect ≠ 0 := fun hx => hblock (blockAt_none hge hx)
    rw [blockAt_indirect hge hx] at hblock ⊢
    rw [maxFile] at hbn
    rw [bmap, if_neg hdirect, if_pos (by omega), bmapIndirect, allocAddr, if_neg hx]
    refine looks_pure.bind ?_
    rw [if_neg hx]
    refine Looks.bind (a := (v (ip.addrs ndirect)).word (bn - ndirect)) ?_ looks_pure
    refine looks_bread.bind ?_
    rw [if_neg hblock]
    exact looks_brelse.bind looks_pure

/-- The file has its blocks from `off` on for `n` bytes. -/
def Present (v : Nat → Block) (addrs : Nat → Nat) (off n : Nat) : Prop :=
  ∀ o, off ≤ o → o < off + n → o / bsize < maxFile ∧ blockAt v addrs (o / bsize) ≠ 0

/-- The bytes of the file from `off` on. -/
def bytesFrom (v : Nat → Block) (addrs : Nat → Nat) (off n : Nat) : List Nat :=
  (List.range n).map fun k => byteAt v addrs (off + k)

theorem bytesFrom_add (v : Nat → Block) (addrs : Nat → Nat) (off m n : Nat) :
    bytesFrom v addrs off (m + n) = bytesFrom v addrs off m ++ bytesFrom v addrs (off + m) n := by
  simp [bytesFrom, List.range_add, Function.comp_def, Nat.add_assoc]

theorem bytesFrom_eq {v : Nat → Block} {d : Dinode} {off n : Nat} (h : off + n ≤ d.size) :
    bytesFrom v d.addrs off n = ((contentOf v d).drop off).take n := by
  apply List.ext_getElem
  · simp [bytesFrom]
    omega
  · intro k hk hk'
    simp [bytesFrom, contentOf]

theorem readLoop_looks (hcopy : ∀ d m, copyout d m = true) (hpresent : Present v ip.addrs off n) :
    Looks (readLoop sb copyout ip dst off n) v (ip, bytesFrom v ip.addrs off n, true) := by
  induction n using Nat.strong_induction_on generalizing off dst with
  | _ n ih =>
    rw [readLoop]
    by_cases hn : n = 0
    · rw [dif_pos hn, hn]
      exact looks_pure
    · have hpos := chunk_pos hn off
      have hle : chunk n off ≤ n := Nat.min_le_left _ _
      have hroom : chunk n off ≤ bsize - off % bsize := Nat.min_le_right _ _
      obtain ⟨hfbn, hblock⟩ := hpresent off (Nat.le_refl off) (by omega)
      rw [dif_neg hn]
      refine (bmap_looks hfbn hblock).bind ?_
      rw [if_neg hblock]
      refine looks_bread.bind (looks_brelse.bind ?_)
      rw [if_pos (hcopy _ _)]
      have hlater : Present v ip.addrs (off + chunk n off) (n - chunk n off) :=
        fun o ho ho' => hpresent o (by omega) (by omega)
      refine (ih (n - chunk n off) (by omega) hlater).bind ?_
      have hfirst : (List.range (chunk n off)).map (fun i =>
          v (blockAt v ip.addrs (off / bsize)) (off % bsize + i)) =
          bytesFrom v ip.addrs off (chunk n off) := by
        apply List.map_congr_left
        intro k hk
        have hk := List.mem_range.mp hk
        have hdiv : (off + k) / bsize = off / bsize := by
          simp only [bsize] at *
          omega
        have hmod : (off + k) % bsize = off % bsize + k := by
          simp only [bsize] at *
          omega
        rw [byteAt, hdiv, hmod]
      have hsplit := bytesFrom_add v ip.addrs off (chunk n off) (n - chunk n off)
      rw [Nat.add_sub_of_le hle] at hsplit
      rw [hfirst, hsplit]
      exact looks_pure

theorem readi_looks (hcopy : ∀ d m, copyout d m = true) (hoff : off ≤ ip.size)
    (hn : off + n < 2 ^ 32) (hpresent : Present v ip.addrs off (min n (ip.size - off))) :
    Looks (readi sb copyout ip dst off n) v
      (ip, bytesFrom v ip.addrs off (min n (ip.size - off)), true) := by
  have hmod : (off + n) % 2 ^ 32 = off + n := Nat.mod_eq_of_lt hn
  have hlength : readLength ip.size off n = min n (ip.size - off) := by
    rw [readLength, hmod]
    split <;> omega
  rw [readi, hmod, if_neg (by omega), hlength]
  exact readLoop_looks hcopy hpresent

end

/-! ## Directory entries -/

structure Nameable (name : List Nat) : Prop where
  noNul : 0 ∉ name
  length_le : name.length ≤ dirSiz

abbrev DirEntry := Nat × List Nat

def DirEntry.bytes (e : DirEntry) : List Nat := dirent e.1 e.2

section

variable {sb : Superblock} {v : Nat → Block} {dp : Inode} {name : List Nat} {n : Nat}

theorem strncmp_eq_zero_iff {p q : List Nat} (hp : 0 ∉ p) :
    strncmp n p q = 0 ↔ p.take n = untilNul (q.take n) := by
  induction n generalizing p q with
  | zero => simp [strncmp, untilNul]
  | succ n ih =>
      cases p with
      | nil =>
          cases q with
          | nil => simp [strncmp, untilNul]
          | cons d q => by_cases hd : d = 0 <;> simp [strncmp, untilNul, hd]
      | cons c p =>
          have hc : c ≠ 0 := fun hc => hp (hc ▸ List.mem_cons_self)
          cases q with
          | nil => simp [strncmp, untilNul, hc]
          | cons d q =>
              by_cases heq : c = d
              · subst heq
                have htail := ih (q := q) fun h => hp (List.mem_cons_of_mem c h)
                simp [strncmp, untilNul, hc, htail]
              · have hsub : (c : Int) - d ≠ 0 := by omega
                by_cases hd : d = 0 <;> simp [strncmp, untilNul, heq, hsub, hd, hc]

theorem untilNul_pad (hname : 0 ∉ name) (m : Nat) :
    untilNul (name ++ List.replicate m 0) = name := by
  have hzeros : (List.replicate m 0).takeWhile (fun c => decide (c ≠ 0)) = ([] : List Nat) := by
    cases m with
    | zero => rfl
    | succ m => rfl
  rw [untilNul, List.takeWhile_append_of_pos, hzeros, List.append_nil]
  intro c hc
  rw [decide_eq_true_iff]
  intro h0
  exact hname (h0 ▸ hc)

theorem namecmp_pad {p q : List Nat} (hp : Nameable p) (hq : Nameable q) :
    namecmp p (q ++ List.replicate (dirSiz - q.length) 0) = 0 ↔ p = q := by
  have hlength : (q ++ List.replicate (dirSiz - q.length) 0).length ≤ dirSiz := by
    rw [List.length_append, List.length_replicate, Nat.add_sub_of_le hq.length_le]
  rw [namecmp, strncmp_eq_zero_iff hp.noNul, List.take_of_length_le hp.length_le,
    List.take_of_length_le hlength, untilNul_pad hq.noNul]

theorem getDirent_bytes {e : DirEntry} (hinum : e.1 < 2 ^ 16) (hname : e.2.length ≤ dirSiz) :
    getDirent e.bytes = ⟨e.1, e.2 ++ List.replicate (dirSiz - e.2.length) 0⟩ := by
  have hpad : (e.2 ++ List.replicate dirSiz 0).take dirSiz =
      e.2 ++ List.replicate (dirSiz - e.2.length) 0 := by
    rw [List.take_append, List.take_of_length_le hname, List.take_replicate,
      Nat.min_eq_left (Nat.sub_le _ _)]
  rw [getDirent, DirEntry.bytes, dirent, hpad]
  simp [getLE]
  omega

structure Holds (v : Nat → Block) (dp : Inode) (k : Nat) (es : List DirEntry) : Prop where
  bytes : ∀ j e, es[j]? = some e →
    bytesFrom v dp.addrs ((k + j) * direntSize) direntSize = e.bytes
  present : Present v dp.addrs (k * direntSize) (es.length * direntSize)
  size_le : (k + es.length) * direntSize ≤ dp.size

theorem Holds.tail {k : Nat} {e : DirEntry} {es : List DirEntry} (h : Holds v dp k (e :: es)) :
    Holds v dp (k + 1) es := by
  have hsize := h.size_le
  rw [List.length_cons, direntSize] at hsize
  constructor
  case bytes =>
    intro j e' he'
    have hbytes := h.bytes (j + 1) e' he'
    rw [← Nat.add_assoc, Nat.add_right_comm] at hbytes
    exact hbytes
  case present =>
    intro o ho ho'
    apply h.present o
    · rw [direntSize] at ho ⊢
      omega
    · rw [List.length_cons]
      rw [direntSize] at ho' ⊢
      omega
  case size_le =>
    rw [direntSize]
    omega

theorem Holds.readi {k : Nat} {e : DirEntry} {es : List DirEntry} (h : Holds v dp k (e :: es))
    (hsize : dp.size < 2 ^ 32) :
    Looks (readi sb (fun _ _ => true) dp 0 (k * direntSize) direntSize) v
      (dp, e.bytes, true) := by
  have hle := h.size_le
  rw [List.length_cons, direntSize] at hle
  have hmin : min direntSize (dp.size - k * direntSize) = direntSize := by
    rw [direntSize]
    omega
  have hbytes := h.bytes 0 e rfl
  rw [Nat.add_zero] at hbytes
  have hpresent : Present v dp.addrs (k * direntSize)
      (min direntSize (dp.size - k * direntSize)) := by
    rw [hmin]
    intro o ho ho'
    apply h.present o ho
    rw [List.length_cons]
    rw [direntSize] at ho' ⊢
    omega
  have hread : Looks (Code.readi sb (fun _ _ => true) dp 0 (k * direntSize) direntSize) v _ :=
    readi_looks (fun _ _ => rfl) (by rw [direntSize]; omega) (by rw [direntSize]; omega) hpresent
  rw [hmin, hbytes] at hread
  exact hread

/-- A turn of the loop at an entry in use that has the name. -/
theorem dirlookupFrom_hit {bytes offs : List Nat} {off : Nat}
    (hread : Looks (readi sb (fun _ _ => true) dp 0 off direntSize) v (dp, bytes, true))
    (hlength : bytes.length = direntSize) (hused : (getDirent bytes).inum ≠ 0)
    (hsame : namecmp name (getDirent bytes).name = 0) :
    Looks (dirlookupFrom sb name (off :: offs) dp) v
      (dp, .ok (some ((getDirent bytes).inum, off))) := by
  rw [dirlookupFrom]
  refine hread.bind ?_
  rw [if_neg (by simp [hlength]), if_neg hused, if_pos hsame]
  exact looks_pure

theorem dirlookupFrom_miss {bytes offs : List Nat} {off : Nat}
    {r : Inode × Except DirPanic (Option (Nat × Nat))}
    (hread : Looks (readi sb (fun _ _ => true) dp 0 off direntSize) v (dp, bytes, true))
    (hlength : bytes.length = direntSize)
    (hmiss : (getDirent bytes).inum = 0 ∨ namecmp name (getDirent bytes).name ≠ 0)
    (hrest : Looks (dirlookupFrom sb name offs dp) v r) :
    Looks (dirlookupFrom sb name (off :: offs) dp) v r := by
  rw [dirlookupFrom]
  refine hread.bind ?_
  rw [if_neg (by simp [hlength])]
  by_cases hfree : (getDirent bytes).inum = 0
  · rw [if_pos hfree]
    exact hrest
  · rw [if_neg hfree, if_neg (hmiss.resolve_left hfree)]
    exact hrest

/-- The first entry with the name is found. -/
theorem dirlookupFrom_looks {earlier later : List DirEntry} {inum k m : Nat} (hname : Nameable name)
    (hinum : inum < 2 ^ 16) (hne : inum ≠ 0)
    (hearlier : ∀ e ∈ earlier, e.1 < 2 ^ 16 ∧ Nameable e.2 ∧ e.2 ≠ name)
    (h : Holds v dp k (earlier ++ (inum, name) :: later)) (hsize : dp.size < 2 ^ 32)
    (hm : earlier.length < m) :
    Looks (dirlookupFrom sb name ((List.range' k m).map (· * direntSize)) dp) v
      (dp, .ok (some (inum, (k + earlier.length) * direntSize))) := by
  have hlength : ∀ e : DirEntry, e.bytes.length = direntSize := fun e => dirent_length e.1 e.2
  induction earlier generalizing k m with
  | nil =>
      obtain ⟨m, rfl⟩ := Nat.exists_eq_succ_of_ne_zero (Nat.ne_of_gt hm)
      have hentry := getDirent_bytes (e := (inum, name)) hinum hname.length_le
      have hhit : Looks (dirlookupFrom sb name (k * direntSize ::
          (List.range' (k + 1) m).map (· * direntSize)) dp) v _ :=
        dirlookupFrom_hit (h.readi hsize) (hlength _) (by rw [hentry]; exact hne)
          (by rw [hentry]; exact (namecmp_pad hname hname).mpr rfl)
      rw [hentry] at hhit
      exact hhit
  | cons e earlier ih =>
      obtain ⟨m, rfl⟩ := Nat.exists_eq_succ_of_ne_zero (Nat.ne_of_gt (Nat.zero_lt_of_lt hm))
      obtain ⟨henum, hename, hother⟩ := hearlier e List.mem_cons_self
      have hdiffer : namecmp name (getDirent e.bytes).name ≠ 0 := by
        rw [getDirent_bytes henum hename.length_le]
        intro heq
        exact hother ((namecmp_pad hname hename).mp heq).symm
      have hrest := ih (fun e' he' => hearlier e' (List.mem_cons_of_mem e he')) h.tail
        (Nat.lt_of_succ_lt_succ hm)
      have hoff : (k + 1 + earlier.length) = k + (e :: earlier).length := by
        rw [List.length_cons]
        omega
      rw [hoff] at hrest
      exact dirlookupFrom_miss (h.readi hsize) (hlength e) (Or.inr hdiffer) hrest

theorem dirlookup_looks {earlier later : List DirEntry} {inum : Nat} (htype : dp.type = tDir)
    (hname : Nameable name) (hinum : inum < 2 ^ 16) (hne : inum ≠ 0)
    (hearlier : ∀ e ∈ earlier, e.1 < 2 ^ 16 ∧ Nameable e.2 ∧ e.2 ≠ name)
    (h : Holds v dp 0 (earlier ++ (inum, name) :: later)) (hsize : dp.size < 2 ^ 32) :
    Looks (dirlookup sb dp name) v
      (dp, .ok (some (inum, earlier.length * direntSize))) := by
  have hle := h.size_le
  have hcount : earlier.length < (dp.size + (direntSize - 1)) / direntSize := by
    rw [List.length_append, List.length_cons, direntSize] at hle
    rw [direntSize]
    omega
  have hfound : Looks (dirlookupFrom sb name (direntOffsets dp.size) dp) v _ :=
    dirlookupFrom_looks hname hinum hne hearlier h hsize hcount
  rw [Nat.zero_add] at hfound
  rw [dirlookup, if_neg (not_not_intro htype)]
  exact hfound

end

end SyscallSched.Xv6.Fs.Code
