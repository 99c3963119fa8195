import SyscallSched.Foundation.History
import SyscallSched.Xv6.Fs.Itable

/-!
# Path resolution is lookup by components (`fs.c`)

`child` looks up a name in the directory that an inode is, and `resolve` follows a list of
names.  While `namex` runs, the references differ from those before by the inode it is
at, and where it fails it has given that reference back.
-/

namespace SyscallSched.Xv6.Fs.Code

open SyscallSched.Foundation SyscallSched.Xv6.Fs SlotMap

/-! ## The tree -/

/-- The components of a path, cut off at `DIRSIZ` bytes. -/
def names (path : List Nat) : List (List Nat) := (components slash path).map (List.take dirSiz)

def child (sb : Superblock) (v : Nat → Block) (inum : Nat) (name : List Nat) : Option Nat :=
  if (sb.dinodeAt v inum).type = tDir then toMap (slotsOf v (sb.dinodeAt v inum)) name else none

def resolve (sb : Superblock) (v : Nat → Block) (inum : Nat) (ns : List (List Nat)) : Option Nat :=
  ns.foldlM (child sb v) inum

def resolveParent (sb : Superblock) (v : Nat → Block) (inum : Nat) (ns : List (List Nat)) :
    Option (Nat × List Nat) :=
  match ns.getLast? with
  | none => none
  | some last =>
      (resolve sb v inum ns.dropLast).bind fun d =>
        if (sb.dinodeAt v d).type = tDir then some (d, last) else none

/-- Directories are without holes, and all their entries are of inodes that are live. -/
structure DirTree (sb : Superblock) (s : NamexState) (cwd : InodePtr) : Prop where
  table : TableOk sb s
  held : 0 < (s.itable cwd).ref
  start : Live sb s (s.itable cwd).ip.inum
  root : Live sb s rootIno
  dirs : ∀ inum, Live sb s inum → (sb.dinodeAt s.store.view inum).type = tDir →
    DirFile s.store.view (inodeOn sb s.store.view inum)
  entries : ∀ inum name next, Live sb s inum → child sb s.store.view inum name = some next →
    Live sb s next

def destination (sb : Superblock) (v : Nat → Block) (nameiparent : Bool) :
    Nat → List (List Nat) → Option (Nat × List Nat)
  | inum, [] => if nameiparent then none else some (inum, [])
  | inum, name :: ns =>
      if (sb.dinodeAt v inum).type ≠ tDir then none
      else if nameiparent = true ∧ ns = [] then some (inum, name)
      else (child sb v inum name).bind fun next => destination sb v nameiparent next ns

/-- The root for a path that begins with `'/'`, and otherwise the current directory. -/
def startOf (s : NamexState) (cwd : InodePtr) (path : List Nat) : Nat :=
  if path.head? = some slash then rootIno else (s.itable cwd).ip.inum

/-- A run from `s` that fails leaves the references as they were; one that ends at an inode
returns a pointer to it, and it is this pointer that is one more reference. -/
def Ended (sb : Superblock) (s : NamexState) (dest : Option Nat) (r : Option InodePtr)
    (u : NamexState) : Prop :=
  match dest with
  | none => r = none ∧ WithRefs sb s u []
  | some inum => ∃ ip, r = some ip ∧ At u ip inum ∧ WithRefs sb s u [inum]

def LoopEnded (sb : Superblock) (s : NamexState) (nameiparent : Bool)
    (dest : Option (Nat × List Nat)) (r : Option InodePtr × NameBuf) (u : NamexState) : Prop :=
  Ended sb s (dest.map Prod.fst) r.1 u ∧
    ∀ d, dest = some d → nameiparent = true → untilNul r.2.val = d.2

section

variable {sb : Superblock} {s t u : NamexState} {ip cwd : InodePtr} {inum : Nat}
  {held path w : List Nat} {ns ws : List (List Nat)} {name : NameBuf} {v : Nat → Block}

/-! ## Names -/

theorem strncmp_untilNul (n : Nat) (p q : List Nat) :
    strncmp n (untilNul p) q = strncmp n p q := by
  induction n generalizing p q with
  | zero => rfl
  | succ n ih =>
      cases p with
      | nil => rfl
      | cons c p =>
          by_cases hc : c = 0
          · simp [strncmp, untilNul, hc]
          · have htail := ih p q.tail
            simp [strncmp, untilNul, hc] at htail ⊢
            rw [htail]

theorem dirlookup_untilNul (dp : Inode) (p : List Nat) :
    dirlookup sb dp (untilNul p) = dirlookup sb dp p := by
  have hloop : ∀ offs dp, dirlookupFrom sb (untilNul p) offs dp = dirlookupFrom sb p offs dp := by
    intro offs
    induction offs with
    | nil =>
        intro dp
        rfl
    | cons off offs ih =>
        intro dp
        rw [dirlookupFrom, dirlookupFrom]
        congr 1
        funext r
        rw [ih, namecmp, strncmp_untilNul, namecmp]
  rw [dirlookup, dirlookup, hloop]

theorem untilNul_copyElem (hw : 0 ∉ w) : untilNul (copyElem w name).val = w.take dirSiz := by
  rw [copyElem]
  split
  · have hno : 0 ∉ w.take dirSiz := fun hmem => hw (List.mem_of_mem_take hmem)
    simpa using untilNul_pad hno 0
  · rename_i hshort
    rw [List.take_of_length_le (by omega), untilNul, List.takeWhile_append_of_pos]
    · simp
    · intro c hc
      rw [decide_eq_true_iff]
      rintro rfl
      exact hw hc

/-! ## Elements of a path -/

theorem skipelem_none (h : components slash path = []) : skipelem path name = none := by
  rw [skipelem, components_eq_nil_iff.mp h]

theorem skipelem_some (name : NameBuf) (h : components slash path = w :: ws) :
    ∃ rest, skipelem path name = some (rest, copyElem w name) ∧ components slash rest = ws ∧
      (rest = [] ↔ ws = []) ∧ w ⊆ path ∧ rest ⊆ path := by
  rw [← components_dropWhile] at h
  have hsuffix := List.dropWhile_suffix (fun c => decide (c = slash)) (l := path)
  cases hpath : path.dropWhile fun c => decide (c = slash) with
  | nil =>
      rw [hpath] at h
      cases h
  | cons c cs =>
      rw [hpath] at h hsuffix
      rw [components_cons (ne_of_dropWhile_sep hpath)] at h
      injection h with hword hrest
      refine ⟨((c :: cs).dropWhile fun c => decide (c ≠ slash)).dropWhile
        fun c => decide (c = slash), ?_, ?_, ?_, ?_, ?_⟩
      · rw [skipelem, hpath, ← hword]
      · rw [components_dropWhile, hrest]
      · rw [← components_eq_nil_iff, hrest]
      · rw [← hword]
        exact fun x hx => hsuffix.subset ((List.takeWhile_subset _) hx)
      · intro x hx
        have hrest := (List.dropWhile_suffix _).subset ((List.dropWhile_suffix _).subset hx)
        exact hsuffix.subset hrest

/-! ## `dirlookup` -/

def TableFull (s : NamexState) (e : NamexError) : Prop :=
  e = .igetNoInodes ∧ ninode ≤ (inTable s).card + 1

theorem dirlookup_name (hfile : DirFile v (inodeOn sb v inum)) (name : NameBuf) :
    Looks (dirlookup sb (inodeOn sb v inum) name.val) v (inodeOn sb v inum,
      .ok ((scan (untilNul name.val) 0 (slotsOf v (sb.dinodeAt v inum))).map
        fun r => (r.1, r.2 * direntSize))) := by
  have hno : 0 ∉ untilNul name.val := by
    intro hmem
    simpa using List.all_eq_true.mp List.all_takeWhile 0 hmem
  have hlength : (untilNul name.val).length ≤ dirSiz :=
    (List.takeWhile_prefix _).length_le.trans_eq name.property
  have hscan : Looks (dirlookup sb (inodeOn sb v inum) (untilNul name.val)) v _ :=
    dirlookup_scans hfile hno
  rw [dirlookup_untilNul, List.take_of_length_le hlength] at hscan
  exact hscan

theorem dirlookup_holds (h : WithRefs sb s t [inum]) (hat : At t ip inum)
    (hip : (t.itable ip).ip = inodeOn sb s.store.view inum)
    (htype : (sb.dinodeAt s.store.view inum).type = tDir)
    (hfile : DirFile s.store.view (inodeOn sb s.store.view inum)) (name : NameBuf) :
    Ensures (TableFull s) (Itable.dirlookup sb ip name) t fun r u => At u ip inum ∧
      ((child sb s.store.view inum (untilNul name.val) = none ∧ r = none ∧
          WithRefs sb s u [inum]) ∨
        ∃ next k, child sb s.store.view inum (untilNul name.val) = some next ∧ r = some k ∧
          At u k next ∧ WithRefs sb s u [next, inum]) := by
  have hipt : (t.itable ip).ip = inodeOn sb t.store.view inum := by
    rw [h.view]
    exact hip
  have hlook := dirlookup_name hfile name
  rw [← h.view, ← hipt] at hlook
  obtain ⟨store, hrun, hview, hstore⟩ := hlook.onItable h
  have hat' : At { t with store := store } ip inum := ⟨hat.ref, hat.inum⟩
  have hchild : child sb s.store.view inum (untilNul name.val) =
      (scan (untilNul name.val) 0 (slotsOf t.store.view (sb.dinodeAt t.store.view inum))).map
        Prod.fst := by
    rw [map_scan, child, if_pos htype, h.view]
  have hload : WithRefs sb s (withEntry { t with store := store } ip (t.itable ip)) [inum] := by
    apply hstore.load hat' rfl
    change (t.itable ip).ip = inodeOn sb store.view inum
    rw [hview]
    exact hipt
  have hatload : At (withEntry { t with store := store } ip (t.itable ip)) ip inum :=
    at_withEntry.mpr ⟨hat.ref, hat.inum⟩
  rw [Itable.dirlookup]
  apply Ensures.bind_eq entry_run
  apply Ensures.bind_eq hrun
  apply Ensures.bind_eq (setEntry_ptr (e := t.itable ip))
  rw [hchild]
  cases hscan : scan (untilNul name.val) 0 (slotsOf t.store.view (sb.dinodeAt t.store.view inum))
  with
  | none => exact Ensures.pure ⟨hatload, Or.inl ⟨rfl, rfl, hload⟩⟩
  | some found =>
      apply (iget_holds hload found.1).bind
      rintro k u ⟨hk, hu, hkeep⟩
      exact Ensures.pure ⟨hkeep ip inum hatload, Or.inr ⟨found.1, k, rfl, rfl, hk, hu⟩⟩

/-! ## `namex` -/

theorem LoopEnded.fail {nip : Bool} (h : WithRefs sb s u []) :
    LoopEnded sb s nip none (none, name) u := by
  refine ⟨⟨rfl, h⟩, ?_⟩
  intro d hd
  cases hd

theorem LoopEnded.at {nip : Bool} {elem : List Nat} (hat : At u ip inum)
    (h : WithRefs sb s u [inum]) (hname : nip = true → untilNul name.val = elem) :
    LoopEnded sb s nip (some (inum, elem)) (some ip, name) u := by
  refine ⟨⟨ip, rfl, hat, h⟩, ?_⟩
  intro d hd
  cases hd
  exact hname

/-- `namex` at an inode that is not the end: it fails, or goes on at the next one, which
it holds instead. -/
theorem next_ends {nip : Bool} {elem : List Nat} {ns : List (List Nat)}
    {rest : InodePtr → NamexM (Option InodePtr × NameBuf)} (htree : DirTree sb s cwd)
    (h : WithRefs sb s t [inum]) (hat : At t ip inum)
    (hip : (t.itable ip).ip = inodeOn sb s.store.view inum) (hlive : Live sb s inum)
    (htype : (sb.dinodeAt s.store.view inum).type = tDir) (hname : untilNul name.val = elem)
    (hrest : ∀ next k u, Live sb s next → At u k next → WithRefs sb s u [next] →
      Ensures (TableFull s) (rest k) u
        (LoopEnded sb s nip (destination sb s.store.view nip next ns))) :
    Ensures (TableFull s)
      (do
        match ← Itable.dirlookup sb ip name with
        | none => do
            Itable.iput sb ip
            pure (none, name)
        | some next => do
            Itable.iput sb ip
            rest next) t
      (LoopEnded sb s nip ((child sb s.store.view inum elem).bind fun next =>
        destination sb s.store.view nip next ns)) := by
  apply (dirlookup_holds h hat hip htype (htree.dirs inum hlive htype) name).bind
  rintro r u ⟨hatu, hlookup⟩
  rw [hname] at hlookup
  obtain ⟨hnone, rfl, hu⟩ | ⟨next, k, hsome, rfl, hk, hu⟩ := hlookup
  · obtain ⟨x, hrun, hx, -⟩ := iput_holds hu hatu hlive
    apply Ensures.bind_eq hrun
    rw [hnone]
    exact Ensures.pure (LoopEnded.fail hx)
  · obtain ⟨x, hrun, hx, hkeep⟩ := iput_holds hu.swap hatu hlive
    have hrefs : 0 < refs x next := by
      rw [hx.refs, List.count_cons_self]
      exact Nat.succ_pos _
    apply Ensures.bind_eq hrun
    rw [hsome]
    exact hrest next k x (htree.entries inum elem next hlive hsome) (hkeep k next hk hrefs) hx

theorem namexLoop_ends {nip : Bool} (htree : DirTree sb s cwd) (h : WithRefs sb s t [inum])
    (hat : At t ip inum) (hlive : Live sb s inum) (hpath : 0 ∉ path)
    (hws : components slash path = ws) :
    Ensures (TableFull s) (namexLoop sb nip ip path name) t
      (LoopEnded sb s nip (destination sb s.store.view nip inum (ws.map (List.take dirSiz)))) := by
  induction ws generalizing t ip inum path name with
  | nil =>
      have hskip : skipelem path name = none := skipelem_none hws
      rw [namexLoop]
      split
      case h_1 =>
          cases nip with
          | false => exact Ensures.pure (LoopEnded.at hat h fun hfalse => by cases hfalse)
          | true =>
              obtain ⟨u, hrun, hu, -⟩ := iput_holds h hat hlive
              apply Ensures.bind_eq hrun
              exact Ensures.pure (LoopEnded.fail hu)
      case h_2 heq =>
          rw [hskip] at heq
          cases heq
  | cons w ws ih =>
      obtain ⟨rest, hskip, hrest, hlast, hw, hsub⟩ := skipelem_some name hws
      have hname : untilNul (copyElem w name).val = w.take dirSiz :=
        untilNul_copyElem fun hmem => hpath (hw hmem)
      have hstop : (nip = true ∧ ws.map (List.take dirSiz) = []) ↔ nip = true ∧ rest = [] := by
        rw [List.map_eq_nil_iff, hlast]
      have htypet : (sb.dinodeAt t.store.view inum).type ≠ 0 := by
        rw [h.view]
        exact hlive.1
      obtain ⟨u, hlock, hu, hatu, hip⟩ := ilock_holds h hat htypet
      rw [namexLoop]
      split
      case h_1 heq =>
          rw [hskip] at heq
          cases heq
      case h_2 heq =>
          rw [hskip] at heq
          cases heq
          rw [List.map_cons, destination]
          apply Ensures.bind_eq hlock
          apply Ensures.bind_eq entry_run
          rw [hip]
          change Ensures _ (if (sb.dinodeAt s.store.view inum).type ≠ tDir then _ else _) u _
          split
          case isTrue =>
              obtain ⟨x, hrun, hx, -⟩ := iput_holds hu hatu hlive
              apply Ensures.bind_eq hrun
              exact Ensures.pure (LoopEnded.fail hx)
          case isFalse htype =>
              by_cases hend : nip = true ∧ rest = []
              · rw [if_pos hend, if_pos (hstop.mpr hend)]
                exact Ensures.pure (LoopEnded.at hatu hu fun _ => hname)
              · rw [if_neg hend, if_neg (mt hstop.mp hend)]
                apply next_ends htree hu hatu hip hlive (not_not.mp htype) hname
                intro next k x hnext hk hx
                exact ih hx hk hnext (fun hmem => hpath (hsub hmem)) hrest

theorem namex_ends {nip : Bool} (htree : DirTree sb s cwd) (path : CString) :
    Ensures (TableFull s) (namex sb cwd path nip name) s
      (LoopEnded sb s nip (destination sb s.store.view nip (startOf s cwd path.val)
        (names path.val))) := by
  have hself : WithRefs sb s s [] := WithRefs.refl htree.table
  rw [namex, startOf, names]
  split
  · have hfull : ∀ e, e = NamexError.igetNoInodes ∧ ninode ≤ (inTable s).card + 0 →
        TableFull s e := fun e he => ⟨he.1, Nat.le_succ_of_le he.2⟩
    apply ((iget_holds hself rootIno).mono hfull fun _ _ h => h).bind
    rintro ip t ⟨hat, ht, -⟩
    exact namexLoop_ends htree ht hat htree.root path.property rfl
  · obtain ⟨t, hrun, ht, hat⟩ := idup_run hself ⟨htree.held, rfl⟩
    apply Ensures.bind_eq hrun
    exact namexLoop_ends htree ht hat htree.start path.property rfl

/-! ## What `namex` does -/

theorem map_destination (v : Nat → Block) (inum : Nat) (ns : List (List Nat)) :
    (destination sb v false inum ns).map Prod.fst = resolve sb v inum ns := by
  induction ns generalizing inum with
  | nil => rfl
  | cons n ns ih =>
      rw [destination, resolve, List.foldlM_cons]
      by_cases htype : (sb.dinodeAt v inum).type = tDir
      · rw [if_neg (not_not_intro htype), if_neg (by simp)]
        cases hchild : child sb v inum n with
        | none => rfl
        | some next => exact ih next
      · rw [if_pos htype, child, if_neg htype]
        rfl

theorem destination_parent (v : Nat → Block) (inum : Nat) (ns : List (List Nat)) :
    destination sb v true inum ns = resolveParent sb v inum ns := by
  induction ns generalizing inum with
  | nil => rfl
  | cons n ns ih =>
      rw [destination]
      cases ns with
      | nil =>
          by_cases htype : (sb.dinodeAt v inum).type = tDir <;>
            simp [resolveParent, resolve, htype]
      | cons n' ns =>
          have hmore : ¬ (true = true ∧ n' :: ns = []) := by simp
          have hlast : (n :: n' :: ns).getLast? = (n' :: ns).getLast? := rfl
          have hinit : (n :: n' :: ns).dropLast = n :: (n' :: ns).dropLast := rfl
          rw [if_neg hmore, resolveParent, hlast, hinit, resolve, List.foldlM_cons]
          simp only [ih]
          by_cases htype : (sb.dinodeAt v inum).type = tDir
          · rw [if_neg (not_not_intro htype)]
            cases hchild : child sb v inum n with
            | none => cases (n' :: ns).getLast? <;> rfl
            | some next => rfl
          · rw [if_pos htype, child, if_neg htype]
            cases (n' :: ns).getLast? <;> rfl

/-- `namei` fails at an inode that is no directory, or has no such name. -/
theorem resolve_eq_none_iff : resolve sb v inum ns = none ↔
    ∃ before n after d, ns = before ++ n :: after ∧ resolve sb v inum before = some d ∧
      ((sb.dinodeAt v d).type ≠ tDir ∨ toMap (slotsOf v (sb.dinodeAt v d)) n = none) := by
  rw [resolve, foldlM_eq_none_iff]
  simp only [child, ite_eq_right_iff, imp_iff_not_or]
  rfl

theorem resolveParent_append {last : List Nat} : resolveParent sb v inum (ns ++ [last]) = none ↔
    ∀ d, resolve sb v inum ns = some d → (sb.dinodeAt v d).type ≠ tDir := by
  rw [resolveParent, List.getLast?_concat, List.dropLast_concat]
  cases resolve sb v inum ns with
  | none => simp
  | some d => simp

/-- `nameiparent` looks up all names but the last, whose inode need not exist. -/
theorem resolveParent_eq_none_iff : resolveParent sb v inum ns = none ↔
    ns = [] ∨ ∃ before n after d, ns = before ++ n :: after ∧ resolve sb v inum before = some d ∧
      ((sb.dinodeAt v d).type ≠ tDir ∨
        after ≠ [] ∧ toMap (slotsOf v (sb.dinodeAt v d)) n = none) := by
  rcases List.eq_nil_or_concat' ns with rfl | ⟨init, last, rfl⟩
  · simp [resolveParent]
  rw [resolveParent_append, or_iff_right (by simp)]
  constructor
  · intro hparent
    cases hinit : resolve sb v inum init with
    | some d => exact ⟨init, last, [], d, rfl, hinit, Or.inl (hparent d hinit)⟩
    | none =>
        obtain ⟨before, n, after, d, rfl, hbefore, hstop⟩ := resolve_eq_none_iff.mp hinit
        refine ⟨before, n, after ++ [last], d, by simp, hbefore, ?_⟩
        exact hstop.imp_right fun hnone => ⟨by simp, hnone⟩
  · rintro ⟨before, n, after, d, heq, hbefore, hstop⟩ d' hd'
    rcases cut_append heq with ⟨rfl, -, rfl⟩ | ⟨after, rfl, rfl⟩
    · rw [hbefore] at hd'
      cases hd'
      exact hstop.resolve_right fun h => h.1 rfl
    · have hnone := resolve_eq_none_iff.mpr
        ⟨before, n, after, d, rfl, hbefore, hstop.imp_right fun h => h.2⟩
      rw [hnone] at hd'
      cases hd'

end

/-! ## A path in the small directory -/

def smallTreeState : NamexState where
  store := smallDirStore
  itable := fun ip => if ip.val = 0 then smallDirEntry else ⟨0, false, { inum := 0 }⟩

def dotPath : CString := ⟨[47, 46, 47, 120], by decide⟩

def emptyName : NameBuf := ⟨List.replicate dirSiz 0, rfl⟩

theorem smallTree_nlink (inum : Nat) :
    (openDisk.dinodeAt smallTreeState.store.view inum).nlink = 0 := by
  have hbyte : ∀ b i, 6 ≤ i % 64 ∧ i % 64 < 8 → smallTreeState.store.view b i = 0 := by
    intro b i hi
    change smallDirStore.disk b i = 0
    rw [smallDirStore]
    dsimp only
    split_ifs
    all_goals try rfl
    all_goals dsimp only
    all_goals split_ifs <;> first | rfl | omega
  rw [Superblock.dinodeAt, getDinode]
  simp only [getLE]
  rw [hbyte _ _ (by rw [inodeOffset, dinodeSize]; omega),
    hbyte _ _ (by rw [inodeOffset, dinodeSize]; omega)]

theorem smallTree_used {ip : InodePtr} (h : 0 < (smallTreeState.itable ip).ref) : ip.val = 0 := by
  by_contra hne
  rw [smallTreeState] at h
  simp [hne] at h

theorem smallTree_live {inum : Nat} (h : Live openDisk smallTreeState inum) : inum = 1 := by
  have hrefs := h.2.resolve_left (not_not_intro (smallTree_nlink inum))
  obtain ⟨ip, hip⟩ := refs_pos_iff.mp hrefs
  rw [← hip.inum, smallTreeState]
  dsimp only
  rw [if_pos (smallTree_used hip.ref)]
  rfl

theorem smallTree : DirTree openDisk smallTreeState ⟨0, by decide⟩ := by
  have hone : Live openDisk smallTreeState 1 := by
    refine ⟨by decide, Or.inr ?_⟩
    exact refs_pos_iff.mpr ⟨⟨0, by decide⟩, ⟨by decide, rfl⟩⟩
  constructor
  case table =>
    constructor
    case unique =>
      intro ip ip' hip hip' _
      exact Fin.ext ((smallTree_used hip).trans (smallTree_used hip').symm)
    case synced =>
      intro ip hip _
      have hzero : ip = ⟨0, by decide⟩ := Fin.ext (smallTree_used hip)
      rw [hzero]
      rfl
  case held => decide
  case start => exact hone
  case root => exact hone
  case dirs =>
    intro inum hlive _
    rw [smallTree_live hlive]
    exact smallDirState_open.file
  case entries =>
    intro inum name next hlive hchild
    have hdir : (openDisk.dinodeAt smallTreeState.store.view 1).type = tDir := by decide
    have hslots : slotsOf smallTreeState.store.view
        (openDisk.dinodeAt smallTreeState.store.view 1) = [some ([46], 1), none] := by decide
    rw [smallTree_live hlive, child, if_pos hdir, hslots, toMap_cons_some] at hchild
    split at hchild
    · cases hchild
      exact hone
    · cases hchild

end SyscallSched.Xv6.Fs.Code
