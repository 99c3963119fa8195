import Mathlib.Algebra.Order.BigOperators.Group.Finset
import SyscallSched.Xv6.Links.Tree

/-!
# Link counts

`Inv n p` says that the inodes `n` are a tree of directories and that every count of
links is the number of references.  Within a call one inode `p` may have a link more
than names, its name being about to come or just gone; a directory in that state does
not belong to the tree.
-/

namespace SyscallSched.Xv6.Links

open SyscallSched.Foundation

/-! ## Arithmetic of `nlink` -/

theorem toInt_add_one {k : Int16} (h : k.toInt < 32767) : (k + 1).toInt = k.toInt + 1 := by
  have hlow := k.le_toInt
  rw [Int16.toInt_add, Int.bmod_eq_of_le]
  · rfl
  · simp only [Int16.toInt_one]
    omega
  · simp only [Int16.toInt_one]
    omega

theorem toInt_sub_one {k : Int16} (h : 0 < k.toInt) : (k - 1).toInt = k.toInt - 1 := by
  have hhigh := k.toInt_lt
  rw [Int16.toInt_sub, Int.bmod_eq_of_le]
  · rfl
  · simp only [Int16.toInt_one]
    omega
  · simp only [Int16.toInt_one]
    omega

theorem eq_zero_iff_toInt {k : Int16} : k = 0 ↔ k.toInt = 0 := by
  rw [← Int16.toInt_inj]
  rfl

theorem lt_one_iff_toInt {k : Int16} : k < 1 ↔ k.toInt < 1 := Int16.lt_iff_toInt_lt

/-! ## Counting -/

def Inode.live (ip : Inode) : Prop := ip.type = .dir ∧ 0 < ip.nlink.toInt

instance (ip : Inode) : Decidable ip.live :=
  inferInstanceAs (Decidable (ip.type = .dir ∧ 0 < ip.nlink.toInt))

/-- The entries other than `.` that name `i`. -/
def Inode.links (ip : Inode) (i : Nat) : Nat :=
  ip.entries.countP fun e => e.inum = i ∧ e.name ≠ dot

def inodes : Finset Nat := Finset.range ninodes

/-- The entries other than `.` that name `i`, in all directories with links. -/
def linkCount (n : Nat → Inode) (i : Nat) : Nat :=
  ∑ d ∈ inodes, if (n d).live then (n d).links i else 0

/-- What is found from the root by one name after the other. -/
inductive Named (n : Nat → Inode) : Nat → Prop where
  | root : Named n rootIno
  | entry {d i off : Nat} {x : Name} (hd : Named n d) (hdir : (n d).live)
      (hx : findEntry (n d).entries x = some (off, i)) : Named n i

/-! ## The tree -/

def Inode.node (ip : Inode) : Option (Directory Nat Name) :=
  if ip.live then some (directory ip.entries) else none

def tree (n : Nat → Inode) : NameTree Nat Name := fun d => (n d).node

def treeWithout (n : Nat → Inode) : Option Nat → NameTree Nat Name
  | none => tree n
  | some i => Function.update (tree n) i none

def owed (p : Option Nat) (i : Nat) : Int := if p = some i then 1 else 0

structure Inode.Formed (i : Nat) (ip : Inode) : Prop where
  range : ip.type ≠ .free → 0 < i ∧ i < ninodes
  shaped : ip.live → Shaped i ip.entries
  dead : ip.type = .dir → ¬ ip.live →
    ∀ x j, (x, j) ∈ realNames ip.entries → x = dot ∨ x = dotdot
  free : ip.type = .free → ip.nlink = 0

structure Inv (n : Nat → Inode) (p : Option Nat) : Prop where
  formed : ∀ i, (n i).Formed i
  sound : (treeWithout n p).Sound inodes rootIno
  count : ∀ i, (n i).nlink.toInt = (treeWithout n p).refs inodes i + owed p i

variable {n n' : Nat → Inode} {p p' : Option Nat} {i d off : Nat} {ip dp : Inode} {x : Name}
  {es : List Dirent} {space : Bool}

@[simp] theorem owed_none (i : Nat) : owed none i = 0 := rfl

@[simp] theorem owed_self (i : Nat) : owed (some i) i = 1 := if_pos rfl

theorem owed_of_ne {j : Nat} (h : i ≠ j) : owed (some i) j = 0 := by
  apply if_neg
  intro heq
  injection heq with heq
  exact h heq

theorem owed_nonneg (p : Option Nat) (i : Nat) : 0 ≤ owed p i := by
  rw [owed]
  split
  · omega
  · omega

theorem Inode.node_of_live (h : ip.live) : ip.node = some (directory ip.entries) := if_pos h

theorem Inode.node_of_not_live (h : ¬ ip.live) : ip.node = none := if_neg h

theorem tree_update (n : Nat → Inode) (i : Nat) (ip : Inode) :
    tree (Function.update n i ip) = Function.update (tree n) i ip.node := by
  funext j
  by_cases hj : j = i
  · subst hj
    simp [tree]
  · simp [tree, hj]

def Out (n : Nat → Inode) (p : Option Nat) (i : Nat) : Prop :=
  p = some i ∨ p = none ∧ ¬ (n i).live

theorem Out.treeWithout_eq (h : Out n p i) : treeWithout n p = Function.update (tree n) i none := by
  rcases h with rfl | ⟨rfl, hlive⟩
  · rfl
  · rw [treeWithout, ← Inode.node_of_not_live hlive]
    exact (Function.update_eq_self i (tree n)).symm

theorem Out.owed_of_ne {j : Nat} (h : Out n p i) (hj : j ≠ i) : owed p j = 0 := by
  rcases h with rfl | ⟨rfl, _⟩
  · exact Links.owed_of_ne hj.symm
  · rfl

theorem treeWithout_file (hfile : ¬ (n i).live) : treeWithout n (some i) = tree n := by
  have hout : Out n none i := Or.inr ⟨rfl, hfile⟩
  exact hout.treeWithout_eq.symm

theorem nlink_entries (n : Nat → Inode) (d : Nat) (es : List Dirent) (j : Nat) :
    (Function.update n d { n d with entries := es } j).nlink = (n j).nlink := by
  by_cases hj : j = d
  · subst hj
    rw [Function.update_self]
  · rw [Function.update_of_ne hj]

theorem treeWithout_of_live (hlive : (n d).live) (hp : p ≠ some d) :
    treeWithout n p d = some (directory (n d).entries) := by
  have hnode : tree n d = some (directory (n d).entries) := Inode.node_of_live hlive
  cases p with
  | none => exact hnode
  | some i =>
      have hne : d ≠ i := by
        intro heq
        exact hp (by rw [heq])
      rw [treeWithout, Function.update_of_ne hne]
      exact hnode

theorem live_of_treeWithout {dir : Directory Nat Name} (h : treeWithout n p d = some dir) :
    (n d).live ∧ dir = directory (n d).entries := by
  have hnode : (n d).node = some dir := by
    cases p with
    | none => exact h
    | some i =>
        by_cases hd : d = i
        · subst hd
          simp [treeWithout] at h
        · rwa [treeWithout, Function.update_of_ne hd] at h
  rw [Inode.node] at hnode
  split at hnode
  · rename_i hlive
    injection hnode with hnode
    exact ⟨hlive, hnode.symm⟩
  · cases hnode

namespace Inv

theorem nlink_pos_of_owed (h : Inv n (some i)) : 0 < (n i).nlink.toInt := by
  have hcount := h.count i
  rw [owed_self] at hcount
  omega

theorem nlink_ne_zero_of_owed (h : Inv n (some i)) : (n i).nlink ≠ 0 := by
  intro hzero
  have hpos := h.nlink_pos_of_owed
  rw [hzero] at hpos
  exact absurd hpos (by decide)

theorem nlink_pos_of_mem (h : Inv n p) (hlive : (n d).live) (hp : p ≠ some d)
    (hx : (x, i) ∈ (directory (n d).entries).names) : 0 < (n i).nlink.toInt := by
  have htree := treeWithout_of_live hlive hp
  have hnamings := NameTree.namings_ne_zero (h.sound.mem htree) htree hx
  have hcount := h.count i
  have howed := owed_nonneg p i
  rw [NameTree.refs] at hcount
  omega

theorem type_ne_free (h : Inv n p) (hpos : 0 < (n i).nlink.toInt) : (n i).type ≠ .free := by
  intro hfree
  rw [(h.formed i).free hfree] at hpos
  exact absurd hpos (by decide)

theorem ne_zero_of_nlink (h : Inv n p) (hpos : 0 < (n i).nlink.toInt) : i ≠ 0 := by
  have hrange := (h.formed i).range (h.type_ne_free hpos)
  omega

/-- A directory has one name and at most one child for each inode. -/
theorem nlink_le (h : Inv n p) (hlive : (n d).live) (hp : p ≠ some d) :
    (n d).nlink.toInt ≤ 201 := by
  have htree := treeWithout_of_live hlive hp
  have hnamings : (treeWithout n p).namings inodes d ≤ 1 := by
    by_cases hroot : d = rootIno
    · by_contra hmany
      obtain ⟨e, dir, y, hdir, hy⟩ := NameTree.exists_name_of_namings
        (t := treeWithout n p) (s := inodes) (i := d) (by omega)
      exact h.sound.ne_root hdir hy hroot
    · exact le_of_eq (h.sound.single htree hroot)
  have hchildren : (treeWithout n p).children inodes d ≤ 200 := by
    have hle := Finset.sum_le_card_nsmul inodes (fun e => NameTree.parentOf d (treeWithout n p e)) 1
      (by
        intro e _
        cases treeWithout n p e with
        | none => simp
        | some dir =>
            rw [NameTree.parentOf_some]
            split
            · exact le_refl 1
            · exact Nat.zero_le 1)
    have hcard : inodes.card = 200 := Finset.card_range ninodes
    rw [hcard] at hle
    exact hle
  have hcount := h.count d
  have howed : owed p d = 0 := if_neg hp
  rw [NameTree.refs, howed] at hcount
  omega

/-! ## Changes of one inode that is not in the tree -/

theorem replace (h : Inv n p) (hout : Out n p i)
    (hout' : Out (Function.update n i ip) p' i) (hformed : ip.Formed i)
    (hcount : ip.nlink.toInt + owed p i = (n i).nlink.toInt + owed p' i) :
    Inv (Function.update n i ip) p' := by
  have htree : treeWithout (Function.update n i ip) p' = treeWithout n p := by
    rw [hout.treeWithout_eq, hout'.treeWithout_eq, tree_update, Function.update_idem]
  constructor
  case formed =>
    intro j
    by_cases hj : j = i
    · subst hj
      simpa using hformed
    · simpa [hj] using h.formed j
  case sound =>
    rw [htree]
    exact h.sound
  case count =>
    intro j
    rw [htree]
    have hold := h.count j
    by_cases hj : j = i
    · subst hj
      rw [Function.update_self]
      omega
    · rw [Function.update_of_ne hj, hout'.owed_of_ne hj]
      rw [hout.owed_of_ne hj] at hold
      exact hold

theorem bump (h : Inv n none) (hip : n i = ip) (hfree : ip.type ≠ .free) (hdir : ip.type ≠ .dir)
    (hmax : ip.nlink.toInt ≠ 32767) :
    Inv (Function.update n i { ip with nlink := ip.nlink + 1 }) (some i) := by
  subst hip
  have hsum : ((n i).nlink + 1).toInt = (n i).nlink.toInt + 1 := by
    have hlt := (n i).nlink.toInt_lt
    exact toInt_add_one (by omega)
  apply h.replace (Or.inr ⟨rfl, fun hlive => hdir hlive.1⟩) (Or.inl rfl)
  · exact ⟨(h.formed i).range, fun hlive => absurd hlive.1 hdir, fun heq => absurd heq hdir,
      fun heq => absurd heq hfree⟩
  · rw [owed_none, owed_self, hsum, add_zero]

/-- The link without a name goes. -/
theorem drop (h : Inv n (some i)) (hip : n i = ip)
    (hout : ¬ ip.live ∨ ip.nlink.toInt = 1 ∧ (directory ip.entries).names = 0) :
    Inv (Function.update n i { ip with nlink := ip.nlink - 1 }) none := by
  subst hip
  have hpos := h.nlink_pos_of_owed
  have hfree := h.type_ne_free hpos
  have hsub := toInt_sub_one hpos
  have hdead : ¬ Inode.live { n i with nlink := (n i).nlink - 1 } := by
    intro hlive
    cases hout with
    | inl hfile => exact hfile ⟨hlive.1, hpos⟩
    | inr hlast =>
        have hzero := hlive.2
        rw [hsub] at hzero
        omega
  apply h.replace (Or.inl rfl) (Or.inr ⟨rfl, by rwa [Function.update_self]⟩)
  · refine ⟨(h.formed i).range, fun hlive => absurd hlive hdead, ?_, fun heq => absurd heq hfree⟩
    intro hdir _ x j hx
    cases hout with
    | inl hfile => exact absurd ⟨hdir, hpos⟩ hfile
    | inr hlast => exact ((h.formed i).shaped ⟨hdir, hpos⟩).dots_of_empty hlast.2 hx
  · rw [owed_none, owed_self, hsub, add_zero, Int.sub_add_cancel]

/-! ## Names that come and go -/

theorem formed_update (h : Inv n p) (hlive : (n d).live) (hlive' : ip.live)
    (hshaped : Shaped d ip.entries) (j : Nat) : (Function.update n d ip j).Formed j := by
  by_cases hj : j = d
  · subst hj
    rw [Function.update_self]
    constructor
    case range =>
      intro _
      apply (h.formed j).range
      rw [hlive.1]
      decide
    case shaped => exact fun _ => hshaped
    case dead => exact fun _ hdead => absurd hlive' hdead
    case free =>
      intro hfree
      rw [hlive'.1] at hfree
      cases hfree
  · rw [Function.update_of_ne hj]
    exact h.formed j

/-- The name of a file comes into directory `d`. -/
theorem link (h : Inv n (some i)) (hfile : ¬ (n i).live) (hdp : n d = dp) (hlive : dp.live)
    (hnone : findEntry dp.entries x = none)
    (hput : putEntry dp.entries ⟨i, x⟩ 0 space = some es) :
    Inv (Function.update n d { dp with entries := es }) none := by
  subst hdp
  have hi := h.ne_zero_of_nlink h.nlink_pos_of_owed
  obtain ⟨hshaped, hdirectory, hfresh⟩ := ((h.formed d).shaped hlive).put hnone hi hput
  have hlive' : Inode.live { n d with entries := es } := hlive
  have hsame := treeWithout_file hfile
  have hd : tree n d = some (directory (n d).entries) := Inode.node_of_live hlive
  have htree : tree (Function.update n d { n d with entries := es }) =
      Function.update (tree n) d (some ((directory (n d).entries).add x i)) := by
    rw [tree_update, Inode.node_of_live hlive', hdirectory]
  have hsound := h.sound
  rw [hsame] at hsound
  constructor
  case formed => exact h.formed_update hlive hlive' hshaped
  case sound =>
    rw [treeWithout, htree]
    exact hsound.link hd (Inode.node_of_not_live hfile) hfresh
  case count =>
    intro j
    have hold := h.count j
    rw [treeWithout, htree, hsound.refs_link hd, nlink_entries, hold, hsame, owed_none]
    by_cases hj : i = j
    · rw [if_pos hj, hj, owed_self]
      omega
    · rw [if_neg hj, owed_of_ne hj]
      omega

/-- The name of a new directory comes into directory `d`, which gets a link from it. -/
theorem mkdir (h : Inv n (some i)) (hdir : (n i).live) (hone : (n i).nlink.toInt = 1)
    (hempty : directory (n i).entries = { parent := d, names := 0 }) (hdi : d ≠ i)
    (hdp : n d = dp) (hlive : dp.live) (hnone : findEntry dp.entries x = none)
    (hput : putEntry dp.entries ⟨i, x⟩ 0 space = some es) :
    Inv (Function.update n d { dp with entries := es, nlink := dp.nlink + 1 }) none := by
  subst hdp
  have hi := h.ne_zero_of_nlink h.nlink_pos_of_owed
  have his : i ∈ inodes := by
    have hrange := (h.formed i).range (h.type_ne_free h.nlink_pos_of_owed)
    exact Finset.mem_range.mpr hrange.2
  obtain ⟨hshaped, hdirectory, hfresh⟩ := ((h.formed d).shaped hlive).put hnone hi hput
  have hsum : ((n d).nlink + 1).toInt = (n d).nlink.toInt + 1 := by
    have hle := h.nlink_le hlive (by simpa using hdi.symm)
    exact toInt_add_one (by omega)
  have hlive' : Inode.live { n d with entries := es, nlink := (n d).nlink + 1 } := by
    have hpos := hlive.2
    exact ⟨hlive.1, by rw [hsum]; omega⟩
  have hnode : tree n i = some { parent := d, names := 0 } := by
    rw [← hempty]
    exact Inode.node_of_live hdir
  have hd : treeWithout n (some i) d = some (directory (n d).entries) :=
    treeWithout_of_live hlive (by simpa using hdi.symm)
  have hi' : treeWithout n (some i) i = none := Function.update_self ..
  have hzero : (treeWithout n (some i)).namings inodes i = 0 := by
    have hcount := h.count i
    rw [hone, owed_self, NameTree.refs] at hcount
    omega
  have htree : tree (Function.update n d { n d with entries := es, nlink := (n d).nlink + 1 }) =
      Function.update (Function.update (treeWithout n (some i)) d
        (some ((directory (n d).entries).add x i))) i (some { parent := d, names := 0 }) := by
    rw [tree_update, Inode.node_of_live hlive', hdirectory, treeWithout,
      Function.update_comm hdi, Function.update_idem, ← hnode, Function.update_eq_self]
  constructor
  case formed => exact h.formed_update hlive hlive' hshaped
  case sound =>
    rw [treeWithout, htree]
    exact h.sound.mkdir hd hi' his hfresh hzero
  case count =>
    intro j
    have hold := h.count j
    rw [treeWithout, htree, h.sound.refs_mkdir hd hi' his, owed_none]
    by_cases hj : j = d
    · subst hj
      rw [Function.update_self, hsum, hold, if_neg hdi.symm, if_pos rfl, owed_of_ne hdi.symm]
      omega
    · rw [Function.update_of_ne hj, hold, if_neg (Ne.symm hj)]
      by_cases hij : i = j
      · rw [if_pos hij, hij, owed_self]
        omega
      · rw [if_neg hij, owed_of_ne hij]
        omega

/-- The name of a file goes from directory `d`. -/
theorem unlink (h : Inv n none) (hfile : ¬ (n i).live) (hdp : n d = dp) (hlive : dp.live)
    (hx : x ≠ dot ∧ x ≠ dotdot) (hfind : findEntry dp.entries x = some (off, i)) :
    Inv (Function.update n d { dp with entries := dp.entries.set off ⟨0, []⟩ }) (some i) := by
  subst hdp
  have hdi : i ≠ d := by
    intro heq
    exact hfile (heq ▸ hlive)
  have hold := (h.formed d).shaped hlive
  have hmem := hold.mem_of_findEntry hx hfind
  obtain ⟨hshaped, hdirectory⟩ := hold.clear hx hfind
  have hlive' : Inode.live { n d with entries := (n d).entries.set off ⟨0, []⟩ } := hlive
  have hsound : (tree n).Sound inodes rootIno := h.sound
  have hd : tree n d = some (directory (n d).entries) := Inode.node_of_live hlive
  have htree : treeWithout
      (Function.update n d { n d with entries := (n d).entries.set off ⟨0, []⟩ }) (some i) =
      Function.update (tree n) d (some ((directory (n d).entries).remove x i)) := by
    rw [treeWithout_file (by rwa [Function.update_of_ne hdi]), tree_update,
      Inode.node_of_live hlive', hdirectory]
  constructor
  case formed => exact h.formed_update hlive hlive' hshaped
  case sound =>
    rw [htree]
    exact hsound.unlink hd (Inode.node_of_not_live hfile) hmem
  case count =>
    intro j
    have hcount := h.count j
    have hrefs := hsound.refs_unlink hd hmem j
    rw [nlink_entries, hcount, htree, treeWithout, hrefs, owed_none]
    by_cases hj : i = j
    · rw [if_pos hj, hj, owed_self]
      omega
    · rw [if_neg hj, owed_of_ne hj]
      omega

/-- The name of an empty directory goes from directory `d`, which loses the link from it. -/
theorem rmdir (h : Inv n none) (hdir : (n i).live) (hempty : (directory (n i).entries).names = 0)
    (hdp : n d = dp) (hlive : dp.live) (hx : x ≠ dot ∧ x ≠ dotdot)
    (hfind : findEntry dp.entries x = some (off, i)) :
    Inv (Function.update n d
      { dp with entries := dp.entries.set off ⟨0, []⟩, nlink := dp.nlink - 1 }) (some i) := by
  subst hdp
  have hold := (h.formed d).shaped hlive
  have hmem := hold.mem_of_findEntry hx hfind
  obtain ⟨hshaped, hdirectory⟩ := hold.clear hx hfind
  have hd : tree n d = some (directory (n d).entries) := Inode.node_of_live hlive
  have hi : tree n i = some (directory (n i).entries) := Inode.node_of_live hdir
  have hdi : d ≠ i := by
    intro heq
    rw [heq, hempty] at hmem
    simp at hmem
  have htreeSound : (tree n).Sound inodes rootIno := h.sound
  have hsound := htreeSound.rmdir hd hmem hi hempty
  have hrefs := htreeSound.refs_rmdir hd hmem hi hempty
  have hsub : ((n d).nlink - 1).toInt = (n d).nlink.toInt - 1 := toInt_sub_one hlive.2
  have hlive' : Inode.live
      { n d with entries := (n d).entries.set off ⟨0, []⟩, nlink := (n d).nlink - 1 } := by
    have hpos := hsound.refs_pos (Function.update_self ..)
    have hcount := h.count d
    have hd' := hrefs d
    rw [if_neg hdi.symm, if_pos rfl] at hd'
    simp only [treeWithout, hd', owed_none] at hcount
    refine ⟨hlive.1, ?_⟩
    rw [hsub]
    omega
  have htree : treeWithout (Function.update n d
      { n d with entries := (n d).entries.set off ⟨0, []⟩, nlink := (n d).nlink - 1 }) (some i) =
      Function.update (Function.update (tree n) i none) d
        (some ((directory (n d).entries).remove x i)) := by
    rw [treeWithout, tree_update, Inode.node_of_live hlive', hdirectory, Function.update_comm hdi]
  constructor
  case formed => exact h.formed_update hlive hlive' hshaped
  case sound =>
    rw [htree]
    exact hsound
  case count =>
    intro j
    have hcount := h.count j
    have hj' := hrefs j
    rw [treeWithout, owed_none] at hcount
    rw [htree, owed]
    by_cases hj : j = d
    · subst hj
      rw [if_neg hdi.symm, if_pos rfl] at hj'
      rw [Function.update_self, if_neg (by simpa using hdi.symm), hsub]
      omega
    · rw [if_neg (Ne.symm hj)] at hj'
      rw [Function.update_of_ne hj]
      by_cases hij : i = j
      · rw [if_pos hij] at hj'
        rw [if_pos (by rw [hij])]
        omega
      · rw [if_neg hij] at hj'
        rw [if_neg (by simpa using hij)]
        omega

/-- The name is the only link of an empty directory. -/
theorem nlink_of_empty (h : Inv n none) (hdir : (n i).live)
    (hempty : (directory (n i).entries).names = 0) (hlive : (n d).live)
    (hx : (x, i) ∈ (directory (n d).entries).names) : (n i).nlink.toInt = 1 := by
  have hcount := h.count i
  have hd : tree n d = some (directory (n d).entries) := Inode.node_of_live hlive
  have hi : tree n i = some (directory (n i).entries) := Inode.node_of_live hdir
  have hsound : (tree n).Sound inodes rootIno := h.sound
  have hrefs := hsound.refs_of_empty hi hempty (hsound.ne_root hd hx)
  rw [treeWithout, owed_none] at hcount
  omega

end Inv

/-! ## Inodes that are freed -/

def Freed (n n' : Nat → Inode) : Prop :=
  ∀ i, n' i = n i ∨ (n i).nlink = 0 ∧ n' i = (n i).truncated

theorem Freed.refl (n : Nat → Inode) : Freed n n := fun _ => Or.inl rfl

theorem Freed.trans {n'' : Nat → Inode} (h : Freed n n') (h' : Freed n' n'') : Freed n n'' := by
  intro i
  cases h' i with
  | inl hsame =>
      rw [hsame]
      exact h i
  | inr hfreed =>
      right
      cases h i with
      | inl hold => rwa [hold] at hfreed
      | inr hold =>
          refine ⟨hold.1, ?_⟩
          rw [hfreed.2, hold.2]
          rfl

theorem Freed.of_nlink (h : Freed n n') (hi : (n i).nlink ≠ 0) : n' i = n i :=
  (h i).resolve_right fun hfreed => hi hfreed.1

theorem Freed.of_dir (h : Freed n n') (hi : (n' i).type = .dir) : n' i = n i := by
  apply (h i).resolve_right
  intro hfreed
  rw [hfreed.2] at hi
  cases hi

theorem Freed.nlink (h : Freed n n') (i : Nat) : (n' i).nlink = (n i).nlink := by
  cases h i with
  | inl hsame => rw [hsame]
  | inr hfreed => rw [hfreed.2, Inode.truncated]

theorem Freed.node (h : Freed n n') (i : Nat) : (n' i).node = (n i).node := by
  cases h i with
  | inl hsame => rw [hsame]
  | inr hfreed =>
      have hzero := eq_zero_iff_toInt.mp hfreed.1
      rw [Inode.node_of_not_live, Inode.node_of_not_live]
      · intro hlive
        have hpos := hlive.2
        omega
      · intro hlive
        rw [hfreed.2] at hlive
        cases hlive.1

theorem Inv.freed (h : Inv n p) (hfreed : Freed n n') : Inv n' p := by
  have htree : tree n' = tree n := by
    funext i
    exact hfreed.node i
  have hwithout : treeWithout n' p = treeWithout n p := by
    cases p with
    | none => exact htree
    | some i => rw [treeWithout, treeWithout, htree]
  constructor
  case formed =>
    intro i
    cases hfreed i with
    | inl hsame =>
        rw [hsame]
        exact h.formed i
    | inr hgone =>
        rw [hgone.2]
        constructor
        case range => exact fun hne => absurd rfl hne
        case shaped =>
          intro hlive
          cases hlive.1
        case dead =>
          intro hdir
          cases hdir
        case free => exact fun _ => hgone.1
  case sound =>
    rw [hwithout]
    exact h.sound
  case count =>
    intro i
    rw [hwithout, hfreed.nlink]
    exact h.count i

/-! ## What the invariant says -/

theorem links_eq (hlive : ip.live) (hshaped : Shaped d ip.entries) (hi : i ≠ 0) :
    ip.links i = NameTree.namesOf i ip.node + NameTree.parentOf i ip.node := by
  obtain ⟨up, rest, heq, _, hup, hnames⟩ := hshaped
  rw [Inode.node_of_live hlive, NameTree.namesOf_some, NameTree.parentOf_some, Inode.links, heq,
    directory_dots, countP_realNames hi]
  have hrest : rest.countP (fun e => e.inum = i ∧ e.name ≠ dot) =
      rest.countP fun e => e.inum = i := by
    apply List.countP_congr
    intro e he
    simp only [decide_eq_true_eq]
    constructor
    · exact fun h => h.1
    · intro hinum
      refine ⟨hinum, (hnames e.name i ?_).1⟩
      rw [mem_realNames, ← hinum]
      exact ⟨by rw [hinum]; exact hi, he⟩
  rw [List.countP_cons, List.countP_cons, hrest]
  simp [dot, dotdot]

namespace Inv

theorem linkCount_eq (h : Inv n none) (hi : i ≠ 0) : (n i).nlink.toInt = linkCount n i := by
  have hcount := h.count i
  have hrefs : (treeWithout n none).refs inodes i = linkCount n i := by
    rw [NameTree.refs, NameTree.namings, NameTree.children, ← Finset.sum_add_distrib, linkCount]
    apply Finset.sum_congr rfl
    intro d _
    rw [treeWithout, tree]
    by_cases hlive : (n d).live
    · rw [if_pos hlive, links_eq hlive ((h.formed d).shaped hlive) hi]
    · rw [if_neg hlive, Inode.node_of_not_live hlive]
      rfl
  rw [owed_none, hrefs] at hcount
  omega

theorem findEntry_of_mem (h : Inv n none) (hlive : (n d).live)
    (hx : (x, i) ∈ (directory (n d).entries).names) :
    ∃ off, findEntry (n d).entries x = some (off, i) := by
  have hdistinct := h.sound.distinct (Inode.node_of_live hlive : tree n d = _)
  obtain ⟨up, rest, heq, hd, hup, hnames⟩ := (h.formed d).shaped hlive
  rw [heq, directory_dots] at hdistinct hx
  apply Links.findEntry_of_mem
  · rw [heq, realNames_cons hd, realNames_cons hup, Multiset.map_cons, Multiset.map_cons,
      Multiset.nodup_cons, Multiset.nodup_cons, Multiset.mem_cons, not_or]
    refine ⟨⟨(by decide : dot ≠ dotdot), ?_⟩, ?_, hdistinct⟩
    · intro hdot
      obtain ⟨e, he, hname⟩ := Multiset.mem_map.mp hdot
      exact (hnames e.1 e.2 he).1 hname
    · intro hdotdot
      obtain ⟨e, he, hname⟩ := Multiset.mem_map.mp hdotdot
      exact (hnames e.1 e.2 he).2 hname
  · rw [heq, realNames_cons hd, realNames_cons hup]
    exact Multiset.mem_cons_of_mem (Multiset.mem_cons_of_mem hx)

theorem named (h : Inv n none) (hpos : 0 < (n i).nlink.toInt) : Named n i := by
  have hcount := h.count i
  rw [owed_none, add_zero] at hcount
  have hreach := h.sound.reach_of_refs (i := i) (by omega)
  clear hcount hpos
  induction hreach with
  | root => exact Named.root
  | @name d i dir x _ hd hx ih =>
      obtain ⟨hlive, hdir⟩ := live_of_treeWithout hd
      rw [hdir] at hx
      obtain ⟨off, hfind⟩ := h.findEntry_of_mem hlive hx
      exact Named.entry ih hlive hfind

end Inv

end SyscallSched.Xv6.Links
