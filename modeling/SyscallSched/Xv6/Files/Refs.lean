import Mathlib.Algebra.Order.BigOperators.Group.Finset
import SyscallSched.Xv6.Files.Closed

/-!
# Reference counts

Between calls the count of a file is the number of descriptors that hold it.  Within
a call the kernel itself may hold references, `extra`: a file that has no descriptor
yet, or one whose descriptor is gone already.
-/

namespace SyscallSched.Xv6

open SyscallSched.Foundation

namespace FileTables

def holders (v : FileTables) (f : Nat) : Nat := ∑ p ∈ slots, v.count p nofile f

def setFile (v : FileTables) (f : Nat) (file : File) : FileTables :=
  { v with file := Function.update v.file f file }

def setFd (v : FileTables) (p fd : Nat) (file : Option Nat) : FileTables :=
  { v with ofile := Function.update v.ofile p (Function.update (v.ofile p) fd file) }

end FileTables

structure RefsInv (extra : Multiset Nat) (v : FileTables) : Prop where
  refs : ∀ f, (v.file f).ref = v.holders f + extra.count f
  small : ∀ f ∈ extra, f < nfile
  inside : ∀ p fd f, v.ofile p fd = some f → p < nproc ∧ fd < nofile ∧ f < nfile
  /-- what is not in use has no type -/
  free : ∀ f, (v.file f).ref = 0 → (v.file f).type = .none

section

variable {v : FileTables} {extra : Multiset Nat} {p q fd f g n : Nat} {file : Option Nat}

/-! ## Counting descriptors -/

theorem setFd_ofile_self : (v.setFd p fd file).ofile p fd = file := by
  simp [FileTables.setFd]

theorem setFd_ofile_fd (h : n ≠ fd) : (v.setFd p fd file).ofile q n = v.ofile q n := by
  by_cases hq : q = p
  · subst hq
    simp [FileTables.setFd, h]
  · simp [FileTables.setFd, hq]

theorem setFd_ofile_ne (h : q ≠ p) : (v.setFd p fd file).ofile q = v.ofile q := by
  simp [FileTables.setFd, h]

theorem count_congr {w : FileTables} (h : ∀ i < n, w.ofile p i = v.ofile p i) :
    w.count p n f = v.count p n f := by
  rw [FileTables.count, FileTables.count]
  apply List.countP_congr
  intro i hi
  rw [h i (List.mem_range.mp hi)]

theorem count_setFd (h : fd < n) :
    (v.setFd p fd file).count p n g + (if v.ofile p fd = some g then 1 else 0) =
      v.count p n g + if file = some g then 1 else 0 := by
  induction n with
  | zero => exact absurd h (Nat.not_lt_zero fd)
  | succ n ih =>
      rw [count_succ, count_succ]
      cases Nat.lt_succ_iff_lt_or_eq.mp h with
      | inl hlt =>
          rw [setFd_ofile_fd hlt.ne']
          have hn := ih hlt
          omega
      | inr heq =>
          subst heq
          have hbelow : (v.setFd p fd file).count p fd g = v.count p fd g :=
            count_congr fun i hi => setFd_ofile_fd hi.ne
          rw [hbelow, setFd_ofile_self]
          omega

theorem holders_setFd (hp : p < nproc) (hfd : fd < nofile) :
    (v.setFd p fd file).holders g + (if v.ofile p fd = some g then 1 else 0) =
      v.holders g + if file = some g then 1 else 0 := by
  have hchange : (v.setFd p fd file).holders g + v.count p nofile g =
      v.holders g + (v.setFd p fd file).count p nofile g := by
    apply sum_change_share (mem_slots.mpr hp)
    intro q _ hq
    apply count_congr
    intro i _
    rw [setFd_ofile_ne hq]
  have hcount : (v.setFd p fd file).count p nofile g +
      (if v.ofile p fd = some g then 1 else 0) =
        v.count p nofile g + if file = some g then 1 else 0 := count_setFd hfd
  omega

theorem one_le_holders (hp : p < nproc) (hfd : fd < nofile) (h : v.ofile p fd = some f) :
    1 ≤ v.holders f := by
  have hmem : v.count p nofile f ≤ v.holders f :=
    Finset.single_le_sum (f := fun p => v.count p nofile f) (fun _ _ => Nat.zero_le _)
      (mem_slots.mpr hp)
  have hpos : 0 < v.count p nofile f := by
    apply List.countP_pos_iff.mpr
    exact ⟨fd, List.mem_range.mpr hfd, decide_eq_true h⟩
  omega

/-! ## Taking and giving back references -/

theorem RefsInv.referred (h : RefsInv extra v) (p : Nat) : v.Referred p := by
  intro fd _ f hopen
  obtain ⟨hp, hfd, -⟩ := h.inside p fd f hopen
  have hone := one_le_holders hp hfd hopen
  rw [h.refs f]
  omega

theorem RefsInv.ref_pos (h : RefsInv (f ::ₘ extra) v) : 0 < (v.file f).ref := by
  rw [h.refs f, Multiset.count_cons_self]
  omega

theorem RefsInv.open_fd (h : RefsInv (f ::ₘ extra) v) (hp : p < nproc) (hfd : fd < nofile)
    (hfree : v.ofile p fd = none) : RefsInv extra (v.setFd p fd (some f)) := by
  constructor
  case refs =>
      intro g
      have hrefs := h.refs g
      have hholders : (v.setFd p fd (some f)).holders g +
          (if v.ofile p fd = some g then 1 else 0) =
            v.holders g + if some f = some g then 1 else 0 := holders_setFd hp hfd
      rw [hfree, if_neg nofun] at hholders
      change (v.file g).ref = _
      by_cases hg : g = f
      · subst hg
        rw [Multiset.count_cons_self] at hrefs
        rw [if_pos rfl] at hholders
        omega
      · rw [Multiset.count_cons_of_ne hg] at hrefs
        rw [if_neg fun heq => hg (Option.some.inj heq).symm] at hholders
        omega
  case small => exact fun g hg => h.small g (Multiset.mem_cons_of_mem hg)
  case inside =>
      intro q i g hopen
      by_cases hi : i = fd
      · by_cases hq : q = p
        · subst hi
          subst hq
          rw [setFd_ofile_self] at hopen
          injection hopen with hg
          rw [← hg]
          exact ⟨hp, hfd, h.small f (Multiset.mem_cons_self f extra)⟩
        · rw [setFd_ofile_ne hq] at hopen
          exact h.inside q i g hopen
      · rw [setFd_ofile_fd hi] at hopen
        exact h.inside q i g hopen
  case free => exact h.free

theorem RefsInv.close_fd (h : RefsInv extra v) (hopen : v.ofile p fd = some f) :
    RefsInv (f ::ₘ extra) (v.setFd p fd none) := by
  obtain ⟨hp, hfd, hf⟩ := h.inside p fd f hopen
  constructor
  case refs =>
      intro g
      have hrefs := h.refs g
      have hholders : (v.setFd p fd none).holders g +
          (if v.ofile p fd = some g then 1 else 0) =
            v.holders g + if none = some g then 1 else 0 := holders_setFd hp hfd
      rw [hopen, if_neg (nofun : ¬ none = some g)] at hholders
      change (v.file g).ref = _
      by_cases hg : g = f
      · subst hg
        rw [if_pos rfl] at hholders
        rw [Multiset.count_cons_self]
        omega
      · rw [if_neg fun heq => hg (Option.some.inj heq).symm] at hholders
        rw [Multiset.count_cons_of_ne hg]
        omega
  case small =>
      intro g hg
      cases Multiset.mem_cons.mp hg with
      | inl heq =>
          rw [heq]
          exact hf
      | inr hmem => exact h.small g hmem
  case inside =>
      intro q i g hstill
      apply h.inside q i g
      by_cases hi : i = fd
      · by_cases hq : q = p
        · subst hi
          subst hq
          rw [setFd_ofile_self] at hstill
          cases hstill
        · rw [← setFd_ofile_ne hq]
          exact hstill
      · rw [← setFd_ofile_fd hi]
        exact hstill
  case free => exact h.free

/-! ## Changing a file -/

theorem setFile_file_self {ff : File} : (v.setFile f ff).file f = ff :=
  Function.update_self _ _ _

theorem setFile_file_ne {ff : File} (h : g ≠ f) : (v.setFile f ff).file g = v.file g :=
  Function.update_of_ne h _ _

theorem RefsInv.set_file {extra' : Multiset Nat} {ff : File} (h : RefsInv extra v)
    (hothers : ∀ g, g ≠ f → extra'.count g = extra.count g)
    (href : ff.ref + extra.count f = (v.file f).ref + extra'.count f)
    (hsmall : ∀ g ∈ extra', g < nfile) (htype : ff.ref = 0 → ff.type = .none) :
    RefsInv extra' (v.setFile f ff) := by
  constructor
  case refs =>
      intro g
      by_cases hg : g = f
      · subst hg
        have hrefs := h.refs g
        rw [setFile_file_self]
        change ff.ref = v.holders g + _
        omega
      · rw [setFile_file_ne hg, hothers g hg]
        exact h.refs g
  case small => exact hsmall
  case inside => exact h.inside
  case free =>
      intro g
      by_cases hg : g = f
      · subst hg
        rw [setFile_file_self]
        exact htype
      · rw [setFile_file_ne hg]
        exact h.free g

theorem small_cons (h : RefsInv extra v) (hf : f < nfile) : ∀ g ∈ f ::ₘ extra, g < nfile := by
  intro g hg
  cases Multiset.mem_cons.mp hg with
  | inl heq =>
      rw [heq]
      exact hf
  | inr hmem => exact h.small g hmem

/-- `filealloc` -/
theorem RefsInv.take {ff : File} (h : RefsInv extra v) (hf : f < nfile)
    (hfree : (v.file f).ref = 0) (href : ff.ref = 1) :
    RefsInv (f ::ₘ extra) (v.setFile f ff) := by
  apply h.set_file
  · exact fun g hg => Multiset.count_cons_of_ne hg extra
  · rw [Multiset.count_cons_self]
    omega
  · exact small_cons h hf
  · intro hzero
    omega

/-- `filedup` -/
theorem RefsInv.dup_file {ff : File} (h : RefsInv extra v) (hf : f < nfile)
    (href : ff.ref = (v.file f).ref + 1) : RefsInv (f ::ₘ extra) (v.setFile f ff) := by
  apply h.set_file
  · exact fun g hg => Multiset.count_cons_of_ne hg extra
  · rw [Multiset.count_cons_self]
    omega
  · exact small_cons h hf
  · intro hzero
    omega

/-- `fileclose` -/
theorem RefsInv.drop {ff : File} (h : RefsInv (f ::ₘ extra) v)
    (href : ff.ref + 1 = (v.file f).ref) (htype : ff.ref = 0 → ff.type = .none) :
    RefsInv extra (v.setFile f ff) := by
  apply h.set_file
  · exact fun g hg => (Multiset.count_cons_of_ne hg extra).symm
  · rw [Multiset.count_cons_self]
    omega
  · exact fun g hg => h.small g (Multiset.mem_cons_of_mem hg)
  · exact htype

theorem RefsInv.describe {ff : File} (h : RefsInv extra v) (href : ff.ref = (v.file f).ref)
    (hpos : 0 < ff.ref) : RefsInv extra (v.setFile f ff) := by
  apply h.set_file
  · exact fun _ _ => rfl
  · rw [href]
  · exact h.small
  · intro hzero
    omega

/-! ## `fork` -/

theorem holders_dup (hnp : q < nproc) (hempty : ∀ fd, v.ofile q fd = none) :
    (v.dup p q nofile).holders f = v.holders f + v.count p nofile f := by
  have hchange : (v.dup p q nofile).holders f + v.count q nofile f =
      v.holders f + (v.dup p q nofile).count q nofile f := by
    apply sum_change_share (mem_slots.mpr hnp)
    intro r _ hr
    apply count_congr
    intro i _
    rw [dup_ofile_ne hr]
  have hzero : v.count q nofile f = 0 := by
    apply List.countP_eq_zero.mpr
    intro fd _
    rw [hempty fd]
    simp
  have hcopy : (v.dup p q nofile).count q nofile f = v.count p nofile f := by
    rw [FileTables.count, FileTables.count, dup_ofile_self]
    apply List.countP_congr
    intro fd hfd
    have hlt := List.mem_range.mp hfd
    by_cases hopen : v.ofile p fd = none
    · simp [hopen, hempty fd]
    · simp [hopen, hlt]
  omega

theorem RefsInv.forked (h : RefsInv extra v) (hnp : q < nproc)
    (hempty : ∀ fd, v.ofile q fd = none) : RefsInv extra (v.dup p q nofile) := by
  constructor
  case refs =>
      intro f
      change (v.file f).ref + v.count p nofile f = _
      rw [holders_dup hnp hempty, h.refs f]
      omega
  case small => exact h.small
  case inside =>
      intro r fd f hopen
      by_cases hr : r = q
      · subst hr
        rw [dup_ofile_self] at hopen
        dsimp only at hopen
        split at hopen
        case isTrue hcopied =>
            obtain ⟨-, hf⟩ := (h.inside p fd f hopen).2
            exact ⟨hnp, hcopied.1, hf⟩
        case isFalse =>
            rw [hempty fd] at hopen
            cases hopen
      · rw [dup_ofile_ne hr] at hopen
        exact h.inside r fd f hopen
  case free =>
      intro f hzero
      change (v.file f).ref + v.count p nofile f = 0 at hzero
      change (v.file f).type = .none
      exact h.free f (Nat.eq_zero_of_add_eq_zero_right hzero)

end

/-! ## Pipes -/

def Pipe.isOpen (pipe : Pipe) : Bool → Bool
  | true => pipe.writeopen
  | false => pipe.readopen

def FileTables.IsEnd (v : FileTables) (f pi : Nat) (writable : Bool) : Prop :=
  0 < (v.file f).ref ∧ (v.file f).type = .pipe ∧ (v.file f).pipe = pi ∧
    (v.file f).writable = writable

structure EndsInv (v : FileTables) : Prop where
  ends : ∀ pi writable, (v.pipe pi).isOpen writable = true ↔ ∃ f, v.IsEnd f pi writable
  unique : ∀ f g pi writable, v.IsEnd f pi writable → v.IsEnd g pi writable → f = g

def FileTables.setPipe (v : FileTables) (pi : Nat) (pipe : Pipe) : FileTables :=
  { v with pipe := Function.update v.pipe pi pipe }

def Pipe.shut (pipe : Pipe) : Bool → Pipe
  | true => { pipe with writeopen := false }
  | false => { pipe with readopen := false }

section

variable {v w : FileTables} {extra : Multiset Nat} {f f0 f1 g pi : Nat} {ff : File}
  {writable : Bool}

theorem EndsInv.congr (h : EndsInv v) (hpipe : w.pipe = v.pipe)
    (hend : ∀ f pi writable, w.IsEnd f pi writable ↔ v.IsEnd f pi writable) : EndsInv w := by
  constructor
  case ends =>
      intro pi writable
      rw [hpipe, h.ends]
      simp only [hend]
  case unique =>
      intro f g pi writable hf hg
      exact h.unique f g pi writable ((hend f pi writable).mp hf) ((hend g pi writable).mp hg)

theorem isEnd_setFile_ne (h : g ≠ f) : (v.setFile f ff).IsEnd g pi writable ↔
    v.IsEnd g pi writable := by
  rw [FileTables.IsEnd, setFile_file_ne h, FileTables.IsEnd]

theorem not_isEnd_of_type (h : (v.file f).type ≠ .pipe) : ¬ v.IsEnd f pi writable :=
  fun hend => h hend.2.1

theorem EndsInv.set_other (h : EndsInv v) (hbefore : (v.file f).type ≠ .pipe)
    (hafter : ff.type ≠ .pipe) : EndsInv (v.setFile f ff) := by
  refine h.congr (w := v.setFile f ff) rfl ?_
  intro g pi writable
  by_cases hg : g = f
  · subst hg
    apply iff_of_false
    · apply not_isEnd_of_type
      rw [setFile_file_self]
      exact hafter
    · exact not_isEnd_of_type hbefore
  · exact isEnd_setFile_ne hg

theorem EndsInv.set_ref {n : Nat} (h : EndsInv v) (hbefore : 0 < (v.file f).ref)
    (hafter : 0 < n) : EndsInv (v.setFile f { v.file f with ref := n }) := by
  refine h.congr (w := v.setFile f { v.file f with ref := n }) rfl ?_
  intro g pi writable
  by_cases hg : g = f
  · subst hg
    rw [FileTables.IsEnd, setFile_file_self, FileTables.IsEnd]
    exact and_congr_left fun _ => iff_of_true hafter hbefore
  · exact isEnd_setFile_ne hg

theorem isOpen_shut_self (pipe : Pipe) : (pipe.shut writable).isOpen writable = false := by
  cases writable <;> rfl

theorem isOpen_shut_ne (pipe : Pipe) {other : Bool} (h : other ≠ writable) :
    (pipe.shut writable).isOpen other = pipe.isOpen other := by
  cases writable <;> cases other <;> first | rfl | exact absurd rfl h

theorem EndsInv.shut (h : EndsInv v) (hend : v.IsEnd f pi writable) (hff : ff.type ≠ .pipe) :
    EndsInv ((v.setFile f ff).setPipe pi ((v.pipe pi).shut writable)) := by
  have hself : ∀ pi' writable', ¬ (v.setFile f ff).IsEnd f pi' writable' := by
    intro pi' writable'
    apply not_isEnd_of_type
    rw [setFile_file_self]
    exact hff
  have hiff : ∀ g pi' writable', (v.setFile f ff).IsEnd g pi' writable' ↔
      v.IsEnd g pi' writable' ∧ g ≠ f := by
    intro g pi' writable'
    by_cases hg : g = f
    · rw [hg]
      exact iff_of_false (hself pi' writable') fun h => h.2 rfl
    · rw [isEnd_setFile_ne hg, and_iff_left hg]
  constructor
  case ends =>
      intro pi' writable'
      change (Function.update v.pipe pi _ pi').isOpen writable' = true ↔
        ∃ g, (v.setFile f ff).IsEnd g pi' writable'
      simp only [hiff]
      by_cases hpi : pi' = pi
      · subst hpi
        rw [Function.update_self]
        by_cases hw : writable' = writable
        · subst hw
          rw [isOpen_shut_self]
          apply iff_of_false Bool.false_ne_true
          rintro ⟨g, hg, hne⟩
          exact hne (h.unique g f pi' writable' hg hend)
        · rw [isOpen_shut_ne _ hw, h.ends]
          apply exists_congr
          intro g
          rw [iff_self_and]
          rintro hg rfl
          exact hw (hg.2.2.2.symm.trans hend.2.2.2)
      · rw [Function.update_of_ne hpi, h.ends]
        apply exists_congr
        intro g
        rw [iff_self_and]
        rintro hg rfl
        exact hpi (hg.2.2.1.symm.trans hend.2.2.1)
  case unique =>
      intro g g' pi' writable' hg hg'
      exact h.unique g g' pi' writable' ((hiff g pi' writable').mp hg).1
        ((hiff g' pi' writable').mp hg').1

theorem EndsInv.new_pipe (h : EndsInv v) (hne : f1 ≠ f0) (h0 : (v.file f0).type ≠ .pipe)
    (h1 : (v.file f1).type ≠ .pipe) (hr0 : 0 < (v.file f0).ref) (hr1 : 0 < (v.file f1).ref)
    (hclosed : ∀ writable, (v.pipe pi).isOpen writable = false) :
    EndsInv (((v.setPipe pi { readopen := true, writeopen := true }).setFile f0
      ((v.file f0).pipeEnd pi false)).setFile f1 ((v.file f1).pipeEnd pi true)) := by
  obtain ⟨u, hu⟩ : ∃ u, u = ((v.setPipe pi { readopen := true, writeopen := true }).setFile f0
      ((v.file f0).pipeEnd pi false)).setFile f1 ((v.file f1).pipeEnd pi true) := ⟨_, rfl⟩
  have hfile0 : u.file f0 = (v.file f0).pipeEnd pi false := by
    rw [hu, setFile_file_ne hne.symm, setFile_file_self]
  have hfile1 : u.file f1 = (v.file f1).pipeEnd pi true := by
    rw [hu, setFile_file_self]
  have hother : ∀ g, g ≠ f0 → g ≠ f1 → u.file g = v.file g := by
    intro g hg0 hg1
    rw [hu, setFile_file_ne hg1, setFile_file_ne hg0]
    rfl
  have hnone : ∀ g writable, ¬ v.IsEnd g pi writable := by
    intro g writable hend
    have hopen := (h.ends pi writable).mpr ⟨g, hend⟩
    rw [hclosed writable] at hopen
    cases hopen
  have hend0 : ∀ pi' writable, u.IsEnd f0 pi' writable ↔ pi' = pi ∧ writable = false := by
    intro pi' writable
    rw [FileTables.IsEnd, hfile0]
    exact ⟨fun hend => ⟨hend.2.2.1.symm, hend.2.2.2.symm⟩,
      fun heq => ⟨hr0, rfl, heq.1.symm, heq.2.symm⟩⟩
  have hend1 : ∀ pi' writable, u.IsEnd f1 pi' writable ↔ pi' = pi ∧ writable = true := by
    intro pi' writable
    rw [FileTables.IsEnd, hfile1]
    exact ⟨fun hend => ⟨hend.2.2.1.symm, hend.2.2.2.symm⟩,
      fun heq => ⟨hr1, rfl, heq.1.symm, heq.2.symm⟩⟩
  have hends : ∀ g pi' writable, u.IsEnd g pi' writable ↔
      (g = f0 ∧ pi' = pi ∧ writable = false) ∨ (g = f1 ∧ pi' = pi ∧ writable = true) ∨
        v.IsEnd g pi' writable := by
    intro g pi' writable
    by_cases hg0 : g = f0
    · subst hg0
      rw [hend0]
      simp [hne.symm, not_isEnd_of_type h0]
    · by_cases hg1 : g = f1
      · subst hg1
        rw [hend1]
        simp [hne, not_isEnd_of_type h1]
      · rw [FileTables.IsEnd, hother g hg0 hg1, FileTables.IsEnd]
        simp [hg0, hg1]
  rw [← hu]
  constructor
  case ends =>
      intro pi' writable
      have hpipe : u.pipe pi' =
          if pi' = pi then { readopen := true, writeopen := true } else v.pipe pi' := by
        rw [hu]
        exact Function.update_apply v.pipe pi _ pi'
      rw [hpipe]
      by_cases hpi : pi' = pi
      · subst hpi
        rw [if_pos rfl]
        cases writable with
        | true => exact iff_of_true rfl ⟨f1, (hend1 pi' true).mpr ⟨rfl, rfl⟩⟩
        | false => exact iff_of_true rfl ⟨f0, (hend0 pi' false).mpr ⟨rfl, rfl⟩⟩
      · rw [if_neg hpi, h.ends]
        apply exists_congr
        intro g
        rw [hends]
        simp [hpi]
  case unique =>
      intro g g' pi' writable hg hg'
      rw [hends] at hg hg'
      rcases hg with ⟨rfl, rfl, rfl⟩ | ⟨rfl, rfl, rfl⟩ | hg
      · rcases hg' with ⟨rfl, -⟩ | ⟨-, -, hw⟩ | hg'
        · rfl
        · cases hw
        · exact absurd hg' (hnone g' false)
      · rcases hg' with ⟨-, -, hw⟩ | ⟨rfl, -⟩ | hg'
        · cases hw
        · rfl
        · exact absurd hg' (hnone g' true)
      · rcases hg' with ⟨-, rfl, -⟩ | ⟨-, rfl, -⟩ | hg'
        · exact absurd hg (hnone g writable)
        · exact absurd hg (hnone g writable)
        · exact h.unique g g' pi' writable hg hg'

theorem EndsInv.forked {p q : Nat} (h : EndsInv v) (hrefs : RefsInv extra v) :
    EndsInv (v.dup p q nofile) := by
  refine h.congr (w := v.dup p q nofile) rfl ?_
  intro f pi writable
  have hpos : 0 < (v.file f).ref + v.count p nofile f ↔ 0 < (v.file f).ref := by
    have hle : v.count p nofile f ≤ v.holders f ∨ v.count p nofile f = 0 := by
      by_cases hp : p < nproc
      · left
        exact Finset.single_le_sum (f := fun p => v.count p nofile f)
          (fun _ _ => Nat.zero_le _) (mem_slots.mpr hp)
      · right
        apply List.countP_eq_zero.mpr
        intro fd _ hopen
        exact hp (hrefs.inside p fd f (of_decide_eq_true hopen)).1
    have href := hrefs.refs f
    omega
  change (0 < (v.file f).ref + v.count p nofile f ∧ _) ↔ _
  rw [hpos]
  rfl

end

end SyscallSched.Xv6
