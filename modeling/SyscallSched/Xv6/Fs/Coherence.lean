import Mathlib.Data.List.Basic
import SyscallSched.Xv6.Fs.Holding

/-!
# Coherence of the buffer cache

`Inv` ties the buffers and the log to what the processes know.  A block differs from the
disk only while it is in the current transaction or a process that changed it holds its
buffer.  The committer keeps the blocks that it has installed: nobody logs a block during
a commit, because no operation is outstanding.
-/

namespace SyscallSched.Xv6.Fs.Code.Sharing

open SyscallSched.Foundation SyscallSched.Xv6.Fs

abbrev Holds := Nat → Nat → Option Hold

abbrev Phases := Nat → Phase

def Dirty (H : Holds) (b : Nat) : Prop := ∃ i, H i b = some .dirty

def Locked (holder : Nat → Option Nat) (H : Holds) : Prop :=
  ∀ b i, holder b = some i ↔ H i b ≠ none

structure Logging (log : Log) (P : Phases) : Prop where
  inside : ∃ is : List Nat, is.Nodup ∧ (∀ i, i ∈ is ↔ P i = .inside) ∧
    log.outstanding = is.length
  quiet : log.committing = true → log.outstanding = 0
  commit : ∀ {i installed rest}, P i = .committing installed rest →
    log.committing = true ∧ log.lh = installed ++ rest
  alone : ∀ {i j installed rest installed' rest'}, P i = .committing installed rest →
    P j = .committing installed' rest' → i = j
  nodup : log.lh.Nodup

structure Contents (s : Store) (H : Holds) (P : Phases) : Prop where
  settled : ∀ b, s.view b = s.disk b ∨ b ∈ s.log.lh ∨ Dirty H b
  saved : ∀ {i b}, H i b = some .written → s.view b = s.disk b
  installed : ∀ {i installed rest b}, P i = .committing installed rest → b ∈ installed →
    s.view b = s.disk b ∨ Dirty H b

def Pinned (log : Log) (P : Phases) (b : Nat) : Prop :=
  b ∈ log.lh ∧ ∀ i installed rest, P i = .committing installed rest → b ∈ rest

def lockRef (holder : Nat → Option Nat) (b : Nat) : Nat := if holder b = none then 0 else 1

structure Counted (s : System) (P : Phases) : Prop where
  lock : ∀ b, lockRef s.holder b ≤ s.store.refcnt b
  pin : ∀ {b}, Pinned s.store.log P b → lockRef s.holder b < s.store.refcnt b

structure Inv (s : System) (H : Holds) (P : Phases) : Prop where
  locked : Locked s.holder H
  logging : Logging s.store.log P
  contents : Contents s.store H P
  counted : Counted s P

/-! ## What follows -/

section

variable {s : System} {H : Holds} {P : Phases}

theorem Locked.not_held {holder : Nat → Option Nat} {b : Nat} (h : Locked holder H)
    (hfree : holder b = none) (i : Nat) : H i b = none := by
  by_contra hheld
  have hsome := (h b i).mpr hheld
  rw [hfree] at hsome
  cases hsome

theorem Locked.not_dirty {holder : Nat → Option Nat} {b : Nat} (h : Locked holder H)
    (hfree : holder b = none) : ¬ Dirty H b := by
  intro hdirty
  obtain ⟨i, hi⟩ := hdirty
  rw [h.not_held hfree i] at hi
  cases hi

theorem Inv.view_of_unused (h : Inv s H P) {b : Nat} (hb : s.store.refcnt b = 0) :
    s.store.view b = s.store.disk b := by
  have hfree : s.holder b = none := by
    by_contra hheld
    have hlock := h.counted.lock b
    rw [lockRef, if_neg hheld, hb] at hlock
    cases hlock
  have hclean := h.locked.not_dirty hfree
  rcases h.contents.settled b with hview | hlog | hdirty
  case inl => exact hview
  case inr.inr => exact absurd hdirty hclean
  case inr.inl =>
    -- only an installed block is in the log without being pinned
    by_contra hview
    have hpin : Pinned s.store.log P b := by
      refine ⟨hlog, ?_⟩
      intro i installed rest hi
      rw [(h.logging.commit hi).2, List.mem_append] at hlog
      cases hlog with
      | inr hrest => exact hrest
      | inl hinstalled =>
          cases h.contents.installed hi hinstalled with
          | inl hsame => exact absurd hsame hview
          | inr hdirty => exact absurd hdirty hclean
    have hlt := h.counted.pin hpin
    rw [hb] at hlt
    cases hlt

theorem recycle_run {s s' : Store} {b : Nat} (h : recycle b s = .ok ((), s')) :
    s' = if s.refcnt b = 0 then { s with cache := Function.update s.cache b none } else s := by
  cases h
  rfl

theorem view_evicted {s : Store} {b : Nat} (h : s.view b = s.disk b) :
    ({ s with cache := Function.update s.cache b none } : Store).view = s.view := by
  funext c
  by_cases hc : c = b
  · subst hc
    rw [h]
    simp [Store.view]
  · simp [Store.view, hc]

theorem Inv.coherent (h : Inv s H P) : Coherent s := by
  constructor
  case data =>
    intro b buf hbuf hfree hlog
    have hview : s.store.view b = buf.data := by simp [Store.view, hbuf]
    rw [← hview]
    rcases h.contents.settled b with hsame | hmem | hdirty
    case inl => exact hsame
    case inr.inl => exact absurd hmem hlog
    case inr.inr => exact absurd hdirty (h.locked.not_dirty hfree)
  case evict =>
    intro b s' hs'
    rw [recycle_run hs']
    by_cases hb : s.store.refcnt b = 0
    · rw [if_pos hb]
      exact view_evicted (h.view_of_unused hb)
    · rw [if_neg hb]

end

/-! ## Changing one buffer -/

def Holds.set (H : Holds) (i b : Nat) (x : Option Hold) : Holds :=
  Function.update H i (Function.update (H i) b x)

section

variable {s s' : System} {H : Holds} {P P' : Phases} {i b : Nat} {x : Option Hold}

theorem Holds.set_self : H.set i b x i b = x := by simp [Holds.set]

theorem Holds.set_block {c : Nat} (hc : c ≠ b) (j : Nat) : H.set i b x j c = H j c := by
  by_cases hj : j = i
  · subst hj
    simp [Holds.set, hc]
  · simp [Holds.set, hj]

theorem Holds.set_process {j : Nat} (hj : j ≠ i) (c : Nat) : H.set i b x j c = H j c := by
  simp [Holds.set, hj]

theorem dirty_set {c : Nat} (hc : c ≠ b) : Dirty (H.set i b x) c ↔ Dirty H c := by
  simp only [Dirty, Holds.set_block hc]

def Sole (H : Holds) (i b : Nat) : Prop := ∀ j, j ≠ i → H j b = none

theorem Locked.sole_of_free {holder : Nat → Option Nat} (h : Locked holder H)
    (hfree : holder b = none) : Sole H i b := fun j _ => h.not_held hfree j

theorem Locked.sole_of_held {holder : Nat → Option Nat} (h : Locked holder H)
    (hheld : H i b ≠ none) : Sole H i b := by
  intro j hj
  by_contra hother
  have hi := (h b i).mpr hheld
  rw [(h b j).mpr hother] at hi
  exact hj (Option.some.inj hi)

theorem Sole.not_dirty (h : Sole H i b) (hi : H i b ≠ some .dirty) : ¬ Dirty H b := by
  intro hdirty
  obtain ⟨j, hj⟩ := hdirty
  by_cases hji : j = i
  · subst hji
    exact hi hj
  · rw [h j hji] at hj
    cases hj

theorem Locked.set {holder : Nat → Option Nat} (h : Locked holder H) (hsole : Sole H i b)
    {o : Option Nat} (ho : o = if x = none then none else some i) :
    Locked (Function.update holder b o) (H.set i b x) := by
  intro c j
  by_cases hc : c = b
  · subst hc
    rw [Function.update_self, ho]
    by_cases hj : j = i
    · subst hj
      rw [Holds.set_self]
      by_cases hx : x = none
      · simp [hx]
      · simp [hx]
    · rw [Holds.set_process hj, hsole j hj]
      by_cases hx : x = none
      · simp [hx]
      · simpa [hx] using fun heq => hj heq.symm
  · rw [Function.update_of_ne hc, Holds.set_block hc]
    exact h c j

theorem Locked.keep {holder : Nat → Option Nat} (h : Locked holder H) (hheld : H i b ≠ none)
    {y : Hold} : Locked holder (H.set i b (some y)) := by
  have hi : holder b = some i := (h b i).mpr hheld
  have hset := h.set (h.sole_of_held hheld) (x := some y) (o := some i) (by simp)
  rw [← hi, Function.update_eq_self] at hset
  exact hset

structure Touches (b : Nat) (s s' : Store) : Prop where
  view : ∀ c, c ≠ b → s'.view c = s.view c
  disk : ∀ c, c ≠ b → s'.disk c = s.disk c
  log : ∀ c ∈ s.log.lh, c ∈ s'.log.lh

theorem Contents.set {s s' : Store} (h : Contents s H P) (hs : Touches b s s')
    (hsole : Sole H i b)
    (hsettled : s'.view b = s'.disk b ∨ b ∈ s'.log.lh ∨ x = some .dirty)
    (hsaved : x = some .written → s'.view b = s'.disk b)
    (hinstalled : ∀ j installed rest, P j = .committing installed rest → b ∈ installed →
      s'.view b = s'.disk b ∨ x = some .dirty) : Contents s' (H.set i b x) P := by
  have hdirty : x = some .dirty → Dirty (H.set i b x) b := fun hx => ⟨i, by rw [Holds.set_self, hx]⟩
  constructor
  case settled =>
    intro c
    by_cases hc : c = b
    · subst hc
      exact hsettled.imp_right fun hrest => hrest.imp_right hdirty
    · rw [hs.view c hc, hs.disk c hc, dirty_set hc]
      exact (h.settled c).imp_right fun hrest => hrest.imp_left (hs.log c)
  case saved =>
    intro j c hj
    by_cases hc : c = b
    · subst hc
      by_cases hji : j = i
      · subst hji
        rw [Holds.set_self] at hj
        exact hsaved hj
      · rw [Holds.set_process hji, hsole j hji] at hj
        cases hj
    · rw [Holds.set_block hc] at hj
      rw [hs.view c hc, hs.disk c hc]
      exact h.saved hj
  case installed =>
    intro j installed rest c hj hmem
    by_cases hc : c = b
    · subst hc
      exact (hinstalled j installed rest hj hmem).imp_right hdirty
    · rw [hs.view c hc, hs.disk c hc, dirty_set hc]
      exact h.installed hj hmem

theorem Counted.change (h : Counted s P)
    (hholder : ∀ c, c ≠ b → s'.holder c = s.holder c)
    (hrefcnt : ∀ c, c ≠ b → s'.store.refcnt c = s.store.refcnt c)
    (hpinned : ∀ c, c ≠ b → Pinned s'.store.log P' c → Pinned s.store.log P c)
    (hlock : lockRef s'.holder b ≤ s'.store.refcnt b)
    (hpin : Pinned s'.store.log P' b → lockRef s'.holder b < s'.store.refcnt b) :
    Counted s' P' := by
  have hsame : ∀ c, c ≠ b → lockRef s'.holder c = lockRef s.holder c := by
    intro c hc
    rw [lockRef, lockRef, hholder c hc]
  constructor
  case lock =>
    intro c
    by_cases hc : c = b
    · subst hc
      exact hlock
    · rw [hsame c hc, hrefcnt c hc]
      exact h.lock c
  case pin =>
    intro c hc'
    by_cases hc : c = b
    · subst hc
      exact hpin hc'
    · rw [hsame c hc, hrefcnt c hc]
      exact h.pin (hpinned c hc hc')

end

/-! ## Buffers -/

section

variable {s : System} {H : Holds} {P : Phases} {i b : Nat} {x : Option Hold}

theorem touches_setBuf {s : Store} (b : Nat) (data : Block) (refcnt : Nat) :
    Touches b s (s.setBuf b data refcnt) := by
  constructor
  case view =>
    intro c hc
    rw [view_setBuf, Function.update_of_ne hc]
  case disk =>
    intro c _
    rfl
  case log =>
    intro c hc
    exact hc

theorem Inv.relock (h : Inv s H P) {o : Option Nat} {refcnt : Nat} (hsole : Sole H i b)
    (hclean : ¬ Dirty H b) (ho : o = if x = none then none else some i) (hx : x ≠ some .written)
    (hlock : lockRef (Function.update s.holder b o) b ≤ refcnt)
    (hpin : Pinned s.store.log P b → lockRef (Function.update s.holder b o) b < refcnt) :
    Inv { store := s.store.setBuf b (s.store.view b) refcnt
          holder := Function.update s.holder b o } (H.set i b x) P := by
  constructor
  case locked => exact h.locked.set hsole ho
  case logging => exact h.logging
  case contents =>
    apply h.contents.set (touches_setBuf b _ _) hsole
    case hsettled =>
      rcases h.contents.settled b with hsame | hmem | hdirty
      case inl => exact .inl (by simpa using hsame)
      case inr.inl => exact .inr (.inl hmem)
      case inr.inr => exact absurd hdirty hclean
    case hsaved => exact fun hwritten => absurd hwritten hx
    case hinstalled =>
      intro j installed rest hj hmem
      cases h.contents.installed hj hmem with
      | inl hsame => exact .inl (by simpa using hsame)
      | inr hdirty => exact absurd hdirty hclean
  case counted =>
    apply h.counted.change (b := b)
    case hholder =>
      intro c hc
      exact Function.update_of_ne hc _ _
    case hrefcnt =>
      intro c hc
      rw [refcnt_setBuf, Function.update_of_ne hc]
    case hpinned => exact fun _ _ hpinned => hpinned
    case hlock => simpa using hlock
    case hpin => simpa using hpin

theorem Inv.bread (h : Inv s H P) (hfree : s.holder b = none) :
    Inv { store := s.store.setBuf b (s.store.view b) (s.store.refcnt b + 1)
          holder := Function.update s.holder b (some i) } (H.set i b (some .clean)) P := by
  have href : lockRef s.holder b = 0 := by rw [lockRef, if_pos hfree]
  apply h.relock (h.locked.sole_of_free hfree) (h.locked.not_dirty hfree) (by simp) (by simp)
  case hlock => simp [lockRef]
  case hpin =>
    intro hpinned
    have hlt := h.counted.pin hpinned
    rw [href] at hlt
    simpa [lockRef] using hlt

theorem Inv.brelse (h : Inv s H P) (hheld : H i b ≠ none) (hsaved : H i b ≠ some .dirty) :
    Inv { store := s.store.setBuf b (s.store.view b) (s.store.refcnt b - 1)
          holder := Function.update s.holder b none } (H.set i b none) P := by
  have hsole := h.locked.sole_of_held hheld
  have hi : s.holder b = some i := (h.locked b i).mpr hheld
  have href : lockRef s.holder b = 1 := by simp [lockRef, hi]
  apply h.relock hsole (hsole.not_dirty hsaved) (by simp) (by simp)
  case hlock => simp [lockRef]
  case hpin =>
    intro hpinned
    have hlt := h.counted.pin hpinned
    rw [href] at hlt
    simp only [lockRef, Function.update_self, if_true]
    omega

theorem Counted.setData (h : Counted s P) (b : Nat) (data : Block) :
    Counted { s with store := s.store.setBuf b data (s.store.refcnt b) } P := by
  have hrefcnt : (s.store.setBuf b data (s.store.refcnt b)).refcnt = s.store.refcnt := by
    rw [refcnt_setBuf, Function.update_eq_self]
  constructor
  case lock =>
    intro c
    rw [hrefcnt]
    exact h.lock c
  case pin =>
    intro c hc
    rw [hrefcnt]
    exact h.pin hc

theorem Inv.setData (h : Inv s H P) (hheld : H i b ≠ none) (data : Block) :
    Inv { s with store := s.store.setBuf b data (s.store.refcnt b) }
      (H.set i b (some .dirty)) P := by
  constructor
  case locked => exact h.locked.keep hheld
  case logging => exact h.logging
  case contents =>
    apply h.contents.set (touches_setBuf b _ _) (h.locked.sole_of_held hheld)
    case hsettled => exact Or.inr (Or.inr rfl)
    case hsaved => simp
    case hinstalled => exact fun _ _ _ _ _ => Or.inr rfl
  case counted => exact h.counted.setData b data

theorem Inv.bwrite (h : Inv s H P) (hheld : H i b ≠ none) :
    Inv { s with store := s.store.written b } (H.set i b (some .written)) P := by
  have hsame : (s.store.written b).view b = (s.store.written b).disk b := by simp
  constructor
  case locked => exact h.locked.keep hheld
  case logging => exact h.logging
  case contents =>
    have hs : Touches b s.store (s.store.written b) := by
      constructor
      case view =>
        intro c _
        rw [view_written]
      case disk =>
        intro c hc
        rw [disk_written, Function.update_of_ne hc]
      case log =>
        intro c hc
        exact hc
    apply h.contents.set hs (h.locked.sole_of_held hheld)
    case hsettled => exact Or.inl hsame
    case hsaved => exact fun _ => hsame
    case hinstalled => exact fun _ _ _ _ _ => Or.inl hsame
  case counted => exact ⟨h.counted.lock, h.counted.pin⟩

/-- The buffer of a block that no process uses is recycled. -/
theorem Inv.recycle (h : Inv s H P) {s' : Store} (hs' : recycle b s.store = .ok ((), s')) :
    Inv { s with store := s' } H P := by
  rw [recycle_run hs']
  by_cases hb : s.store.refcnt b = 0
  · rw [if_pos hb]
    have hview := view_evicted (h.view_of_unused hb)
    have hrefcnt : ({ s.store with cache := Function.update s.store.cache b none } : Store).refcnt =
        s.store.refcnt := by
      funext c
      by_cases hc : c = b
      · subst hc
        rw [hb]
        simp [Store.refcnt]
      · simp [Store.refcnt, hc]
    constructor
    case locked => exact h.locked
    case logging => exact h.logging
    case contents =>
      constructor
      case settled =>
        rw [hview]
        exact h.contents.settled
      case saved =>
        rw [hview]
        exact h.contents.saved
      case installed =>
        rw [hview]
        exact h.contents.installed
    case counted =>
      constructor
      case lock =>
        rw [hrefcnt]
        exact h.counted.lock
      case pin =>
        rw [hrefcnt]
        exact h.counted.pin
  · rw [if_neg hb]
    exact h

end

/-! ## The log -/

section

variable {s : System} {H : Holds} {P : Phases} {i b : Nat}

theorem Logging.not_committing {log : Log} (h : Logging log P) (ho : 0 < log.outstanding)
    {j : Nat} {installed rest : List Nat} : P j ≠ .committing installed rest := by
  intro hj
  have hzero := h.quiet (h.commit hj).1
  omega

theorem Logging.outstanding_pos {log : Log} (h : Logging log P) (hi : P i = .inside) :
    0 < log.outstanding := by
  obtain ⟨is, _, hmem, hlength⟩ := h.inside
  rw [hlength]
  exact List.length_pos_of_mem ((hmem i).mpr hi)

theorem committer_update {p : Phase} {j : Nat} {installed rest : List Nat}
    (honly : ∀ {j installed rest}, P j = .committing installed rest → j = i)
    (hj : Function.update P i p j = .committing installed rest) :
    j = i ∧ p = .committing installed rest := by
  by_cases hji : j = i
  · subst hji
    rw [Function.update_self] at hj
    exact ⟨rfl, hj⟩
  · rw [Function.update_of_ne hji] at hj
    exact absurd (honly hj) hji

theorem Logging.only {log : Log} {installed rest : List Nat} (h : Logging log P)
    (hi : P i = .committing installed rest) {j : Nat} {installed' rest' : List Nat}
    (hj : P j = .committing installed' rest') : j = i := h.alone hj hi

/-- The processes in a transaction when `i` changes its phase outside of one. -/
theorem Logging.stay {log : Log} (h : Logging log P) {p : Phase} (hi : P i ≠ .inside)
    (hp : p ≠ .inside) : ∃ is : List Nat, is.Nodup ∧
      (∀ j, j ∈ is ↔ Function.update P i p j = .inside) ∧ log.outstanding = is.length := by
  obtain ⟨is, hnodup, hmem, hlength⟩ := h.inside
  refine ⟨is, hnodup, ?_, hlength⟩
  intro j
  rw [hmem]
  by_cases hji : j = i
  · subst hji
    simp [hi, hp]
  · rw [Function.update_of_ne hji]

theorem Inv.copyinFailed (h : Inv s H P) {data : Block} (hheld : H i b = some .clean)
    (hi : P i = .inside) (hguard : data = s.store.view b ∨ b ∈ s.store.log.lh) :
    Inv { s with store := s.store.setBuf b data (s.store.refcnt b) } H P := by
  have hsome : H i b ≠ none := by simp [hheld]
  have hsole := h.locked.sole_of_held hsome
  have hclean := hsole.not_dirty (by simp [hheld])
  have hset : H.set i b (some .clean) = H := by
    rw [Holds.set, ← hheld, Function.update_eq_self, Function.update_eq_self]
  constructor
  case locked => exact h.locked
  case logging => exact h.logging
  case counted => exact h.counted.setData b data
  case contents =>
    rw [← hset]
    apply h.contents.set (touches_setBuf b _ _) hsole
    case hsettled =>
      cases hguard with
      | inl hdata =>
          subst hdata
          simpa [hclean] using h.contents.settled b
      | inr hlog => exact Or.inr (Or.inl hlog)
    case hsaved => simp
    case hinstalled =>
      intro j installed rest hj
      exact absurd hj (h.logging.not_committing (h.logging.outstanding_pos hi))

theorem Inv.logWrite (h : Inv s H P) {s' : Store} (hheld : H i b ≠ none)
    (hs' : Fs.logWrite b s.store = .ok ((), s')) :
    Inv { s with store := s' } (H.set i b (some .clean)) P := by
  have ho := (logWrite_ok hs').2
  have hquiet : ∀ {j installed rest}, P j ≠ .committing installed rest :=
    h.logging.not_committing ho
  obtain ⟨hdisk, hview, hlog, hrefcnt⟩ := logWrite_effect hs'
  have hmem : b ∈ s'.log.lh := by
    rw [hlog]
    by_cases hb : b ∈ s.store.log.lh
    · simp [hb]
    · simp [hb]
  constructor
  case locked => exact h.locked.keep hheld
  case logging =>
    rw [hlog]
    refine ⟨h.logging.inside, h.logging.quiet, fun hj => absurd hj hquiet,
      fun hj => absurd hj hquiet, ?_⟩
    by_cases hb : b ∈ s.store.log.lh
    · simpa [hb] using h.logging.nodup
    · simpa [hb, List.nodup_append] using
        ⟨h.logging.nodup, fun c hc (hcb : c = b) => hb (hcb ▸ hc)⟩
  case contents =>
    have hs : Touches b s.store s' := by
      constructor
      case view =>
        intro c _
        rw [hview]
      case disk =>
        intro c _
        rw [hdisk]
      case log =>
        intro c hc
        rw [hlog]
        by_cases hb : b ∈ s.store.log.lh
        · simpa [hb] using hc
        · simp [hb, hc]
    apply h.contents.set hs (h.locked.sole_of_held hheld)
    case hsettled => exact Or.inr (Or.inl hmem)
    case hsaved => simp
    case hinstalled => exact fun _ _ _ hj => absurd hj hquiet
  case counted =>
    by_cases hb : b ∈ s.store.log.lh
    · rw [if_pos hb] at hlog hrefcnt
      constructor
      case lock =>
        rw [hrefcnt]
        exact h.counted.lock
      case pin =>
        rw [hrefcnt, hlog]
        exact h.counted.pin
    · rw [if_neg hb] at hrefcnt
      have hlt : lockRef s.holder b < s'.refcnt b := by
        rw [hrefcnt, Function.update_self]
        exact Nat.lt_succ_of_le (h.counted.lock b)
      apply h.counted.change (b := b)
      case hholder => exact fun _ _ => rfl
      case hrefcnt =>
        intro c hc
        rw [hrefcnt, Function.update_of_ne hc]
      case hpinned =>
        intro c hc hpinned
        refine ⟨?_, hpinned.2⟩
        have hmem' := hpinned.1
        rw [hlog] at hmem'
        simpa [hb, hc] using hmem'
      case hlock => exact Nat.le_of_lt hlt
      case hpin => exact fun _ => hlt

theorem Inv.bunpin (h : Inv s H P) {installed rest : List Nat} (hheld : H i b = some .written)
    (hi : P i = .committing installed (b :: rest)) :
    Inv { s with store := s.store.setBuf b (s.store.view b) (s.store.refcnt b - 1) } H
      (Function.update P i (.committing (installed ++ [b]) rest)) := by
  obtain ⟨hcommitting, hlh⟩ := h.logging.commit hi
  have hview : (s.store.setBuf b (s.store.view b) (s.store.refcnt b - 1)).view = s.store.view := by
    simp
  have hholder : s.holder b = some i := (h.locked b i).mpr (by simp [hheld])
  have honly : ∀ {j installed' rest'}, P j = .committing installed' rest' → j = i :=
    h.logging.only hi
  have hnodup : b ∉ rest := by
    have hnodup := h.logging.nodup
    rw [hlh, List.nodup_append] at hnodup
    exact (List.nodup_cons.mp hnodup.2.1).1
  have hpinned : Pinned s.store.log P b := by
    refine ⟨by simp [hlh], ?_⟩
    intro j installed' rest' hj
    have hji := h.logging.alone hj hi
    rw [hji, hi] at hj
    cases hj
    exact List.mem_cons_self
  constructor
  case locked => exact h.locked
  case logging =>
    constructor
    case inside => exact h.logging.stay (by simp [hi]) (by simp)
    case quiet => exact h.logging.quiet
    case commit =>
      intro j installed' rest' hj
      cases (committer_update honly hj).2
      exact ⟨hcommitting, by simpa using hlh⟩
    case alone =>
      intro j k _ _ _ _ hj hk
      rw [(committer_update honly hj).1, (committer_update honly hk).1]
    case nodup => exact h.logging.nodup
  case contents =>
    constructor
    case settled =>
      rw [hview]
      exact h.contents.settled
    case saved =>
      rw [hview]
      exact h.contents.saved
    case installed =>
      intro j installed' rest' c hj hc
      cases (committer_update honly hj).2
      rw [hview]
      rw [List.mem_append, List.mem_singleton] at hc
      cases hc with
      | inl hold => exact h.contents.installed hi hold
      | inr hnew =>
          subst hnew
          exact Or.inl (h.contents.saved hheld)
  case counted =>
    apply h.counted.change (b := b)
    case hholder => exact fun _ _ => rfl
    case hrefcnt =>
      intro c hc
      rw [refcnt_setBuf, Function.update_of_ne hc]
    case hpinned =>
      intro c hc hpinned'
      refine ⟨hpinned'.1, ?_⟩
      intro j installed' rest' hj
      have hji := h.logging.alone hj hi
      rw [hji, hi] at hj
      cases hj
      exact List.mem_cons_of_mem b (hpinned'.2 i _ _ (Function.update_self ..))
    case hlock =>
      have hlt := h.counted.pin hpinned
      simp only [refcnt_setBuf, Function.update_self]
      omega
    case hpin =>
      intro hpinned'
      exact absurd (hpinned'.2 i _ _ (Function.update_self ..)) hnodup

theorem Inv.enter (h : Inv s H P) {log : Log} {p : Phase} (hlh : log.lh = s.store.log.lh)
    (hlogging : Logging log (Function.update P i p))
    (hi : ∀ installed rest, P i ≠ .committing installed rest)
    (hp : ∀ installed rest, p = .committing installed rest → installed = []) :
    Inv { s with store := { s.store with log := log } } H (Function.update P i p) := by
  have hothers : ∀ {j installed rest}, P j = .committing installed rest →
      Function.update P i p j = .committing installed rest := by
    intro j installed rest hj
    by_cases hji : j = i
    · subst hji
      exact absurd hj (hi installed rest)
    · rw [Function.update_of_ne hji, hj]
  constructor
  case locked => exact h.locked
  case logging => exact hlogging
  case contents =>
    constructor
    case settled =>
      rw [hlh]
      exact h.contents.settled
    case saved => exact h.contents.saved
    case installed =>
      intro j installed rest b hj hb
      by_cases hji : j = i
      · subst hji
        rw [Function.update_self] at hj
        rw [hp installed rest hj] at hb
        cases hb
      · rw [Function.update_of_ne hji] at hj
        exact h.contents.installed hj hb
  case counted =>
    refine ⟨h.counted.lock, ?_⟩
    intro b hb
    refine h.counted.pin ⟨hlh ▸ hb.1, ?_⟩
    intro j installed rest hj
    exact hb.2 j installed rest (hothers hj)

theorem Inv.finish (h : Inv s H P) {log : Log} {p : Phase} {installed : List Nat}
    (hi : P i = .committing installed []) (hlh : log.lh = [])
    (hlogging : Logging log (Function.update P i p))
    (hp : ∀ installed' rest, p = .committing installed' rest → installed' = []) :
    Inv { s with store := { s.store with log := log } } H (Function.update P i p) := by
  obtain ⟨_, hblocks⟩ := h.logging.commit hi
  rw [List.append_nil] at hblocks
  constructor
  case locked => exact h.locked
  case logging => exact hlogging
  case contents =>
    constructor
    case settled =>
      intro b
      rcases h.contents.settled b with hview | hlog | hdirty
      case inl => exact Or.inl hview
      case inr.inr => exact Or.inr (Or.inr hdirty)
      case inr.inl =>
        rw [hblocks] at hlog
        exact (h.contents.installed hi hlog).imp_right Or.inr
    case saved => exact h.contents.saved
    case installed =>
      intro j installed' rest b hj hb
      by_cases hji : j = i
      · subst hji
        rw [Function.update_self] at hj
        rw [hp installed' rest hj] at hb
        cases hb
      · rw [Function.update_of_ne hji] at hj
        exact h.contents.installed hj hb
  case counted =>
    refine ⟨h.counted.lock, ?_⟩
    intro b hb
    have hmem : b ∈ log.lh := hb.1
    rw [hlh] at hmem
    cases hmem

/-! ## The counters of the log -/

variable {log : Log}

theorem Logging.beginOp (h : Logging log P) (hadmits : log.Admits) (hi : P i = .outside) :
    Logging { log with outstanding := log.outstanding + 1 } (Function.update P i .inside) := by
  have honly : ∀ {j installed rest}, P j = .committing installed rest → j = i := by
    intro j installed rest hj
    have hcommitting := (h.commit hj).1
    rw [hadmits.1] at hcommitting
    cases hcommitting
  constructor
  case inside =>
    obtain ⟨is, hnodup, hmem, hlength⟩ := h.inside
    have hnot : i ∉ is := by simp [hmem, hi]
    refine ⟨i :: is, List.nodup_cons.mpr ⟨hnot, hnodup⟩, ?_, by simp [hlength]⟩
    intro j
    by_cases hji : j = i
    · subst hji
      simp
    · rw [Function.update_of_ne hji, List.mem_cons, hmem]
      simp [hji]
  case quiet =>
    intro hcommitting
    have hfalse : log.committing = true := hcommitting
    rw [hadmits.1] at hfalse
    cases hfalse
  case commit =>
    intro j installed rest hj
    cases (committer_update honly hj).2
  case alone =>
    intro j k _ _ _ _ hj hk
    cases (committer_update honly hj).2
  case nodup => exact h.nodup

theorem Logging.leave (h : Logging log P) (hi : P i = .inside) {p : Phase} (hp : p ≠ .inside) :
    ∃ is : List Nat, is.Nodup ∧ (∀ j, j ∈ is ↔ Function.update P i p j = .inside) ∧
      log.outstanding - 1 = is.length := by
  obtain ⟨is, hnodup, hmem, hlength⟩ := h.inside
  refine ⟨is.erase i, hnodup.erase i, ?_, ?_⟩
  · intro j
    rw [hnodup.mem_erase_iff, hmem]
    by_cases hji : j = i
    · subst hji
      simp [hp]
    · simp [hji]
  · rw [hlength, List.length_erase_of_mem ((hmem i).mpr hi)]

/-- Nobody commits while `i` is in a transaction. -/
theorem Logging.only_of_inside (h : Logging log P) (hi : P i = .inside) {j : Nat}
    {installed rest : List Nat} (hj : P j = .committing installed rest) : j = i :=
  absurd hj (h.not_committing (h.outstanding_pos hi))

theorem Logging.endOp (h : Logging log P) (hi : P i = .inside) :
    Logging { log with outstanding := log.outstanding - 1 } (Function.update P i .outside) := by
  have honly : ∀ {j installed rest}, P j = .committing installed rest → j = i :=
    h.only_of_inside hi
  constructor
  case inside => exact h.leave hi (by simp)
  case quiet =>
    intro hcommitting
    have hzero := h.quiet hcommitting
    simp [hzero]
  case commit =>
    intro j installed rest hj
    cases (committer_update honly hj).2
  case alone =>
    intro j k _ _ _ _ hj hk
    cases (committer_update honly hj).2
  case nodup => exact h.nodup

theorem Logging.endLast (h : Logging log P) (hi : P i = .inside) (hlast : log.outstanding - 1 = 0) :
    Logging { log with outstanding := 0, committing := true }
      (Function.update P i (.committing [] log.lh)) := by
  have honly : ∀ {j installed rest}, P j = .committing installed rest → j = i :=
    h.only_of_inside hi
  constructor
  case inside =>
    have hleave := h.leave hi (p := .committing [] log.lh) (by simp)
    rw [hlast] at hleave
    exact hleave
  case quiet => exact fun _ => rfl
  case commit =>
    intro j installed rest hj
    cases (committer_update honly hj).2
    exact ⟨rfl, rfl⟩
  case alone =>
    intro j k _ _ _ _ hj hk
    rw [(committer_update honly hj).1, (committer_update honly hk).1]
  case nodup => exact h.nodup

theorem Logging.clear (h : Logging log P) {installed : List Nat}
    (hi : P i = .committing installed []) :
    Logging { log with lh := [] } (Function.update P i (.committing [] [])) := by
  have honly : ∀ {j installed rest}, P j = .committing installed rest → j = i := h.only hi
  constructor
  case inside => exact h.stay (by simp [hi]) (by simp)
  case quiet => exact h.quiet
  case commit =>
    intro j installed' rest hj
    cases (committer_update honly hj).2
    exact ⟨(h.commit hi).1, rfl⟩
  case alone =>
    intro j k _ _ _ _ hj hk
    rw [(committer_update honly hj).1, (committer_update honly hk).1]
  case nodup => exact List.nodup_nil

theorem Logging.endCommit (h : Logging log P) (hi : P i = .committing [] []) :
    Logging { log with committing := false } (Function.update P i .outside) := by
  have honly : ∀ {j installed rest}, P j = .committing installed rest → j = i := h.only hi
  constructor
  case inside => exact h.stay (by simp [hi]) (by simp)
  case quiet => simp
  case commit =>
    intro j installed rest hj
    cases (committer_update honly hj).2
  case alone =>
    intro j k _ _ _ _ hj hk
    cases (committer_update honly hj).2
  case nodup => exact h.nodup

end

end SyscallSched.Xv6.Fs.Code.Sharing
