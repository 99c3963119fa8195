import SyscallSched.Xv6.Fs.Log

/-!
# What a commit and a recovery write

A part of the log code that stores into a buffer writes the buffer out before
it releases it.  `Flushed ws s s'` says that such a part wrote `ws`: the disk
and what readers see change by the same writes.
-/

namespace SyscallSched.Xv6.Fs

open SyscallSched.Foundation

/-- The blocks after some writes. -/
def applyWrites (ws : List (Nat × Block)) (f : Nat → Block) : Nat → Block :=
  ws.foldl (fun f w => Function.update f w.1 w.2) f

section

variable {ws : List (Nat × Block)} {f g : Nat → Block} {b : Nat}

@[simp] theorem applyWrites_nil : applyWrites [] f = f := rfl

@[simp] theorem applyWrites_cons (w : Nat × Block) :
    applyWrites (w :: ws) f = applyWrites ws (Function.update f w.1 w.2) := rfl

theorem applyWrites_append (ws' : List (Nat × Block)) :
    applyWrites (ws ++ ws') f = applyWrites ws' (applyWrites ws f) :=
  List.foldl_append

theorem applyWrites_of_notMem (h : b ∉ ws.map Prod.fst) : applyWrites ws f b = f b := by
  induction ws generalizing f with
  | nil => rfl
  | cons w ws ih =>
      rw [List.map_cons, List.mem_cons, not_or] at h
      rw [applyWrites_cons, ih h.2, Function.update_of_ne h.1]

theorem applyWrites_of_mem (hb : b ∈ ws.map Prod.fst) (h : ∀ w ∈ ws, w.1 = b → w.2 = g b) :
    applyWrites ws f b = g b := by
  induction ws generalizing f with
  | nil => exact absurd hb List.not_mem_nil
  | cons w ws ih =>
      rw [applyWrites_cons]
      by_cases hrest : b ∈ ws.map Prod.fst
      · exact ih hrest fun w' hw' => h w' (List.mem_cons_of_mem w hw')
      · have hhead : b = w.1 := by
          cases List.mem_cons.mp hb with
          | inl heq => exact heq
          | inr hmem => exact absurd hmem hrest
        rw [applyWrites_of_notMem hrest, hhead, Function.update_self, ← hhead]
        exact h w List.mem_cons_self hhead.symm

theorem applyWrites_fixed (h : ∀ w ∈ ws, w.1 = b → w.2 = f b) : applyWrites ws f b = f b := by
  by_cases hb : b ∈ ws.map Prod.fst
  · exact applyWrites_of_mem hb h
  · exact applyWrites_of_notMem hb

end

/-! ## Buffers -/

section

variable {s : Store} {b : Nat} {data : Block} {refcnt : Nat}

@[simp] theorem view_setBuf : (s.setBuf b data refcnt).view = Function.update s.view b data := by
  funext c
  by_cases hc : c = b
  · simp [Store.view, Store.setBuf, hc]
  · simp [Store.view, Store.setBuf, hc]

@[simp] theorem refcnt_setBuf :
    (s.setBuf b data refcnt).refcnt = Function.update s.refcnt b refcnt := by
  funext c
  by_cases hc : c = b
  · simp [Store.refcnt, Store.setBuf, hc]
  · simp [Store.refcnt, Store.setBuf, hc]

@[simp] theorem disk_setBuf : (s.setBuf b data refcnt).disk = s.disk := rfl

@[simp] theorem log_setBuf : (s.setBuf b data refcnt).log = s.log := rfl

@[simp] theorem writes_setBuf : (s.setBuf b data refcnt).writes = s.writes := rfl

@[simp] theorem view_withLog (l : Log) : ({ s with log := l } : Store).view = s.view := rfl

def Store.written (s : Store) (b : Nat) : Store :=
  { s with
    disk := Function.update s.disk b (s.view b)
    writes := s.writes ++ [(b, s.view b)] }

@[simp] theorem view_written : (s.written b).view = s.view := by
  funext c
  cases hc : s.cache c with
  | some buf => simp [Store.view, Store.written, hc]
  | none =>
      by_cases hcb : c = b
      · subst hcb
        simp [Store.view, Store.written, hc]
      · simp [Store.view, Store.written, hc, hcb]

@[simp] theorem disk_written :
    (s.written b).disk = Function.update s.disk b (s.view b) := rfl

@[simp] theorem log_written : (s.written b).log = s.log := rfl

@[simp] theorem writes_written : (s.written b).writes = s.writes ++ [(b, s.view b)] := rfl

theorem bread_run : bread b s = .ok (s.view b, s.setBuf b (s.view b) (s.refcnt b + 1)) := rfl

theorem setData_run : setData b data s = .ok ((), s.setBuf b data (s.refcnt b)) := rfl

theorem bwrite_run : bwrite b s = .ok ((), s.written b) := rfl

theorem brelse_run : brelse b s = .ok ((), s.setBuf b (s.view b) (s.refcnt b - 1)) := rfl

theorem logWrite_effect {s' : Store} (h : logWrite b s = .ok ((), s')) :
    s'.disk = s.disk ∧ s'.view = s.view ∧
      s'.log = { s.log with lh := if b ∈ s.log.lh then s.log.lh else s.log.lh ++ [b] } ∧
      s'.refcnt = if b ∈ s.log.lh then s.refcnt
        else Function.update s.refcnt b (s.refcnt b + 1) := by
  obtain ⟨hroom, ho⟩ := logWrite_ok h
  rw [logWrite_run hroom ho] at h
  cases h
  by_cases hb : b ∈ s.log.lh
  · simp [hb]
  · have hview : (s.setBuf b (s.view b) (s.refcnt b + 1)).view = s.view := by simp
    rw [if_neg hb, if_neg hb, if_neg hb]
    exact ⟨rfl, hview, rfl, refcnt_setBuf⟩

end

/-! ## Flushing -/

structure Flushed (ws : List (Nat × Block)) (s s' : Store) : Prop where
  disk : s'.disk = applyWrites ws s.disk
  view : s'.view = applyWrites ws s.view
  writes : s'.writes = s.writes ++ ws

section

variable {ws ws' : List (Nat × Block)} {s s' s'' : Store}

theorem Flushed.refl (s : Store) : Flushed [] s s :=
  ⟨rfl, rfl, (List.append_nil _).symm⟩

theorem Flushed.trans (h : Flushed ws s s') (h' : Flushed ws' s' s'') :
    Flushed (ws ++ ws') s s'' := by
  constructor
  case disk => rw [h'.disk, h.disk, applyWrites_append]
  case view => rw [h'.view, h.view, applyWrites_append]
  case writes => rw [h'.writes, h.writes, List.append_assoc]

end

def logCopies (start : Nat) (content : Nat → Block) : Nat → List Nat → List (Nat × Block)
  | _, [] => []
  | tail, b :: bs =>
      (start + tail + 1, content b) :: logCopies start content (tail + 1) bs

def homeCopies (start : Nat) (content : Nat → Block) : Nat → List Nat → List (Nat × Block)
  | _, [] => []
  | tail, b :: bs =>
      (b, content (start + tail + 1)) :: homeCopies start content (tail + 1) bs

def Log.Home (l : Log) (b : Nat) : Prop := b < l.start ∨ l.start + l.size ≤ b

section

variable {l : Log} {content content' : Nat → Block} {tail : Nat} {bs : List Nat}

theorem logCopies_congr {start : Nat} (h : ∀ b ∈ bs, content' b = content b) :
    logCopies start content' tail bs = logCopies start content tail bs := by
  induction bs generalizing tail with
  | nil => rfl
  | cons b bs ih =>
      rw [logCopies, logCopies, h b List.mem_cons_self,
        ih fun c hc => h c (List.mem_cons_of_mem b hc)]

theorem homeCopies_congr {start : Nat}
    (h : ∀ b, start + tail < b → b ≤ start + tail + bs.length → content' b = content b) :
    homeCopies start content' tail bs = homeCopies start content tail bs := by
  induction bs generalizing tail with
  | nil => rfl
  | cons b bs ih =>
      simp only [List.length_cons] at h
      rw [homeCopies, homeCopies, h _ (by omega) (by omega),
        ih fun c hlow hhigh => h c (by omega) (by omega)]

end

variable {s : Store} {l : Log} {tail : Nat} {bs : List Nat}

theorem Log.Home.ne {b i : Nat} (h : l.Home b) (hi : i < l.size) : b ≠ l.start + i := by
  rw [Log.Home] at h
  omega

theorem writeLogFrom_spec (hhome : ∀ b ∈ bs, l.Home b) (hfit : tail + bs.length < l.size) :
    Total (writeLogFrom l.start tail bs) s fun _ s' =>
      Flushed (logCopies l.start s.view tail bs) s s' ∧ s'.log = s.log := by
  induction bs generalizing s tail with
  | nil => exact Total.pure ⟨Flushed.refl s, rfl⟩
  | cons b bs ih =>
      simp only [List.length_cons] at hfit
      have hrest : ∀ c ∈ bs, c ≠ l.start + (tail + 1) := fun c hc =>
        (hhome c (List.mem_cons_of_mem b hc)).ne (by omega)
      have hne : b ≠ l.start + tail + 1 :=
        (hhome b List.mem_cons_self).ne (i := tail + 1) (by omega)
      rw [writeLogFrom]
      apply Total.bind_eq bread_run
      apply Total.bind_eq bread_run
      apply Total.bind_eq setData_run
      apply Total.bind_eq bwrite_run
      apply Total.bind_eq brelse_run
      apply Total.bind_eq brelse_run
      generalize hs₁ : Store.setBuf _ (l.start + tail + 1) _ _ = s₁
      have hcopied : Flushed [(l.start + tail + 1, s.view b)] s s₁ := by
        subst hs₁
        constructor <;> simp [hne]
      have hlog : s₁.log = s.log := by
        subst hs₁
        simp
      apply (ih (fun c hc => hhome c (List.mem_cons_of_mem b hc)) (by omega)).mono
      intro _ s' h'
      refine ⟨?_, h'.2.trans hlog⟩
      have hsame : logCopies l.start s₁.view (tail + 1) bs =
          logCopies l.start s.view (tail + 1) bs := by
        apply logCopies_congr
        intro c hc
        rw [hcopied.view]
        exact Function.update_of_ne (hrest c hc) _ _
      rw [hsame] at h'
      exact hcopied.trans h'.1

theorem bunpinUnless_spec {recovering : Bool} {b : Nat} :
    Total (bunpinUnless recovering b) s fun _ s' =>
      s'.view = s.view ∧ s'.disk = s.disk ∧ s'.writes = s.writes ∧ s'.log = s.log := by
  cases recovering with
  | true => exact Total.pure ⟨rfl, rfl, rfl, rfl⟩
  | false =>
      apply Total.of_eq (a := ()) rfl
      simp

theorem installFrom_spec (recovering : Bool) (hhome : ∀ b ∈ bs, l.Home b)
    (hfit : tail + bs.length < l.size) :
    Total (installFrom recovering l.start tail bs) s fun _ s' =>
      Flushed (homeCopies l.start s.view tail bs) s s' ∧ s'.log = s.log := by
  induction bs generalizing s tail with
  | nil => exact Total.pure ⟨Flushed.refl s, rfl⟩
  | cons b bs ih =>
      simp only [List.length_cons] at hfit
      have hne : l.start + tail + 1 ≠ b :=
        ((hhome b List.mem_cons_self).ne (i := tail + 1) (by omega)).symm
      rw [installFrom]
      apply Total.bind_eq bread_run
      apply Total.bind_eq bread_run
      apply Total.bind_eq setData_run
      apply Total.bind_eq bwrite_run
      apply Total.bind bunpinUnless_spec
      intro _ t ht
      apply Total.bind_eq brelse_run
      apply Total.bind_eq brelse_run
      generalize hs₁ : Store.setBuf _ b _ _ = s₁
      obtain ⟨hview, hdisk, hwrites, hlogt⟩ := ht
      have hcopied : Flushed [(b, s.view (l.start + tail + 1))] s s₁ := by
        subst hs₁
        constructor <;> simp [hview, hdisk, hwrites]
      have hlog : s₁.log = s.log := by
        subst hs₁
        simp [hlogt]
      apply (ih (fun c hc => hhome c (List.mem_cons_of_mem b hc)) (by omega)).mono
      intro _ s' h'
      refine ⟨?_, h'.2.trans hlog⟩
      have hsame : homeCopies l.start s₁.view (tail + 1) bs =
          homeCopies l.start s.view (tail + 1) bs := by
        apply homeCopies_congr
        intro c hlow hhigh
        have hcb := (hhome b List.mem_cons_self).ne (i := c - l.start) (by omega)
        rw [hcopied.view]
        exact Function.update_of_ne (by omega) _ _
      rw [hsame] at h'
      exact hcopied.trans h'.1

theorem writeHead_spec : Total writeHead s fun _ s' =>
    Flushed [(s.log.start, putHead s.log.lh (s.view s.log.start))] s s' ∧
      s'.log = s.log := by
  rw [writeHead]
  apply Total.bind_eq get_run
  apply Total.bind_eq bread_run
  apply Total.bind_eq setData_run
  apply Total.bind_eq bwrite_run
  apply Total.of_eq brelse_run
  constructor
  case left => constructor <;> simp
  case right => simp

/-! ## The header -/

theorem putEntries_word_of_le {i j : Nat} {blk : Block} (h : j ≤ i) :
    (putEntries i bs blk).word j = blk.word j := by
  induction bs generalizing i blk with
  | nil => rfl
  | cons b bs ih =>
      rw [putEntries, ih (by omega), Block.word_setWord_ne _ _ (by omega)]

theorem putEntries_word {i j : Nat} {blk : Block} (hb : ∀ b ∈ bs, b < 2 ^ 32)
    (hj : j < bs.length) : (putEntries i bs blk).word (i + j + 1) = bs[j] := by
  induction bs generalizing i j blk with
  | nil => exact absurd hj (Nat.not_lt_zero j)
  | cons b bs ih =>
      rw [putEntries]
      cases j with
      | zero =>
          rw [putEntries_word_of_le (Nat.le_refl _), Nat.add_zero,
            Block.word_setWord_self _ (hb b List.mem_cons_self), List.getElem_cons_zero]
      | succ j =>
          have hj' : j < bs.length := Nat.lt_of_succ_lt_succ hj
          have hrest : (putEntries (i + 1) bs (blk.setWord (i + 1) b)).word (i + 1 + j + 1) =
              bs[j] := ih (fun c hc => hb c (List.mem_cons_of_mem b hc)) hj'
          rw [List.getElem_cons_succ, ← hrest]
          congr 1
          omega

theorem headOf_putHead {blk : Block} (hb : ∀ b ∈ bs, b < 2 ^ 32) (hn : bs.length < 2 ^ 31) :
    headOf (putHead bs blk) = bs := by
  have hcount : (putHead bs blk).word 0 = bs.length := by
    rw [putHead, putEntries_word_of_le (Nat.le_refl 0), Block.word_setWord_self _ (by omega)]
  rw [headOf, hcount, if_pos hn]
  apply List.ext_getElem
  · simp
  · intro i hi hi'
    have hentry : (putEntries 0 bs (blk.setWord 0 bs.length)).word (0 + i + 1) = bs[i] :=
      putEntries_word hb hi'
    rw [Nat.zero_add] at hentry
    rw [List.getElem_map, List.getElem_range, putHead, hentry]

theorem putHead_nil_word {blk : Block} : (putHead [] blk).word 0 = 0 :=
  Block.word_setWord_self _ (by decide)

theorem headOf_eq_nil {blk : Block} (h : blk.word 0 = 0) : headOf blk = [] := by
  simp [headOf, h]

/-! ## `commit` and `recover_from_log` -/

theorem mem_logCopies {content : Nat → Block} {w : Nat × Block}
    (h : w ∈ logCopies l.start content tail bs) :
    ∃ i < bs.length, w.1 = l.start + (tail + i) + 1 := by
  induction bs generalizing tail with
  | nil => exact absurd h List.not_mem_nil
  | cons b bs ih =>
      cases List.mem_cons.mp h with
      | inl hhead => exact ⟨0, Nat.zero_lt_succ _, by rw [hhead]; rfl⟩
      | inr hrest =>
          obtain ⟨i, hi, hw⟩ := ih hrest
          exact ⟨i + 1, Nat.succ_lt_succ hi, by rw [hw]; omega⟩

theorem applyWrites_logCopies {content f : Nat → Block} {i : Nat} (hi : i < bs.length) :
    applyWrites (logCopies l.start content tail bs) f (l.start + (tail + i) + 1) =
      content bs[i] := by
  induction bs generalizing tail i f with
  | nil => exact absurd hi (Nat.not_lt_zero i)
  | cons b bs ih =>
      rw [logCopies, applyWrites_cons]
      cases i with
      | zero =>
          rw [applyWrites_of_notMem]
          · simp
          intro hmem
          obtain ⟨w, hw, heq⟩ := List.mem_map.mp hmem
          obtain ⟨j, -, hj⟩ := mem_logCopies hw
          omega
      | succ i =>
          have hi' : i < bs.length := Nat.lt_of_succ_lt_succ hi
          have hrest : applyWrites (logCopies l.start content (tail + 1) bs)
              (Function.update f (l.start + tail + 1) (content b))
              (l.start + (tail + 1 + i) + 1) = content bs[i] := ih hi'
          rw [List.getElem_cons_succ, ← hrest]
          congr 1
          omega

theorem homeCopies_eq_map {content content' : Nat → Block}
    (h : ∀ i (hi : i < bs.length), content' (l.start + (tail + i) + 1) = content bs[i]) :
    homeCopies l.start content' tail bs = bs.map fun b => (b, content b) := by
  induction bs generalizing tail with
  | nil => rfl
  | cons b bs ih =>
      have hhead := h 0 (Nat.zero_lt_succ _)
      simp only [Nat.add_zero, List.getElem_cons_zero] at hhead
      rw [homeCopies, List.map_cons, hhead]
      congr 1
      apply ih
      intro i hi
      have hnext := h (i + 1) (Nat.succ_lt_succ hi)
      rw [List.getElem_cons_succ] at hnext
      rw [← hnext]
      congr 1
      omega

/-- The writes of a commit: the copies into the log, the header, the copies
home, and the empty header. -/
def commitWrites (l : Log) (content : Nat → Block) (full empty : Block) :
    List (Nat × Block) :=
  logCopies l.start content 0 l.lh ++ [(l.start, full)] ++
    (l.lh.map fun b => (b, content b)) ++ [(l.start, empty)]

theorem commit_flushed (hne : s.log.lh ≠ []) (hhome : ∀ b ∈ s.log.lh, s.log.Home b)
    (hfit : s.log.lh.length < s.log.size) :
    Total commit s fun _ s' => s'.log = { s.log with lh := [] } ∧
      ∃ head head', Flushed (commitWrites s.log s.view (putHead s.log.lh head)
        (putHead [] head')) s s' := by
  have hfit' : 0 + s.log.lh.length < s.log.size := by omega
  rw [commit]
  apply Total.bind_eq get_run
  rw [if_pos (List.length_pos_iff.mpr hne), writeLog]
  apply Total.bind (Total.bind_eq get_run (writeLogFrom_spec hhome hfit'))
  intro _ s₁ h₁
  obtain ⟨hflush₁, hlog₁⟩ := h₁
  apply Total.bind writeHead_spec
  intro _ s₂ h₂
  obtain ⟨hflush₂, hlog₂⟩ := h₂
  rw [hlog₁] at hflush₂ hlog₂
  have hcopies : homeCopies s.log.start s₂.view 0 s.log.lh =
      s.log.lh.map fun b => (b, s.view b) := by
    apply homeCopies_eq_map
    intro i hi
    rw [hflush₂.view, applyWrites_cons, applyWrites_nil, Function.update_of_ne (by omega),
      hflush₁.view]
    exact applyWrites_logCopies hi
  have hinstall : Total (installTrans false) s₂ fun _ s' =>
      Flushed (s.log.lh.map fun b => (b, s.view b)) s₂ s' ∧ s'.log = s.log := by
    rw [installTrans]
    apply Total.bind_eq get_run
    rw [hlog₂]
    apply (installFrom_spec false hhome hfit').mono
    intro _ s' h'
    rw [← hcopies]
    exact ⟨h'.1, h'.2.trans hlog₂⟩
  apply Total.bind hinstall
  intro _ s₃ h₃
  apply Total.bind_eq (a := ()) (t := { s₃ with log := { s₃.log with lh := [] } }) rfl
  apply writeHead_spec.mono
  intro _ s' h'
  obtain ⟨hflush', hlog'⟩ := h'
  rw [h₃.2] at hlog' hflush'
  refine ⟨hlog', s₁.view s.log.start, s₃.view s.log.start, ?_⟩
  have hsame : Flushed [(s.log.start, putHead [] (s₃.view s.log.start))] s₃ s' :=
    ⟨hflush'.disk, hflush'.view, hflush'.writes⟩
  exact ((hflush₁.trans hflush₂).trans h₃.1).trans hsame

theorem commit_spec (hne : s.log.lh ≠ []) (hhome : ∀ b ∈ s.log.lh, s.log.Home b)
    (hfit : s.log.lh.length < s.log.size) (hrange : ∀ b ∈ s.log.lh, b < 2 ^ 32)
    (hn : s.log.lh.length < 2 ^ 31) :
    Total commit s fun _ s' => s'.log = { s.log with lh := [] } ∧
      ∃ full empty, headOf full = s.log.lh ∧ empty.word 0 = 0 ∧
        Flushed (commitWrites s.log s.view full empty) s s' := by
  apply (commit_flushed hne hhome hfit).mono
  intro _ s' hdone
  obtain ⟨hlog, head, head', hflushed⟩ := hdone
  exact ⟨hlog, _, _, headOf_putHead hrange hn, putHead_nil_word, hflushed⟩

theorem commit_view (hhome : ∀ b ∈ s.log.lh, s.log.Home b)
    (hfit : s.log.lh = [] ∨ s.log.lh.length < s.log.size) :
    Total commit s fun _ s' => s'.log = { s.log with lh := [] } ∧
      ∀ b, s.log.Home b → s'.view b = s.view b := by
  cases hlh : s.log.lh with
  | nil =>
      have hrun : commit s = .ok ((), s) := by
        rw [commit, Total.run_bind get_run, hlh]
        rfl
      apply Total.of_eq hrun
      rw [← hlh]
      exact ⟨rfl, fun _ _ => rfl⟩
  | cons b₀ bs =>
      have hne : s.log.lh ≠ [] := by simp [hlh]
      have hlt : s.log.lh.length < s.log.size := hfit.resolve_left hne
      apply (commit_flushed hne hhome hlt).mono
      intro _ s' hdone
      obtain ⟨hlog, head, head', hflushed⟩ := hdone
      refine ⟨hlog, ?_⟩
      intro b hb
      have hstart : b ≠ s.log.start + 0 := hb.ne (by omega)
      rw [hflushed.view, commitWrites]
      apply applyWrites_fixed
      intro w hw heq
      simp only [List.mem_append, List.mem_singleton, List.mem_map] at hw
      rcases hw with ((hcopy | hhead) | hinstall) | hclear
      · obtain ⟨i, hi, hw⟩ := mem_logCopies hcopy
        exact absurd (heq.symm.trans hw) (hb.ne (i := 0 + i + 1) (by omega))
      · rw [hhead] at heq
        exact absurd heq.symm hstart
      · obtain ⟨c, _, rfl⟩ := hinstall
        rw [← heq]
      · rw [hclear] at heq
        exact absurd heq.symm hstart

/-- Recovery with an empty cache. -/
theorem recoverFromLog_spec (hcache : ∀ b, s.view b = s.disk b)
    (hhome : ∀ b ∈ headOf (s.disk s.log.start), s.log.Home b)
    (hfit : (headOf (s.disk s.log.start)).length < s.log.size) :
    Total recoverFromLog s fun _ s' => s'.log = { s.log with lh := [] } ∧
      ∃ empty : Block, empty.word 0 = 0 ∧
        Flushed (homeCopies s.log.start s.disk 0 (headOf (s.disk s.log.start)) ++
          [(s.log.start, empty)]) s s' := by
  have hread : Total readHead s fun _ s' => Flushed [] s s' ∧
      s'.log = { s.log with lh := headOf (s.disk s.log.start) } := by
    rw [readHead]
    apply Total.bind_eq get_run
    apply Total.bind_eq bread_run
    apply Total.bind_eq (a := ()) rfl
    apply Total.of_eq brelse_run
    constructor
    case left =>
        constructor
        case disk => simp
        case view =>
            rw [applyWrites_nil, view_setBuf, Function.update_eq_self]
            exact view_setBuf.trans (Function.update_eq_self _ _)
        case writes => simp
    case right => rw [← hcache]; rfl
  rw [recoverFromLog]
  apply Total.bind hread
  intro _ s₁ h₁
  obtain ⟨hflush₁, hlog₁⟩ := h₁
  have hview₁ : s₁.view = s.disk := hflush₁.view.trans (funext hcache)
  have hinstall : Total (installTrans true) s₁ fun _ s' =>
      Flushed (homeCopies s.log.start s.disk 0 (headOf (s.disk s.log.start))) s₁ s' ∧
        s'.log = { s.log with lh := headOf (s.disk s.log.start) } := by
    rw [installTrans]
    apply Total.bind_eq get_run
    rw [hlog₁]
    apply (installFrom_spec true (l := s.log) hhome (by omega)).mono
    intro _ s' h'
    rw [hview₁] at h'
    exact ⟨h'.1, h'.2.trans hlog₁⟩
  apply Total.bind hinstall
  intro _ s₂ h₂
  apply Total.bind_eq (a := ()) (t := { s₂ with log := { s₂.log with lh := [] } }) rfl
  apply writeHead_spec.mono
  intro _ s' h'
  obtain ⟨hflush', hlog'⟩ := h'
  rw [h₂.2] at hlog' hflush'
  refine ⟨hlog', putHead [] (s₂.view s.log.start), putHead_nil_word, ?_⟩
  have hsame : Flushed [(s.log.start, putHead [] (s₂.view s.log.start))] s₂ s' :=
    ⟨hflush'.disk, hflush'.view, hflush'.writes⟩
  exact (hflush₁.trans h₂.1).trans hsame

end SyscallSched.Xv6.Fs
