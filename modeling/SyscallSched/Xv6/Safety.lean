import SyscallSched.Xv6.Boot

/-!
# Page frames over a whole run

Between two calls a frame of the pool is free, or some process reaches it, and
never both.  This holds along a run as long as no `sfork` succeeds; a
successful `sfork` loses the page table that `allocproc` made for the child.
-/

namespace SyscallSched.Xv6

open SyscallSched.Foundation

def Proc.Reaches (m : Mem) (q : Proc) (f : Nat) : Prop :=
  f ∈ tables m 2 q.pagetable ∨ f = q.trapframe ∨
    ∃ v < maxVa / pgSize, Present (leafAt m 2 q.pagetable v) ∧
      pte2pa (leafAt m 2 q.pagetable v) = f

/-- `pool` are the pages that were free before `userinit`. -/
structure FramesSafe (pool : Multiset Nat) (k : Kernel) : Prop where
  free : ∀ f ∈ k.mem.freelist, ∀ p < nproc, (k.proc p).state ≠ .unused →
    ¬ (k.proc p).Reaches k.mem f
  refreed : k.mem.refreed = []
  noLeak : ∀ f ∈ pool, f ∉ k.mem.freelist →
    ∃ p < nproc, (k.proc p).state ≠ .unused ∧ (k.proc p).Reaches k.mem f

/-- The call is an `sfork` that finds a slot and four free pages. -/
def Kernel.Shares (k : Kernel) (s : Nat × Call) : Prop :=
  k.live s.1 ∧ s.2 = .sfork ∧ k.canAlloc

theorem Proc.Reaches.of_agree {m m' : Mem} {q : Proc} {f : Nat}
    (h : q.Reaches m' f) (hagree : Agree m m' 2 q.pagetable) : q.Reaches m f := by
  have hleaf : leafAt m' 2 q.pagetable = leafAt m 2 q.pagetable :=
    funext fun v => hagree.leafAt_eq
  rw [Proc.Reaches, hagree.tables_eq, hleaf] at h
  exact h

theorem exists_of_mem_framesOf {g : Nat → Nat} {v n f : Nat} (h : f ∈ framesOf g v n) :
    ∃ i < n, pte2pa (g (v + i)) = f := by
  induction n with
  | zero => exact absurd h (Multiset.notMem_zero f)
  | succ n ih =>
      rw [framesOf_succ] at h
      cases Multiset.mem_cons.mp h with
      | inl hlast => exact ⟨n, Nat.lt_succ_self n, hlast.symm⟩
      | inr hmem =>
          obtain ⟨i, hi, hf⟩ := ih hmem
          exact ⟨i, Nat.lt_succ_of_lt hi, hf⟩

section

variable [Image] {pool : Multiset Nat} {k k' : Kernel} {p f : Nat} {s : Nat × Call}

/-! ## What a process reaches -/

theorem pte2pa_trampoline (perm : Nat) (hperm : perm < 1024) :
    pte2pa (leafEntry Image.trampoline perm) = Image.trampoline := by
  have hlt : Image.trampoline < 2 ^ 64 :=
    (Image.trampoline_lt.trans_le Image.kernelEnd_le).trans (by decide)
  rw [leafEntry, Nat.or_assoc]
  exact pte2pa_or Image.trampoline_aligned hlt (Nat.or_lt_two_pow (n := 10) hperm (by decide))

theorem not_frame_trampoline : ¬ Frame Image.trampoline :=
  fun h => absurd Image.trampoline_lt (Nat.not_lt.mpr h.2.1)

theorem Inv.reaches_share (h : Inv pool k) (hp : p < nproc)
    (hs : (k.proc p).state ≠ .unused) (hf : (k.proc p).Reaches k.mem f) :
    f ∈ (k.proc p).frames k.mem ∨ f = Image.trampoline := by
  have hmap := (h.slot p hp).map hs
  have hspace := h.userSpace hp hs
  have htf : Frame (k.proc p).trapframe := by
    apply hspace.space.valid
    apply Multiset.mem_of_le hspace.space.held_le
    exact Multiset.mem_add.mpr (Or.inr (Multiset.mem_singleton_self _))
  rw [Proc.frames_live hs, Multiset.mem_add, Multiset.mem_add, Multiset.mem_singleton]
  cases hf with
  | inl htable => exact Or.inl (Or.inl htable)
  | inr hrest =>
      cases hrest with
      | inl htrap => exact Or.inl (Or.inr (Or.inr htrap))
      | inr hleaf =>
          obtain ⟨v, hv, hpresent, hpa⟩ := hleaf
          have hreach : v < 512 ^ 3 := hv.trans (by decide)
          by_cases huser : v < pageCount (k.proc p).sz
          · have hmem := mem_framesOf (g := leafAt k.mem 2 (k.proc p).pagetable) (v := 0) huser
            rw [Nat.zero_add, hpa] at hmem
            exact Or.inl (Or.inr (Or.inl hmem))
          · by_cases htrap : v = trapframePage
            · rw [htrap, hmap.trapframe, pte2pa_leafEntry htf (by decide)] at hpa
              exact Or.inl (Or.inr (Or.inr hpa.symm))
            · by_cases htramp : v = trampolinePage
              · rw [htramp, hmap.trampoline, pte2pa_trampoline _ (by decide)] at hpa
                exact Or.inr hpa.symm
              · rw [hmap.none v hreach (Nat.not_lt.mp huser) htrap htramp] at hpresent
                exact absurd hpresent not_present_zero

theorem Inv.share_reaches (h : Inv pool k) (hp : p < nproc)
    (hs : (k.proc p).state ≠ .unused) (hf : f ∈ (k.proc p).frames k.mem) :
    (k.proc p).Reaches k.mem f := by
  have hpages := (h.userSpace hp hs).pages_le
  have hva : (32768 : Nat) < maxVa / pgSize := by decide
  rw [Proc.frames_live hs, Multiset.mem_add, Multiset.mem_add, Multiset.mem_singleton] at hf
  cases hf with
  | inl htable => exact Or.inl htable
  | inr hrest =>
      cases hrest with
      | inr htrap => exact Or.inr (Or.inl htrap)
      | inl huser =>
          obtain ⟨i, hi, hpa⟩ := exists_of_mem_framesOf huser
          rw [Nat.zero_add] at hpa
          have hpresent := ((h.slot p hp).map hs).user i hi
          exact Or.inr (Or.inr ⟨i, (hi.trans_le hpages).trans hva, hpresent, hpa⟩)

theorem Inv.framesSafe (h : Inv pool k) : FramesSafe pool k := by
  constructor
  case free =>
      intro f hf p hp hs hreach
      have hnd := Multiset.nodup_of_le (h.share_le hp) h.nodup
      have hdisjoint := (Multiset.nodup_add.mp hnd).2.2
      cases h.reaches_share hp hs hreach with
      | inl hshare =>
          exact Multiset.disjoint_left.mp hdisjoint (Multiset.mem_coe.mpr hf) hshare
      | inr htramp =>
          apply not_frame_trampoline
          rw [← htramp]
          exact h.stock.valid f (Multiset.mem_coe.mpr hf)
  case refreed => exact h.refreed
  case noLeak =>
      intro f hf hfree
      rw [← h.frames, Multiset.mem_add, Multiset.mem_sum] at hf
      cases hf with
      | inl hmem => exact absurd (Multiset.mem_coe.mp hmem) hfree
      | inr hshare =>
          obtain ⟨p, hp, hmem⟩ := hshare
          have hlt := mem_slots.mp hp
          have hs : (k.proc p).state ≠ .unused := by
            intro hunused
            rw [Proc.frames_unused hunused] at hmem
            exact Multiset.notMem_zero f hmem
          exact ⟨p, hlt, hs, h.share_reaches hlt hs hmem⟩

/-! ## `sfork` -/

theorem sfork_leaks (h : Inv pool k) (hl : k.live p) (hcan : k.canAlloc) :
    Total (sfork p) k fun _ k' => ¬ FramesSafe pool k' := by
  apply (sfork_allocated h hl hcan).mono
  intro _ k' hk'
  obtain ⟨k₁, np, halloc, he⟩ := hk'
  obtain ⟨g, hspace⟩ := halloc.space
  obtain ⟨root, hroot⟩ : ∃ root, root = (k₁.proc np).pagetable := ⟨_, rfl⟩
  obtain ⟨hs, -⟩ := live_state hl
  have htable : root ∈ tables k₁.mem 2 (k₁.proc np).pagetable := by
    rw [hroot]
    exact root_mem_tables
  have hwasfree : root ∈ k.mem.freelist :=
    Multiset.mem_coe.mp (Multiset.mem_of_le hspace.space.tables_le htable)
  have hpool : root ∈ pool := by
    rw [← h.frames]
    exact Multiset.mem_add.mpr (Or.inl (Multiset.mem_coe.mpr hwasfree))
  have hnd := Multiset.nodup_add.mp hspace.space.stock_nodup
  have hbusy : root ∉ k'.mem.freelist := by
    rw [he.mem]
    intro hmem
    exact Multiset.disjoint_left.mp hnd.2.2 (Multiset.mem_coe.mpr hmem) htable
  have hbefore : ∀ i < nproc, (k.proc i).state ≠ .unused →
      ¬ (k.proc i).Reaches k₁.mem root := by
    intro i hi hsi hreach
    apply h.framesSafe.free root hwasfree i hi hsi
    exact hreach.of_agree (halloc.within.agree (h.tables_disjoint hi hsi))
  intro hsafe
  obtain ⟨i, hi, hsi, hreach⟩ := hsafe.noLeak root hpool hbusy
  rw [he.mem] at hreach
  by_cases hinp : i = np
  · rw [hinp, he.self] at hreach
    cases hreach with
    | inl hshared => exact hbefore p hl.1 hs (Or.inl hshared)
    | inr hrest =>
        cases hrest with
        | inl htrap =>
            have hheld : root ∈ framesOf g 0 0 + {(k₁.proc np).trapframe} := by
              rw [htrap]
              exact Multiset.mem_add.mpr (Or.inr (Multiset.mem_singleton_self _))
            exact Multiset.disjoint_left.mp hspace.space.tables_disjoint_held htable hheld
        | inr hleaf => exact hbefore p hl.1 hs (Or.inr (Or.inr hleaf))
  · rw [he.others i hinp] at hreach hsi
    exact hbefore i hi hsi hreach

/-! ## One step -/

omit [Image] in
theorem after_of_total {x : KernelM Unit} {Q : Kernel → Prop}
    (h : Total x k fun _ k' => Q k') : ∃ k', after k x = .ok k' ∧ Q k' := by
  obtain ⟨a, k', hrun, hQ⟩ := h
  refine ⟨k', ?_, hQ⟩
  rw [after, hrun]

omit [Image] in
theorem Total.discard {α : Type} {x : KernelM α} {Q : Kernel → Prop}
    (h : Total x k fun _ k' => Q k') :
    Total (x >>= fun _ => pure ()) k fun _ k' => Q k' := by
  apply Total.bind h
  intro _ k' hQ
  exact Total.pure hQ

/-- A call of a live process that shares nothing, other than `exit` of `init`. -/
theorem call_inv {call : Call} (h : Inv pool k) (hl : k.live p)
    (hno : ¬ k.Shares (p, call)) (hinit : ∀ status, call = .exit status → k.initproc ≠ some p) :
    Total (call.run p) k fun _ k' => Inv pool k' := by
  cases call with
  | fork => exact Total.discard (fork_inv h hl)
  | sfork => exact Total.discard (sfork_refused_inv h fun hcan => hno ⟨hl, rfl, hcan⟩)
  | growproc n => exact Total.discard (growproc_inv h hl n)
  | exec path found argv => exact Total.discard (exec_inv h hl)
  | exit status => exact exit_inv h hl (hinit status rfl)
  | wait addr => exact Total.discard (wait_inv h hl)

theorem exit_init {status : Int} (h : k.initproc = some p) :
    after k (exit p status) = .error .initExiting := by
  have hrun : exit p status k = .error .initExiting := by
    rw [exit, Total.run_bind (a := k) (t := k) rfl, if_pos h]
    rfl
  rw [after, hrun]

theorem step_inv (h : Inv pool k) (hno : ¬ k.Shares s) :
    (∃ k', step k s = .ok k' ∧ Inv pool k') ∨ step k s = .error .initExiting := by
  obtain ⟨p, call⟩ := s
  by_cases hl : k.live p
  · rw [step, if_pos hl]
    by_cases hinit : ∃ status, call = .exit status ∧ k.initproc = some p
    · obtain ⟨status, rfl, hp⟩ := hinit
      exact Or.inr (exit_init hp)
    · left
      apply after_of_total
      apply call_inv h hl hno
      intro status hcall hp
      exact hinit ⟨status, hcall, hp⟩
  · left
    refine ⟨k, ?_, h⟩
    rw [step, if_neg hl]

theorem step_shares (h : Inv pool k) (hshares : k.Shares s) :
    ∃ k', step k s = .ok k' ∧ ¬ FramesSafe pool k' := by
  obtain ⟨p, call⟩ := s
  obtain ⟨hl, hcall, hcan⟩ := hshares
  change call = .sfork at hcall
  subst hcall
  rw [step, if_pos hl]
  exact after_of_total (Total.discard (sfork_leaks h hl hcan))

/-! ## Whole runs -/

def NeverShares (run : List (Nat × Call) → Except Panic Kernel)
    (calls : List (Nat × Call)) : Prop :=
  ∀ before s rest, calls = before ++ s :: rest →
    ∀ k, run before = .ok k → ¬ k.Shares s

def SafeThroughout (pool : Multiset Nat) (run : List (Nat × Call) → Except Panic Kernel)
    (calls : List (Nat × Call)) : Prop :=
  ∀ before rest, calls = before ++ rest → ∀ k, run before = .ok k → FramesSafe pool k

theorem runFrom_cons (h : step k s = .ok k') (calls : List (Nat × Call)) :
    runFrom k (s :: calls) = runFrom k' calls := by
  rw [runFrom, List.foldlM_cons, h]
  rfl

theorem runFrom_cons_error {e : Panic} (h : step k s = .error e)
    (calls : List (Nat × Call)) : runFrom k (s :: calls) = .error e := by
  rw [runFrom, List.foldlM_cons, h]
  rfl

theorem NeverShares.head {calls : List (Nat × Call)}
    (h : NeverShares (runFrom k) (s :: calls)) : ¬ k.Shares s :=
  h [] s calls rfl k rfl

theorem NeverShares.tail {calls : List (Nat × Call)} (hstep : step k s = .ok k')
    (h : NeverShares (runFrom k) (s :: calls)) : NeverShares (runFrom k') calls := by
  intro before t rest hcalls k'' hrun
  apply h (s :: before) t rest
  · rw [hcalls, List.cons_append]
  · rw [runFrom_cons hstep, hrun]

theorem runFrom_inv {calls : List (Nat × Call)} (h : Inv pool k)
    (hno : NeverShares (runFrom k) calls) :
    (∃ k', runFrom k calls = .ok k' ∧ Inv pool k') ∨
      runFrom k calls = .error .initExiting := by
  induction calls generalizing k with
  | nil => exact Or.inl ⟨k, rfl, h⟩
  | cons s calls ih =>
      cases step_inv h hno.head with
      | inl hok =>
          obtain ⟨k₁, hstep, hinv⟩ := hok
          rw [runFrom_cons hstep]
          exact ih hinv (hno.tail hstep)
      | inr herror => exact Or.inr (runFrom_cons_error herror calls)

omit [Image] in
theorem NeverShares.initial {run : List (Nat × Call) → Except Panic Kernel}
    {before rest : List (Nat × Call)} (h : NeverShares run (before ++ rest)) :
    NeverShares run before := by
  intro first s second hbefore
  apply h first s (second ++ rest)
  rw [hbefore, List.append_assoc, List.cons_append]

theorem runFrom_safe {calls : List (Nat × Call)} (h : Inv pool k)
    (hno : NeverShares (runFrom k) calls) : SafeThroughout pool (runFrom k) calls := by
  intro before rest hcalls k' hrun
  rw [hcalls] at hno
  cases runFrom_inv h hno.initial with
  | inl hok =>
      obtain ⟨k'', hrun', hinv⟩ := hok
      rw [hrun] at hrun'
      injection hrun' with hk
      rw [hk]
      exact hinv.framesSafe
  | inr herror =>
      rw [hrun] at herror
      exact nomatch herror

theorem neverShares_of_safe {calls : List (Nat × Call)} (h : Inv pool k)
    (hsafe : SafeThroughout pool (runFrom k) calls) : NeverShares (runFrom k) calls := by
  induction calls generalizing k with
  | nil =>
      intro before s rest hnil
      exact absurd hnil.symm (List.append_ne_nil_of_right_ne_nil _ (List.cons_ne_nil s rest))
  | cons c calls ih =>
      have hhead : ¬ k.Shares c := by
        intro hshares
        obtain ⟨k₁, hstep, hunsafe⟩ := step_shares h hshares
        exact hunsafe (hsafe [c] calls rfl k₁ (runFrom_cons hstep []))
      intro before s rest hcalls k' hrun
      cases before with
      | nil =>
          injection hcalls with hc
          injection hrun with hk
          rw [← hk, ← hc]
          exact hhead
      | cons c' before =>
          injection hcalls with hc htail
          subst hc
          cases step_inv h hhead with
          | inl hok =>
              obtain ⟨k₁, hstep, hinv⟩ := hok
              rw [runFrom_cons hstep] at hrun
              refine ih hinv ?_ before s rest htail k' hrun
              intro first second hfirst k'' hrun''
              apply hsafe (c :: first) second
              · rw [hfirst, List.cons_append]
              · rw [runFrom_cons hstep, hrun'']
          | inr herror =>
              rw [runFrom_cons_error herror] at hrun
              exact nomatch hrun

theorem Boot.run_eq (b : Boot) : ∃ k, b.run = runFrom k ∧
    Inv ↑b.kernel.mem.freelist k ∧ FirstProcess b k := by
  obtain ⟨k, hrun, hk⟩ := after_of_total (userinit_spec b)
  refine ⟨k, ?_, hk⟩
  funext calls
  rw [Boot.run, hrun]
  rfl

/-- A run is safe throughout exactly when no `sfork` in it finds a slot and
four free pages; it then stops at most because `init` exits. -/
theorem Boot.run_framesSafe_iff (b : Boot) (calls : List (Nat × Call)) :
    (SafeThroughout ↑b.kernel.mem.freelist b.run calls ↔ NeverShares b.run calls) ∧
      (NeverShares b.run calls →
        (∃ k, b.run calls = .ok k) ∨ b.run calls = .error .initExiting) := by
  obtain ⟨k, hrun, hinv, -⟩ := b.run_eq
  rw [hrun]
  constructor
  case left => exact ⟨neverShares_of_safe hinv, runFrom_safe hinv⟩
  case right =>
      intro hno
      cases runFrom_inv hinv hno with
      | inl hok => exact Or.inl (hok.imp fun _ h => h.1)
      | inr herror => exact Or.inr herror

/-- `init` may share at once if eleven pages were free. -/
theorem Boot.first_sfork_leaks (b : Boot) (h : 11 ≤ b.kernel.mem.freelist.length) :
    ∃ k, b.run [(0, .sfork)] = .ok k ∧ ¬ FramesSafe ↑b.kernel.mem.freelist k := by
  obtain ⟨k, hrun, hinv, hfirst⟩ := b.run_eq
  have hcan : k.canAlloc := by
    have hlength := hfirst.length
    refine ⟨?_, by omega⟩
    rw [Kernel.unusedSlot, List.find?_isSome]
    exact ⟨1, by decide, decide_eq_true (hfirst.others 1 (by decide))⟩
  obtain ⟨k', hstep, hunsafe⟩ := step_shares (s := (0, .sfork)) hinv
    ⟨hfirst.live, rfl, hcan⟩
  refine ⟨k', ?_, hunsafe⟩
  rw [hrun, runFrom_cons hstep]
  rfl

end

attribute [local instance] builtImage in
theorem sfork_by_init_leaks : ∃ k, builtBoot.run [(0, .sfork)] = .ok k ∧
    ¬ FramesSafe ↑builtKernel.mem.freelist k := by
  apply builtBoot.first_sfork_leaks
  change 11 ≤ builtKernel.mem.freelist.length
  rw [length_builtKernel]
  decide

end SyscallSched.Xv6
