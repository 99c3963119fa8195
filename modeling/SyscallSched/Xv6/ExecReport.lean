import SyscallSched.Xv6.Boot

/-!
# What `exec` reports

An `exec` that fails leaves the process as it was and gives back what it took.  One
that succeeds hands `argv` over: `main` finds the strings, and the array of their
addresses, in the stack pages of the new image.
-/

namespace SyscallSched.Xv6

open SyscallSched.Foundation

section

variable [Image] {k k' : Kernel} {p : Nat} {path : List Nat}
  {found : Option (Nat × List Nat)} {argv : List (List Nat)} {image : NewImage}
  {g : Nat → Nat} {res : Int}

/-! ## A failure -/

structure ExecUndone (k k' : Kernel) : Prop where
  procs : k'.proc = k.proc
  /-- what was not free has not been written, so neither have the trapframes -/
  pages : ∀ q, q ∉ k.mem.freelist → k'.mem.page q = k.mem.page q
  free : k'.mem.freelist.Perm k.mem.freelist
  inodeRef : k'.inodeRef = k.inodeRef
  outstanding : k'.outstanding = k.outstanding

omit [Image] in
theorem ExecFailed.undone (h : ExecFailed k k') : ExecUndone k k' := by
  obtain ⟨mem, rfl, hfree, hwithin⟩ := h
  exact ⟨rfl, hwithin.page, Multiset.coe_eq_coe.mp hfree, rfl, rfl⟩

theorem exec_undone (h : Owner k p) :
    Total (exec p path found argv) k fun res k' => res = -1 → ExecUndone k k' ∧
      ∀ i, k'.mem.page (k'.proc p).trapframe i = k.mem.page (k.proc p).trapframe i := by
  apply (exec_run h).mono
  intro res k' hout hres
  cases hout with
  | inl hfailed =>
      have hundone := hfailed.2.undone
      refine ⟨hundone, ?_⟩
      intro i
      rw [hundone.procs, hundone.pages _ h.parts_apart.2.2]
  | inr hdone =>
      obtain ⟨image, _, hargc, -⟩ := hdone
      omega

/-! ## The arguments of `main` -/

def CString (s : List Nat) : Prop := ∀ b ∈ s, b ≠ 0 ∧ b < 256

instance (s : List Nat) : Decidable (CString s) :=
  inferInstanceAs (Decidable (∀ b ∈ s, b ≠ 0 ∧ b < 256))

def StringAt (byte : Nat → Nat) (a : Nat) (s : List Nat) : Prop :=
  (∀ i (hi : i < s.length), byte (a + i) = s[i] ∧ byte (a + i) ≠ 0) ∧ byte (a + s.length) = 0

omit [Image] in
theorem ArgAt.stringAt {byte : Nat → Nat} {base a : Nat} {s : List Nat}
    (h : ArgAt byte base a s) (hs : CString s) : StringAt byte a s := by
  refine ⟨?_, h.nul⟩
  intro i hi
  obtain ⟨hne, hlt⟩ := hs s[i] (List.getElem_mem hi)
  have hbyte := h.bytes i hi
  rw [Nat.mod_eq_of_lt hlt] at hbyte
  exact ⟨hbyte, by rwa [hbyte]⟩

/-- Start and size of the array at `sp` and of the strings. -/
def argRegions (sp : Nat) (argv : List (List Nat)) (addrs : List Nat) : List (Nat × Nat) :=
  (sp, (argv.length + 1) * 8) :: addrs.zip (argv.map argSize)

/-- The array at `sp` and the strings at `addrs`, from `base` up to `top`. -/
structure LaidOut (byte : Nat → Nat) (base top sp : Nat) (argv : List (List Nat))
    (addrs : List Nat) : Prop where
  count : addrs.length = argv.length
  words : ∀ i (hi : i < (addrs ++ [0]).length), getLE byte (sp + i * 8) 8 = (addrs ++ [0])[i]
  strings : ∀ i (hi : i < argv.length) (hi' : i < addrs.length),
    StringAt byte addrs[i] argv[i]
  apart : (argRegions sp argv addrs).Pairwise fun a b => a.1 + a.2 ≤ b.1 ∨ b.1 + b.2 ≤ a.1
  within : ∀ a ∈ argRegions sp argv addrs, base ≤ a.1 ∧ a.1 + a.2 ≤ top

def Kernel.register (k : Kernel) (p i : Nat) : Nat := k.mem.page (k.proc p).trapframe i

structure HandedOver (k : Kernel) (p : Nat) (argv : List (List Nat)) (res : Int) : Prop where
  argc : res = argv.length
  sp : k.register p tfSp = k.register p tfA1
  aligned : k.register p tfA1 % 16 = 0
  /-- the guard page lies below the stack pages -/
  guard : ∃ v, (v + 1 + userStack) * pgSize = (k.proc p).sz ∧
    Present (leafAt k.mem 2 (k.proc p).pagetable v) ∧
    leafAt k.mem 2 (k.proc p).pagetable v &&& pteU = 0 ∧
    ∀ w, v < w → w < v + 1 + userStack →
      Present (leafAt k.mem 2 (k.proc p).pagetable w) ∧
        leafAt k.mem 2 (k.proc p).pagetable w &&& pteU ≠ 0
  args : ∃ addrs, LaidOut (userByte k.mem (k.proc p).pagetable)
    ((k.proc p).sz - userStack * pgSize) (k.proc p).sz (k.register p tfA1) argv addrs

namespace ExecDone

theorem leaf (h : ExecDone k k' p path argv image g) {v : Nat} (hv : v < 512 ^ 3) :
    leafAt k'.mem 2 (k'.proc p).pagetable v = g v := by
  rw [h.edited.self]
  exact h.space.space.leaf v hv

theorem byte (h : ExecDone k k' p path argv image g) {va : Nat} (hva : va < image.sz) :
    userByte k'.mem (k'.proc p).pagetable va = mapByte k'.mem g va := by
  have hn := h.space.pages_le
  have hpage : va / pgSize < 512 ^ 3 := by
    simp only [pageCount, pgSize] at hn ⊢
    omega
  rw [userByte, mapByte, h.leaf hpage, mapByte]

theorem register (h : ExecDone k k' p path argv image g) (i : Nat) :
    k'.register p i = k'.mem.page (k.proc p).trapframe i := by
  rw [Kernel.register, h.edited.self]

theorem laidOut (h : ExecDone k k' p path argv image g) (hargv : ∀ s ∈ argv, CString s) :
    ∃ addrs, LaidOut (userByte k'.mem (k'.proc p).pagetable)
      (image.sz - userStack * pgSize) image.sz image.sp argv addrs := by
  obtain ⟨addrs, low, hpushed, hlow, hwords⟩ := h.handed.args
  have hcount := hpushed.length_eq
  have hle := hpushed.le
  have habove := h.handed.above
  refine ⟨addrs, ?_⟩
  constructor
  case count => exact hcount
  case words =>
      intro i hi
      rw [← hwords i hi]
      rw [List.length_append, List.length_singleton] at hi
      apply getLE_congr
      intro va _ hva
      exact h.byte (by omega)
  case strings =>
      intro i hi hi'
      have hwithin := (hpushed.within hi hi').2
      apply ((hpushed.holds_at hi hi').congr ?_).stringAt (hargv _ (List.getElem_mem hi))
      intro va _ hva
      exact h.byte (by omega)
  case apart =>
      apply List.Pairwise.cons
      · intro a ha
        exact Or.inl (hlow.trans (hpushed.mem_within ha).1)
      · exact hpushed.pairwise.imp Or.inr
  case within =>
      intro a ha
      cases ha with
      | head => exact ⟨habove, hlow.trans hle⟩
      | tail _ ha =>
          obtain ⟨hbelow, htop⟩ := hpushed.mem_within ha
          exact ⟨by omega, htop⟩

theorem handedOver (h : ExecDone k k' p path argv image g) (hres : res = image.argc)
    (hargv : ∀ s ∈ argv, CString s) : HandedOver k' p argv res := by
  have hn := h.space.pages_le
  have hwhole := h.handed.whole
  have hroom := h.handed.room
  have hsz : (k'.proc p).sz = image.sz := by rw [h.edited.self]
  have hreach : image.sz / pgSize < 512 ^ 3 := by
    simp only [pageCount, pgSize] at hn ⊢
    omega
  have htop : (image.sz / pgSize - 2 + 1 + userStack) * pgSize = image.sz := by
    simp only [userStack, pgSize] at hroom hwhole ⊢
    omega
  have hpages : image.sz / pgSize - 2 + 1 + userStack = image.sz / pgSize := by
    simp only [userStack, pgSize] at hroom ⊢
    omega
  constructor
  case argc => rw [hres, h.handed.argc]
  case sp => rw [h.register, h.register, h.sp, h.a1]
  case aligned =>
      rw [h.register, h.a1]
      exact h.handed.aligned
  case guard =>
      refine ⟨image.sz / pgSize - 2, by rw [hsz, htop], ?_⟩
      rw [h.leaf (by omega), hpages]
      refine ⟨h.handed.guard.1, h.handed.guard.2, ?_⟩
      intro v hlow hhigh
      rw [h.leaf (by omega)]
      refine ⟨h.space.map.user v ?_, h.handed.stack v hlow hhigh⟩
      simp only [pageCount, pgSize] at hhigh ⊢
      omega
  case args =>
      rw [hsz, h.register, h.a1]
      exact h.laidOut hargv

end ExecDone

theorem exec_hands_over (h : Owner k p) (_ : argv.length ≤ maxArg - 1)
    (hargv : ∀ s ∈ argv, CString s) :
    Total (exec p path found argv) k fun res k' => res ≠ -1 → HandedOver k' p argv res := by
  apply (exec_run h).mono
  intro res k' hout hres
  cases hout with
  | inl hfailed => exact absurd hfailed.1 hres
  | inr hdone =>
      obtain ⟨_, _, hargc, hdone⟩ := hdone
      exact hdone.handedOver hargc hargv

end

/-! ## The first process -/

def bareElf : List Nat := [127, 69, 76, 70] ++ List.replicate 60 0

attribute [local instance] builtImage in
theorem first_owner : ∃ k : Kernel, userinit builtBoot.root builtBoot.kernel = .ok ((), k) ∧
    Owner k 0 := by
  obtain ⟨_, k, hinit, hinv, hfirst⟩ := userinit_spec builtBoot
  exact ⟨k, hinit, hinv.owner hfirst.live⟩

/-- The result of `exec` in the state after the boot. -/
theorem first_exec [Image] {k k' : Kernel} {found : Option (Nat × List Nat)}
    {argv : List (List Nat)} {res : Int} {path : List Nat} {b : Boot} {res' : Int}
    (hinit : userinit b.root b.kernel = .ok ((), k))
    (hrun : exec 0 path found argv k = .ok (res, k'))
    (hres : (do
      let r ← userinit b.root b.kernel
      let r ← exec 0 path found argv r.2
      pure r.1) = Except.ok (ε := Panic) res') : res = res' := by
  rw [hinit] at hres
  simp only [bind, Except.bind, hrun, pure, Except.pure] at hres
  injection hres

def loadHeader (vaddr filesz memsz : Nat) : List Nat :=
  [1, 0, 0, 0, 7, 0, 0, 0] ++ wordBytes 0 ++ wordBytes vaddr ++ wordBytes vaddr ++
    wordBytes filesz ++ wordBytes memsz ++ wordBytes pgSize

/-- Two segments, of which the second claims more bytes of the file than of memory. -/
def badElf : List Nat :=
  [127, 69, 76, 70] ++ List.replicate 28 0 ++ wordBytes 64 ++ List.replicate 16 0 ++ wordBytes 2 ++
    loadHeader 0 100 8192 ++ loadHeader 8192 200 100

attribute [local instance] builtImage in
/-- The two pages of the first segment have been mapped and filled before `exec` sees
that the second is bad. -/
theorem exec_undone_badElf : ∃ k k' : Kernel,
    exec 0 [47] (some (1, badElf)) [[97]] k = .ok (-1, k') ∧ ExecUndone k k' := by
  obtain ⟨k, hinit, hk⟩ := first_owner
  have hexec : Total (exec 0 [47] (some (1, badElf)) [[97]]) k _ := exec_undone hk
  obtain ⟨res, k', hrun, hundone⟩ := hexec
  obtain rfl : res = -1 := first_exec hinit hrun (by decide +kernel)
  exact ⟨k, k', hrun, (hundone rfl).1⟩

attribute [local instance] builtImage in
theorem exec_hands_over_two : ∃ k k' : Kernel,
    exec 0 [47, 97] (some (2, bareElf)) [[97], [98, 99]] k = .ok (2, k') ∧
      HandedOver k' 0 [[97], [98, 99]] 2 := by
  obtain ⟨k, hinit, hk⟩ := first_owner
  have hexec : Total (exec 0 [47, 97] (some (2, bareElf)) [[97], [98, 99]]) k _ :=
    exec_hands_over hk (by decide) (by decide)
  obtain ⟨res, k', hrun, hover⟩ := hexec
  obtain rfl : res = 2 := first_exec hinit hrun (by decide +kernel)
  exact ⟨k, k', hrun, hover (by decide)⟩

end SyscallSched.Xv6
