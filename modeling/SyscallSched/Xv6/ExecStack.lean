import SyscallSched.Foundation.Downwards
import SyscallSched.Foundation.Digits
import SyscallSched.Xv6.UserWrite

/-!
# The stack that `exec` sets up

A guard page, and above it a page with the argument strings and, below them, the
array of their addresses.
-/

namespace SyscallSched.Xv6

open SyscallSched.Foundation

section

/-! ## Words of an array -/

variable {ws : List Nat} {i j : Nat}

theorem length_wordBytes (w : Nat) : (wordBytes w).length = 8 := by
  simp [wordBytes]

theorem length_flatMap_wordBytes (ws : List Nat) :
    (ws.flatMap wordBytes).length = ws.length * 8 := by
  induction ws with
  | nil => rfl
  | cons w ws ih =>
      rw [List.flatMap_cons, List.length_append, length_wordBytes, ih, List.length_cons]
      omega

theorem getElem_flatMap_wordBytes (hi : i < ws.length) (hj : j < 8)
    (h : i * 8 + j < (ws.flatMap wordBytes).length) :
    (ws.flatMap wordBytes)[i * 8 + j] = ws[i] / 256 ^ j % 256 := by
  induction ws generalizing i with
  | nil => exact absurd hi (Nat.not_lt_zero i)
  | cons w ws ih =>
      have hlen := length_wordBytes w
      cases i with
      | zero =>
          simp only [Nat.zero_mul, Nat.zero_add, List.flatMap_cons, List.getElem_cons_zero]
          rw [List.getElem_append_left (by omega)]
          simp [wordBytes]
      | succ i =>
          have hoff : (i + 1) * 8 + j - (wordBytes w).length = i * 8 + j := by omega
          simp only [List.flatMap_cons, List.getElem_cons_succ]
          rw [List.getElem_append_right (by omega)]
          simp only [hoff]
          exact ih (Nat.lt_of_succ_lt_succ hi) _

/-! ## Going down -/

theorem pushDown_aligned (sp n : Nat) : pushDown sp n % 16 = 0 := by
  rw [pushDown]
  omega

theorem pushDown_fits {sp n : Nat} (hsp : sp < 2 ^ 32) (h : pushDown sp n + n ≤ 2 ^ 32) :
    pushDown sp n + n ≤ sp := by
  simp only [pushDown, sub64] at *
  omega

end

variable [Image] {X U : Multiset Nat} {m m' : Mem} {r n tf : Nat} {g : Nat → Nat}

/-! ## The guard page -/

/-- The map `g` with page `v` closed to the user. -/
def closedOff (g : Nat → Nat) (v : Nat) : Nat → Nat :=
  Function.update g v (g v ^^^ (g v &&& pteU))

section

variable {v w : Nat}

omit [Image]

theorem closedOff_ne (h : w ≠ v) : closedOff g v w = g w := Function.update_of_ne h _ g

theorem closedOff_self : closedOff g v v = g v ^^^ (g v &&& pteU) := Function.update_self _ _ g

theorem closedOff_pa : pte2pa (closedOff g v w) = pte2pa (g w) := by
  by_cases h : w = v
  · rw [h, closedOff_self, clear_user_pa]
  · rw [closedOff_ne h]

theorem closedOff_present (h : Present (g w)) : Present (closedOff g v w) := by
  by_cases hv : w = v
  · subst hv
    rw [closedOff_self, Present, clear_user_and (by decide)]
    exact h
  · rw [closedOff_ne hv]
    exact h

theorem closedOff_user : closedOff g v v &&& pteU = 0 := by
  rw [closedOff_self, Nat.and_xor_distrib_right, Nat.and_assoc, Nat.and_self, Nat.xor_self]

end

theorem uvmclear_spec {v : Nat} (h : UserSpace X m r g n tf U) (hv : v < n) :
    Total (uvmclear r (v * pgSize)) m fun _ m' => Within X m m' ∧
      UserSpace X m' r (closedOff g v) n tf U := by
  have hn := h.pages_le
  have hreach : v < 512 ^ 3 := by omega
  have hp := h.map.user v hv
  have hleaf := h.space.leaf v hreach
  obtain ⟨a, hwalk, hslot, hentry⟩ :=
    walk_present (page_va_lt (by omega)) (hleaf.symm ▸ hp)
  have hmaps : Maps (g v ^^^ (g v &&& pteU)) := by
    have hpl : Present (leafAt m 2 r v) := hleaf.symm ▸ hp
    rw [Maps, clear_user_and (by decide), ← hleaf]
    exact h.space.shaped.leaf_maps hpl
  rw [hleaf] at hentry
  rw [uvmclear]
  apply Total.bind_eq hwalk
  apply Total.bind_eq loadPte_run
  rw [hentry]
  apply Total.of_eq storePte_run
  obtain ⟨hspace, hwithin⟩ := h.space.write_leaf hreach hslot (fun _ => hmaps)
  refine ⟨hwithin, ?_, ?_⟩
  · have hframes : framesOf (closedOff g v) 0 n = framesOf g 0 n :=
      framesOf_pa_congr fun _ _ => closedOff_pa
    rw [hframes]
    exact hspace
  · constructor
    case user => exact fun i hi => closedOff_present (h.map.user i hi)
    case trapframe =>
        rw [closedOff_ne (by simp only [trapframePage]; omega)]
        exact h.map.trapframe
    case trampoline =>
        rw [closedOff_ne (by simp only [trampolinePage]; omega)]
        exact h.map.trampoline
    case none =>
        intro w hw hnw
        rw [closedOff_ne (by omega)]
        exact h.map.none w hw hnw

/-! ## The arguments -/

structure ArgAt (byte : Nat → Nat) (base a : Nat) (s : List Nat) : Prop where
  aligned : a % 16 = 0
  above : base ≤ a
  bytes : ∀ i (hi : i < s.length), byte (a + i) = s[i] % 256
  nul : byte (a + s.length) = 0

def argSize (s : List Nat) : Nat := s.length + 1

omit [Image] in
theorem ArgAt.congr {byte byte' : Nat → Nat} {base a : Nat} {s : List Nat}
    (h : ArgAt byte base a s)
    (hsame : ∀ w, a ≤ w → w < a + argSize s → byte' w = byte w) : ArgAt byte' base a s := by
  rw [argSize] at hsame
  constructor
  case aligned => exact h.aligned
  case above => exact h.above
  case bytes =>
      intro i hi
      rw [hsame _ (by omega) (by omega)]
      exact h.bytes i hi
  case nul =>
      rw [hsame _ (by omega) (by omega)]
      exact h.nul

omit [Image] in
theorem Spliced.argAt {base a : Nat} {s : List Nat} (h : Spliced m m' g n a (s ++ [0]))
    (haligned : a % 16 = 0) (habove : base ≤ a) : ArgAt (mapByte m' g) base a s := by
  have hlen : (s ++ [0]).length = s.length + 1 := List.length_append
  constructor
  case aligned => exact haligned
  case above => exact habove
  case bytes =>
      intro i hi
      rw [h.bytes i (by omega), List.getElem_append_left hi]
  case nul =>
      rw [h.bytes s.length (by omega), List.getElem_concat_length rfl]

structure ArgsPushed (m m' : Mem) (g : Nat → Nat) (n base sp : Nat) (argv : List (List Nat))
    (addrs : List Nat) (sp' : Nat) : Prop where
  pushed : Pushed (ArgAt (mapByte m' g) base) argSize sp argv addrs sp'
  others : ∀ w, sp ≤ w → w / pgSize < n → mapByte m' g w = mapByte m g w

theorem pushArgs_spec {base sp : Nat} {argv : List (List Nat)} {ustack : List Nat}
    (h : UserSpace X m r g n tf U) (hsp : sp ≤ n * pgSize) :
    Total (pushArgs r base argv sp ustack) m fun result m' =>
      Wrote (framesOf g 0 n) m m' ∧ ∀ sp' ustack', result = some (sp', ustack') →
        ∃ addrs, ustack' = ustack ++ addrs ∧ ArgsPushed m m' g n base sp argv addrs sp' := by
  have hstop : Total (pure none : MemM (Option (Nat × List Nat))) m fun result m' =>
      Wrote (framesOf g 0 n) m m' ∧ ∀ sp' ustack', result = some (sp', ustack') →
        ∃ addrs, ustack' = ustack ++ addrs ∧ ArgsPushed m m' g n base sp argv addrs sp' := by
    apply Total.pure
    refine ⟨Wrote.refl _ m, ?_⟩
    intro sp' ustack' hsome
    cases hsome
  induction argv generalizing m sp ustack with
  | nil =>
      apply Total.pure
      refine ⟨Wrote.refl _ m, ?_⟩
      intro sp' ustack' hsome
      cases hsome
      exact ⟨[], (List.append_nil _).symm, Pushed.nil sp, fun _ _ _ => rfl⟩
  | cons arg argv ih =>
      have hn := h.pages_le
      simp only [pushArgs]
      split
      case isTrue => exact hstop
      split
      case isTrue => exact hstop
      rename_i hbase
      generalize haddr : pushDown sp (arg.length + 1) = a at *
      apply Total.bind (copyout_content h)
      intro copied m₁ hm₁
      obtain ⟨hwrote, hcopied⟩ := hm₁
      cases copied with
      | false =>
          apply Total.pure
          refine ⟨hwrote, ?_⟩
          intro sp' ustack' hsome
          cases hsome
      | true =>
          have hsplice := hcopied rfl
          have hend := hsplice.below arg.length (by simp)
          have hfits : a + (arg.length + 1) ≤ sp := by
            have hsmall : pushDown sp (arg.length + 1) + (arg.length + 1) ≤ 2 ^ 32 := by
              rw [haddr]
              simp only [pgSize] at hend
              omega
            have hdown := pushDown_fits (by simp only [pgSize] at hsp; omega) hsmall
            rw [haddr] at hdown
            exact hdown
          have haligned : a % 16 = 0 := by
            rw [← haddr]
            exact pushDown_aligned _ _
          have hafter := h.wrote hwrote
          rw [if_pos rfl]
          apply (ih hafter (by omega) ?_).mono
          · intro result m' hm'
            refine ⟨hwrote.trans hm'.1, ?_⟩
            intro sp' ustack' hsome
            obtain ⟨addrs, hustack, hpushed⟩ := hm'.2 sp' ustack' hsome
            refine ⟨a :: addrs, by rw [hustack, List.append_assoc, List.singleton_append], ?_⟩
            have hlen : (arg ++ [0]).length = arg.length + 1 := List.length_append
            -- the strings pushed later lie below this one
            have hstring : ArgAt (mapByte m' g) base a arg := by
              apply (hsplice.argAt haligned (Nat.le_of_not_lt hbase)).congr
              intro w hw hwend
              have hwn := hsplice.below (w - a) (by rw [hlen]; rw [argSize] at hwend; omega)
              rw [Nat.add_sub_of_le hw] at hwn
              exact hpushed.others w hw hwn
            constructor
            case pushed => exact Pushed.cons hfits hstring hpushed.pushed
            case others =>
                intro w hw hwn
                rw [hpushed.others w (by omega) hwn, hsplice.others w hwn (by omega)]
          · apply Total.pure
            refine ⟨Wrote.refl _ _, ?_⟩
            intro sp' ustack' hsome
            cases hsome

/-! ## The whole stack -/

structure Handed (m : Mem) (g : Nat → Nat) (argv : List (List Nat)) (image : NewImage) :
    Prop where
  whole : image.sz % pgSize = 0
  room : (userStack + 1) * pgSize ≤ image.sz
  guard : Present (g (image.sz / pgSize - 2)) ∧ g (image.sz / pgSize - 2) &&& pteU = 0
  stack : ∀ v, image.sz / pgSize - 2 < v → v < image.sz / pgSize → g v &&& pteU ≠ 0
  argc : image.argc = argv.length
  aligned : image.sp % 16 = 0
  above : image.sz - userStack * pgSize ≤ image.sp
  args : ∃ addrs low,
    Pushed (ArgAt (mapByte m g) (image.sz - userStack * pgSize)) argSize image.sz argv
      addrs low ∧ image.sp + (argv.length + 1) * 8 ≤ low ∧
    ∀ i (hi : i < (addrs ++ [0]).length),
      getLE (mapByte m g) (image.sp + i * 8) 8 = (addrs ++ [0])[i]

omit [Image] in
theorem Spliced.words {ws : List Nat} {va i : Nat}
    (h : Spliced m m' g n va (ws.flatMap wordBytes)) (hi : i < ws.length)
    (hword : ws[i] < 256 ^ 8) : getLE (mapByte m' g) (va + i * 8) 8 = ws[i] := by
  apply getLE_of_bytes ?_ hword
  intro j hj
  have hin : i * 8 + j < (ws.flatMap wordBytes).length := by
    rw [length_flatMap_wordBytes]
    omega
  rw [Nat.add_assoc, h.bytes _ hin, getElem_flatMap_wordBytes hi hj hin, Nat.mod_mod]

omit [Image] in
theorem handed_of_array {argv : List (List Nat)} {ustack : List Nat}
    {pages sp sp' entry : Nat} (hguard : Present (g pages))
    (hstack : g (pages + 1) &&& pteU ≠ 0)
    (hargs : ArgsPushed m m' (closedOff g pages) (pages + 2)
      ((pages + 2) * pgSize - userStack * pgSize) ((pages + 2) * pgSize) argv ustack sp)
    {m'' : Mem} (hcopied : Spliced m' m'' (closedOff g pages) (pages + 2) sp'
      ((ustack ++ [0]).flatMap wordBytes))
    (harray : pushDown sp ((ustack.length + 1) * 8) = sp')
    (habove : (pages + 2) * pgSize - userStack * pgSize ≤ sp') (hsmall : pages + 2 ≤ 32768) :
    Handed m'' (closedOff g pages) argv
      ⟨r, (pages + 2) * pgSize, sp', ustack.length, entry⟩ := by
  have hlen : ((ustack ++ [0]).flatMap wordBytes).length = (ustack.length + 1) * 8 := by
    rw [length_flatMap_wordBytes, List.length_append]
    rfl
  have hcount := hargs.pushed.length_eq
  have hpages : (pages + 2) * pgSize / pgSize = pages + 2 := va_page _
  have htop := hargs.pushed.le
  have hend := hcopied.below ((ustack.length + 1) * 8 - 1) (by omega)
  have hfits : sp' + (ustack.length + 1) * 8 ≤ sp := by
    rw [← harray]
    apply pushDown_fits
    · simp only [pgSize] at htop
      omega
    · rw [harray]
      simp only [pgSize] at hend
      omega
  constructor
  case whole => exact Nat.mul_mod_left _ _
  case room => exact Nat.mul_le_mul_right pgSize (by simp only [userStack]; omega)
  case guard =>
      dsimp only
      rw [hpages]
      exact ⟨closedOff_present hguard, closedOff_user⟩
  case stack =>
      dsimp only
      rw [hpages]
      intro v hlow hhigh
      have hv : v = pages + 1 := by omega
      rw [hv, closedOff_ne (by omega)]
      exact hstack
  case argc => exact hcount
  case aligned =>
      rw [← harray]
      exact pushDown_aligned _ _
  case above => exact habove
  case args =>
      refine ⟨ustack, sp, ?_, ?_, ?_⟩
      · -- the array lies below every string
        apply hargs.pushed.mono
        intro a s hlow hhigh hstring
        apply hstring.congr
        intro w hw hwend
        apply hcopied.others w
        · rw [argSize] at hwend
          rw [argSize] at hhigh
          apply Nat.div_lt_of_lt_mul
          rw [Nat.mul_comm]
          omega
        · omega
      · rw [← hcount]
        exact hfits
      · intro i hi
        apply hcopied.words hi
        have hin : i < ustack.length ∨ i = ustack.length := by
          rw [List.length_append, List.length_singleton] at hi
          omega
        cases hin with
        | inl hlt =>
            have hbelow := (hargs.pushed.within (by omega) hlt).2
            rw [List.getElem_append_left hlt]
            simp only [pgSize] at hbelow
            omega
        | inr heq =>
            subst heq
            rw [List.getElem_concat_length rfl]
            decide

theorem execStack_spec {sz entry : Nat} {argv : List (List Nat)}
    (h : UserSpace X m r g (pageCount sz) tf U) :
    Total (execStack r sz entry argv) m fun result m' => Within X m m' ∧
      match result with
      | .error sz' => ∃ g', UserSpace X m' r g' (pageCount sz') tf U
      | .ok image => image.pagetable = r ∧
          ∃ g', UserSpace X m' r g' (pageCount image.sz) tf U ∧ Handed m' g' argv image := by
  have hn := h.pages_le
  obtain ⟨pages, hpages⟩ : ∃ pages, pages = pageCount sz := ⟨_, rfl⟩
  have hnew : (pages * pgSize + (userStack + 1) * pgSize) % 2 ^ 64 = (pages + 2) * pgSize := by
    simp only [userStack, pgSize]
    omega
  have hround := h
  rw [← pageCount_mul (pageCount sz), ← hpages] at hround
  simp only [execStack]
  rw [pgRoundUp_eq (by omega), ← hpages, hnew]
  apply Total.bind (uvmalloc_spec hround (by decide))
  intro sz1 m₁ hm₁
  obtain ⟨hwithin₁, hresult⟩ := hm₁
  cases hresult with
  | inl hfail =>
      rw [if_pos hfail.1]
      exact Total.pure ⟨hwithin₁, g, hfail.2⟩
  | inr hgrown =>
      obtain ⟨hsz1, g₁, h₁, hext⟩ := hgrown
      have hsz : sz1 = (pages + 2) * pgSize := by
        rw [hsz1]
        exact Nat.max_eq_right (Nat.mul_le_mul_right pgSize (by omega))
      subst hsz
      rw [pageCount_mul] at h₁
      rw [pageCount_mul, pageCount_mul] at hext
      have hsmall := h₁.pages_le
      have hguard : sub64 ((pages + 2) * pgSize) ((userStack + 1) * pgSize) =
          pages * pgSize := by
        simp only [sub64, userStack, pgSize]
        omega
      have hbase : sub64 ((pages + 2) * pgSize) (userStack * pgSize) =
          (pages + 2) * pgSize - userStack * pgSize := by
        simp only [sub64, userStack, pgSize]
        omega
      have hne : (pages + 2) * pgSize ≠ 0 := by
        simp only [pgSize]
        omega
      rw [if_neg hne, hguard, hbase]
      apply Total.bind (uvmclear_spec h₁ (by omega))
      intro _ m₂ hm₂
      obtain ⟨hwithin₂, h₂⟩ := hm₂
      apply Total.bind (pushArgs_spec h₂ (Nat.le_refl _))
      intro pushed m₃ hm₃
      obtain ⟨hwrote₃, hpushed⟩ := hm₃
      have h₃ := h₂.wrote hwrote₃
      have hwithin₃ := (hwithin₁.trans hwithin₂).trans (hwrote₃.within.mono h₂.user_le)
      have herror : ∀ {m' : Mem}, UserSpace X m' r (closedOff g₁ pages) (pages + 2) tf U →
          ∃ g', UserSpace X m' r g' (pageCount ((pages + 2) * pgSize)) tf U := by
        intro m' hspace
        rw [pageCount_mul]
        exact ⟨_, hspace⟩
      cases pushed with
      | none => exact Total.pure ⟨hwithin₃, herror h₃⟩
      | some stack =>
          obtain ⟨sp, ustack⟩ := stack
          obtain ⟨addrs, hustack, hargs⟩ := hpushed sp ustack rfl
          rw [List.nil_append] at hustack
          subst hustack
          dsimp only
          split
          case isTrue => exact Total.pure ⟨hwithin₃, herror h₃⟩
          rename_i habove
          generalize harray : pushDown sp ((ustack.length + 1) * 8) = sp' at *
          apply Total.bind (copyout_content h₃)
          intro copied m₄ hm₄
          obtain ⟨hwrote₄, hcopied⟩ := hm₄
          have h₄ := h₃.wrote hwrote₄
          have hwithin₄ := hwithin₃.trans (hwrote₄.within.mono h₃.user_le)
          cases copied with
          | false => exact Total.pure ⟨hwithin₄, herror h₄⟩
          | true =>
              apply Total.pure
              refine ⟨hwithin₄, rfl, closedOff g₁ pages, ?_, ?_⟩
              · change UserSpace X m₄ r _ (pageCount ((pages + 2) * pgSize)) tf U
                rw [pageCount_mul]
                exact h₄
              · exact handed_of_array (h₁.map.user pages (by omega))
                  (hext.user _ (by omega) (by omega)) hargs (hcopied rfl) harray
                  (Nat.le_of_not_lt habove) hsmall

end SyscallSched.Xv6
