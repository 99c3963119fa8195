import SyscallSched.Shell.Commands

/-!
# `nulterminate` on the arrays of an `execcmd`

`parseexec` stores the words one after the other in `argv` and `eargv`, and a null
pointer behind them; `nulterminate` goes through `argv` up to the null pointer.  Both
stay inside the arrays, since `parseexec` gives up before the last element is a word.
-/

namespace SyscallSched.Shell

/-! ## Arrays -/

/-- `none` is the null pointer. -/
structure Execcmd where
  argv : Fin maxargs → Option Nat
  eargv : Fin maxargs → Option Nat

def execcmd : Execcmd := ⟨fun _ => none, fun _ => none⟩

/-- `cmd->argv[argc] = q; cmd->eargv[argc] = eq;`, which fails behind the arrays. -/
def Execcmd.store (e : Execcmd) (argc : Nat) (q eq : Option Nat) : Option Execcmd :=
  if h : argc < maxargs then
    some ⟨Function.update e.argv ⟨argc, h⟩ q, Function.update e.eargv ⟨argc, h⟩ eq⟩
  else
    none

/-- The stores of `parseexec`, for the words from `argc` on. -/
def Execcmd.storeArgs (e : Execcmd) : Nat → List Span → Option Execcmd
  | argc, [] => e.store argc none none
  | argc, arg :: args =>
      (e.store argc (some arg.q) (some arg.eq)).bind fun e => e.storeArgs (argc + 1) args

/-- The `for` loop of `nulterminate`; it fails where it reads `argv` behind its end or
writes to a null pointer. -/
def Execcmd.nulLoop (e : Execcmd) (i : Nat) (buf : List Char) : Option (List Char) :=
  if h : i < maxargs then
    match e.argv ⟨i, h⟩ with
    | none => some buf
    | some _ =>
        match e.eargv ⟨i, h⟩ with
        | none => none
        | some eq => e.nulLoop (i + 1) (buf.set eq '\x00')
  else
    none
termination_by maxargs - i

def nulterminateArrays : Cmd Span → List Char → Option (List Char)
  | .exec argv, buf => (execcmd.storeArgs 0 argv).bind fun e => e.nulLoop 0 buf
  | .redir cmd file _ _, buf => (nulterminateArrays cmd buf).map fun buf => buf.set file.eq '\x00'
  | .pipe left right, buf => (nulterminateArrays left buf).bind (nulterminateArrays right)
  | .list left right, buf => (nulterminateArrays left buf).bind (nulterminateArrays right)
  | .back cmd, buf => nulterminateArrays cmd buf

def Cmd.argvs {α : Type} : Cmd α → List (List α)
  | .exec argv => [argv]
  | .redir cmd _ _ _ => cmd.argvs
  | .pipe left right => left.argvs ++ right.argvs
  | .list left right => left.argvs ++ right.argvs
  | .back cmd => cmd.argvs

section

variable {e e' : Execcmd} {argc : Nat} {args argv : List Span} {cmd : Cmd Span}
  {tree : Cmd (List Char)}

/-- The elements in front of `argc` stay, and those from there on are `args` and a null
pointer. -/
structure Stored (e e' : Execcmd) (argc : Nat) (args : List Span) : Prop where
  before : ∀ i : Fin maxargs, i.val < argc → e'.argv i = e.argv i ∧ e'.eargv i = e.eargv i
  args : ∀ i : Fin maxargs, argc ≤ i.val → i.val ≤ argc + args.length →
    e'.argv i = args[i.val - argc]?.map Span.q ∧ e'.eargv i = args[i.val - argc]?.map Span.eq

theorem storeArgs_spec (e : Execcmd) (h : argc + args.length < maxargs) :
    ∃ e', e.storeArgs argc args = some e' ∧ Stored e e' argc args := by
  induction args generalizing e argc with
  | nil =>
      have hargc : argc < maxargs := h
      refine ⟨_, by rw [Execcmd.storeArgs, Execcmd.store, dif_pos hargc], ?_⟩
      constructor
      case before =>
        intro i hi
        have hne : i ≠ ⟨argc, hargc⟩ := fun heq => by
          rw [heq] at hi
          exact Nat.lt_irrefl _ hi
        exact ⟨Function.update_of_ne hne _ _, Function.update_of_ne hne _ _⟩
      case args =>
        intro i hi hi'
        have heq : i = ⟨argc, hargc⟩ := Fin.ext (Nat.le_antisymm hi' hi)
        subst heq
        simp
  | cons arg args ih =>
      rw [List.length_cons] at h
      have hargc : argc < maxargs := by omega
      obtain ⟨e', hrun, hstored⟩ := ih
        ⟨Function.update e.argv ⟨argc, hargc⟩ (some arg.q),
          Function.update e.eargv ⟨argc, hargc⟩ (some arg.eq)⟩
        (by omega : argc + 1 + args.length < maxargs)
      refine ⟨e', ?_, ?_⟩
      · rw [Execcmd.storeArgs, Execcmd.store, dif_pos hargc]
        exact hrun
      · constructor
        case before =>
          intro i hi
          have hne : i ≠ ⟨argc, hargc⟩ := fun heq => by
            rw [heq] at hi
            exact Nat.lt_irrefl _ hi
          obtain ⟨hq, heq⟩ := hstored.before i (by omega)
          exact ⟨hq.trans (Function.update_of_ne hne _ _),
            heq.trans (Function.update_of_ne hne _ _)⟩
        case args =>
          intro i hi hi'
          by_cases hfirst : i.val = argc
          · have heq : i = ⟨argc, hargc⟩ := Fin.ext hfirst
            obtain ⟨hq, hend⟩ := hstored.before i (by omega)
            subst heq
            rw [hq, hend]
            simp
          · obtain ⟨k, hk⟩ := Nat.exists_eq_add_of_lt (Nat.lt_of_le_of_ne hi (Ne.symm hfirst))
            have hrest := hstored.args i (by omega) (by rw [List.length_cons] at hi'; omega)
            have hsub : i.val - argc = i.val - (argc + 1) + 1 := by omega
            rw [hsub, List.getElem?_cons_succ]
            exact hrest

theorem nulLoop_spec {i : Nat} (buf : List Char) (h : i + args.length < maxargs)
    (hargs : ∀ j : Fin maxargs, i ≤ j.val → j.val ≤ i + args.length →
      e.argv j = args[j.val - i]?.map Span.q ∧ e.eargv j = args[j.val - i]?.map Span.eq) :
    e.nulLoop i buf = some (args.foldl (fun buf arg => buf.set arg.eq '\x00') buf) := by
  have hi : i < maxargs := by omega
  have hhere := hargs ⟨i, hi⟩ le_rfl (Nat.le_add_right _ _)
  rw [Nat.sub_self] at hhere
  induction args generalizing i buf with
  | nil =>
      have hnull : e.argv ⟨i, hi⟩ = none := hhere.1
      rw [Execcmd.nulLoop, dif_pos hi, hnull]
      rfl
  | cons arg args ih =>
      rw [List.length_cons] at h hargs
      have hq : e.argv ⟨i, hi⟩ = some arg.q := hhere.1
      have heq : e.eargv ⟨i, hi⟩ = some arg.eq := hhere.2
      have hrest : ∀ j : Fin maxargs, i + 1 ≤ j.val → j.val ≤ i + 1 + args.length →
          e.argv j = args[j.val - (i + 1)]?.map Span.q ∧
            e.eargv j = args[j.val - (i + 1)]?.map Span.eq := by
        intro j hj hj'
        have hsub : j.val - i = j.val - (i + 1) + 1 := by omega
        have hboth := hargs j (by omega) (by omega)
        rw [hsub, List.getElem?_cons_succ] at hboth
        exact hboth
      have hnext : i + 1 < maxargs := by omega
      have hthere := hrest ⟨i + 1, hnext⟩ le_rfl (Nat.le_add_right _ _)
      rw [Nat.sub_self] at hthere
      rw [Execcmd.nulLoop, dif_pos hi, hq]
      dsimp only
      rw [heq]
      dsimp only
      rw [ih (buf.set arg.eq '\x00') (by omega) hrest hnext hthere]
      rfl

/-- With fewer than `MAXARGS` words in each `execcmd`, the arrays hold them. -/
theorem nulterminateArrays_eq (h : ∀ argv ∈ cmd.argvs, argv.length < maxargs)
    (buf : List Char) : nulterminateArrays cmd buf = some (nulterminate cmd buf) := by
  induction cmd generalizing buf with
  | exec argv =>
      have hlength : 0 + argv.length < maxargs := by
        rw [Nat.zero_add]
        exact h argv List.mem_cons_self
      obtain ⟨e, hrun, hstored⟩ := storeArgs_spec execcmd hlength
      rw [nulterminateArrays, hrun]
      exact nulLoop_spec buf hlength hstored.args
  | redir cmd file mode fd ih => rw [nulterminateArrays, ih h, nulterminate]; rfl
  | pipe left right ih ih' =>
      rw [nulterminateArrays, ih fun argv hargv => h argv (List.mem_append_left _ hargv),
        nulterminate]
      exact ih' (fun argv hargv => h argv (List.mem_append_right _ hargv)) _
  | list left right ih ih' =>
      rw [nulterminateArrays, ih fun argv hargv => h argv (List.mem_append_left _ hargv),
        nulterminate]
      exact ih' (fun argv hargv => h argv (List.mem_append_right _ hargv)) _
  | back cmd ih => rw [nulterminateArrays, ih h, nulterminate]

/-! ## The commands of lines -/

theorem argvs_backs {α : Type} (n : Nat) (cmd : Cmd α) : (backs n cmd).argvs = cmd.argvs := by
  induction n generalizing cmd with
  | zero => rfl
  | succ n ih => exact ih _

theorem argvs_wrap (rs : List Redirection) (cmd : Cmd (List Char)) :
    (rs.foldl Cmd.wrap cmd).argvs = cmd.argvs := by
  induction rs generalizing cmd with
  | nil => rfl
  | cons r rs ih => exact ih _

/-- The grammar has fewer than `MAXARGS` words in a command. -/
theorem Derives.argvs_length {phrase : Phrase} {ts : List Token}
    (h : Derives phrase ts tree) : ∀ argv ∈ tree.argvs, argv.length < maxargs := by
  induction h with
  | line n _ ih =>
      rw [argvs_backs]
      exact ih
  | lines n _ _ ih ih' =>
      rw [Cmd.argvs, argvs_backs]
      exact fun argv hargv => (List.mem_append.mp hargv).elim (ih argv) (ih' argv)
  | pipe _ ih => exact ih
  | pipes _ _ ih ih' =>
      exact fun argv hargv => (List.mem_append.mp hargv).elim (ih argv) (ih' argv)
  | block rs _ ih =>
      rw [argvs_wrap]
      exact ih
  | words rs args hargs =>
      rw [argvs_wrap]
      intro argv hargv
      rw [List.mem_singleton.mp hargv, List.length_map]
      exact Nat.lt_of_le_pred (by decide) hargs

theorem argvs_map {α β : Type} (f : α → β) (cmd : Cmd α) :
    (cmd.map f).argvs = cmd.argvs.map (List.map f) := by
  induction cmd with
  | exec argv => rfl
  | redir cmd file mode fd ih => exact ih
  | pipe left right ih ih' => rw [Cmd.map, Cmd.argvs, Cmd.argvs, ih, ih', List.map_append]
  | list left right ih ih' => rw [Cmd.map, Cmd.argvs, Cmd.argvs, ih, ih', List.map_append]
  | back cmd ih => exact ih

def source (line : List Char) (span : Span) : List Char :=
  (line.drop span.q).take (span.eq - span.q)

theorem IsWord.source_eq {line w : List Char} {span : Span} (h : IsWord line span w) :
    source line span = w := by
  rw [source, h.drop, h.eq_add, Nat.add_sub_cancel_left, List.take_left]

end

/-- In the command of a line every string is the text of its token, and the tokens are
those of the line; the words of each `execcmd` and the null pointer after them lie in
its arrays. -/
theorem nulterminate_cuts {line buf : List Char} {fuel : Nat} {cmd : Cmd Span}
    (hnul : '\x00' ∉ line) (hfuel : 4 * line.length + 4 ≤ fuel)
    (hrun : parsecmd fuel line = .ok (cmd, buf)) :
    nulterminateArrays cmd (line ++ ['\x00']) = some buf ∧
      cmd.map (fun arg => cstring buf arg.q) = cmd.map (source line) ∧
      Derives .line (lex line) (cmd.map (source line)) ∧
      ∀ argv ∈ cmd.argvs, argv.length < maxargs := by
  obtain ⟨⟨cmd', s⟩, hall, hpair⟩ := Foundation.except_bind_ok hrun
  injection hpair with hpair
  injection hpair with hcmd hbuf
  subst hcmd hbuf
  obtain ⟨tree, hderives, hreads⟩ := (parseall_sound hnul hfuel).post cmd' s hall
  have hsource : cmd'.map (source line) = tree :=
    hreads.map_eq fun span w _ hword => hword.source_eq
  have hargs : ∀ argv ∈ cmd'.argvs, argv.length < maxargs := by
    intro argv hargv
    have hmem : argv.map (source line) ∈ tree.argvs := by
      rw [← hsource, argvs_map]
      exact List.mem_map_of_mem hargv
    have hlength := hderives.argvs_length _ hmem
    rw [List.length_map] at hlength
    exact hlength
  refine ⟨nulterminateArrays_eq hargs _, ?_, hsource ▸ hderives, hargs⟩
  rw [hsource]
  exact hreads.strings hnul

def lsOut : Cmd Span :=
  .redir (.exec [⟨0, 2⟩]) ⟨3, 6⟩ (Xv6.oWronly ||| Xv6.oCreate ||| Xv6.oTrunc) 1

theorem nulterminate_cuts_redir :
    nulterminateArrays lsOut "ls>out\x00".toList = some "ls\x00out\x00".toList ∧
      lsOut.map (fun arg => cstring "ls\x00out\x00".toList arg.q) =
        lsOut.map (source "ls>out".toList) ∧
      Derives .line (lex "ls>out".toList) (lsOut.map (source "ls>out".toList)) ∧
      ∀ argv ∈ lsOut.argvs, argv.length < maxargs :=
  @nulterminate_cuts "ls>out".toList _ 100 lsOut (by decide) (by decide) rfl

end SyscallSched.Shell
