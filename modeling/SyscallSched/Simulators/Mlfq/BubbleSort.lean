import SyscallSched.Foundation.Loop
import SyscallSched.Simulators.Process

/-!
# Sorting by arrival

`bubble_sort` of `sched_algo_mlfq_existing.c` works on the linked nodes themselves, so
here a list is what it is in memory: a table of nodes and a pointer, where `NULL` is
`none`.  The two loops are one loop over the states between two tests of the inner one.

The exchange of two nodes copies whole records, links included.  After its second
assignment `ptr1->link` is the node behind both, which is then overwritten: there is
either no such node, or it becomes a node that is linked to itself.  Only a list that
is sorted already, where nothing is exchanged, survives.
-/

namespace SyscallSched.Simulators.Mlfq

open SyscallSched.Foundation

structure Node where
  record : Process
  link : Option Nat

def exchange (nodes : Nat → Node) (ptr1 : Nat) : Option (Nat → Node) := do
  let temp := nodes ptr1
  let next ← temp.link
  let nodes := Function.update nodes ptr1 (nodes next)
  let next ← (nodes ptr1).link
  let nodes := Function.update nodes next temp
  let next ← (nodes ptr1).link
  let tempLink := (nodes next).link
  let nodes := Function.update nodes next { nodes next with link := (nodes ptr1).link }
  pure (Function.update nodes ptr1 { nodes ptr1 with link := tempLink })

inductive Progress where
  | running
  | returned
  | faulted
  deriving DecidableEq

structure BubbleState where
  nodes : Nat → Node
  ptr1 : Option Nat
  lptr : Option Nat
  swapped : Bool
  progress : Progress

/-- The test at the end of a pass, and the start of the next one. -/
def endPass (head : Option Nat) (s : BubbleState) : BubbleState :=
  if s.swapped then { s with lptr := s.ptr1, ptr1 := head, swapped := false }
  else { s with lptr := s.ptr1, progress := .returned }

def compare (s : BubbleState) (p : Nat) (next : Option Nat) : BubbleState :=
  match next with
  | none => { s with progress := .faulted }
  | some q =>
      if (s.nodes p).record.at > (s.nodes q).record.at then
        match exchange s.nodes p with
        | none => { s with progress := .faulted }
        | some nodes => { s with nodes := nodes, ptr1 := (nodes p).link, swapped := true }
      else { s with ptr1 := next }

def bubbleStep (head : Option Nat) (s : BubbleState) : BubbleState :=
  match s.ptr1 with
  | none => { s with progress := .faulted }
  | some p =>
      if (s.nodes p).link = s.lptr then endPass head s
      else compare s p (s.nodes p).link

def bubbleLoop (head : Option Nat) : Loop BubbleState where
  guard s := s.progress == .running
  body := bubbleStep head

def bubbleStart (nodes : Nat → Node) (head : Option Nat) : BubbleState :=
  { nodes, ptr1 := head, lptr := none, swapped := false, progress := .running }

/-- `bubble_sort(head)` returns, and leaves the memory `final`.  Its result is `head`. -/
def BubbleSorts (nodes : Nat → Node) (head : Option Nat) (final : Nat → Node) : Prop :=
  ∃ s, (bubbleLoop head).Exits (bubbleStart nodes head) s ∧ s.progress = .returned ∧
    s.nodes = final

/-- The nodes of a list, in link order.  The last link is `NULL`. -/
def Linked (nodes : Nat → Node) : Option Nat → List Nat → Prop
  | head, [] => head = none
  | head, p :: rest => head = some p ∧ Linked nodes (nodes p).link rest

def records (nodes : Nat → Node) (pointers : List Nat) : List Process :=
  pointers.map fun p => (nodes p).record

def SortedByArrival (ps : List Process) : Prop :=
  ps.Pairwise fun p q => p.at ≤ q.at

/-! ## Lists in memory -/

variable {nodes : Nat → Node} {head : Option Nat}

theorem Linked.append (before : List Nat) {after : List Nat} {p : Nat}
    (h : Linked nodes head (before ++ p :: after)) : Linked nodes (some p) (p :: after) := by
  induction before generalizing head with
  | nil =>
      obtain ⟨hhead, hrest⟩ := h
      exact ⟨rfl, hrest⟩
  | cons b before ih => exact ih h.2

theorem Linked.unique {pointers pointers' : List Nat} (h : Linked nodes head pointers)
    (h' : Linked nodes head pointers') : pointers = pointers' := by
  induction pointers generalizing head pointers' with
  | nil =>
      cases pointers' with
      | nil => rfl
      | cons p rest => cases h.symm.trans h'.1
  | cons p rest ih =>
      cases pointers' with
      | nil => cases h'.symm.trans h.1
      | cons p' rest' =>
          have hp : p = p' := Option.some.inj (h.1.symm.trans h'.1)
          rw [hp] at h
          rw [hp, ih h.2 h'.2]

theorem Linked.nodup {pointers : List Nat} (h : Linked nodes head pointers) :
    pointers.Nodup := by
  induction pointers generalizing head with
  | nil => exact List.nodup_nil
  | cons p rest ih =>
      rw [List.nodup_cons]
      constructor
      · intro hp
        obtain ⟨before, after, hrest⟩ := List.append_of_mem hp
        have hagain : Linked nodes (some p) (p :: after) := by
          rw [hrest] at h
          exact Linked.append (p :: before) h
        have hwhole : Linked nodes (some p) (p :: rest) := ⟨rfl, h.2⟩
        have heq := hwhole.unique hagain
        rw [hrest] at heq
        have hlength := congrArg List.length heq
        simp at hlength
        omega
      · exact ih h.2

/-! ## The first pass up to the first descent -/

/-- The state of the first pass at the node `p`, before anything was exchanged. -/
def atNode (nodes : Nat → Node) (p : Nat) : BubbleState :=
  bubbleStart nodes (some p)

theorem bubbleStep_ascending {p q : Nat} (hlink : (nodes p).link = some q)
    (hle : (nodes p).record.at ≤ (nodes q).record.at) :
    bubbleStep head (atNode nodes p) = atNode nodes q := by
  simp [bubbleStep, atNode, bubbleStart, compare, hlink, hle]

theorem bubbleStep_last {p : Nat} (hlink : (nodes p).link = none) :
    bubbleStep head (atNode nodes p) =
      { atNode nodes p with lptr := some p, progress := .returned } := by
  simp [bubbleStep, endPass, atNode, bubbleStart, hlink]

theorem reaches_node {before after : List Nat} {p : Nat}
    (hlinked : Linked nodes head (before ++ p :: after))
    (hsorted : SortedByArrival (records nodes (before ++ [p]))) (top : Option Nat) :
    ∃ n, (bubbleLoop top).state (bubbleStart nodes head) n = atNode nodes p := by
  induction before generalizing head with
  | nil =>
      obtain ⟨rfl, _⟩ := hlinked
      exact ⟨0, rfl⟩
  | cons b before ih =>
      obtain ⟨rfl, hrest⟩ := hlinked
      obtain ⟨hfirst, htail⟩ := List.pairwise_cons.mp hsorted
      obtain ⟨n, hn⟩ := ih hrest htail
      obtain ⟨q, hq, hmem⟩ : ∃ q, (nodes b).link = some q ∧ q ∈ before ++ [p] := by
        cases before with
        | nil => exact ⟨p, hrest.1, by simp⟩
        | cons q before => exact ⟨q, hrest.1, by simp⟩
      have hle : (nodes b).record.at ≤ (nodes q).record.at :=
        hfirst _ (List.mem_map_of_mem hmem)
      refine ⟨1 + n, ?_⟩
      rw [Loop.state_add]
      change (bubbleLoop top).state (bubbleStep top (atNode nodes b)) n = _
      rw [bubbleStep_ascending hq hle, ← hn, hq]
      rfl

theorem sorted_cons {p q : Nat} {rest : List Nat}
    (hle : (nodes p).record.at ≤ (nodes q).record.at)
    (hsorted : SortedByArrival (records nodes (q :: rest))) :
    SortedByArrival (records nodes (p :: q :: rest)) := by
  refine List.pairwise_cons.mpr ⟨?_, hsorted⟩
  intro r hr
  cases List.mem_cons.mp hr with
  | inl heq => exact heq ▸ hle
  | inr hmem => exact hle.trans ((List.pairwise_cons.mp hsorted).1 r hmem)

theorem exists_descent {pointers : List Nat}
    (h : ¬ SortedByArrival (records nodes pointers)) :
    ∃ before p q after, pointers = before ++ p :: q :: after ∧
      SortedByArrival (records nodes (before ++ [p])) ∧
      (nodes q).record.at < (nodes p).record.at := by
  induction pointers with
  | nil => exact absurd List.Pairwise.nil h
  | cons p rest ih =>
      cases rest with
      | nil => exact absurd (List.pairwise_singleton _ _) h
      | cons q rest =>
          cases Int.lt_or_le (nodes q).record.at (nodes p).record.at with
          | inl hlt => exact ⟨[], p, q, rest, rfl, List.pairwise_singleton _ _, hlt⟩
          | inr hle =>
              obtain ⟨before, p', q', after, heq, hsorted, hlt⟩ :=
                ih fun hrest => h (sorted_cons hle hrest)
              refine ⟨p :: before, p', q', after, by rw [heq]; rfl, ?_, hlt⟩
              cases before with
              | nil =>
                  obtain ⟨rfl, _⟩ := List.cons.inj heq
                  exact sorted_cons hle hsorted
              | cons b before =>
                  obtain ⟨rfl, _⟩ := List.cons.inj heq
                  exact sorted_cons hle hsorted

/-! ## The exchange -/

theorem exchange_last {p q : Nat} (hlink : (nodes p).link = some q)
    (hnext : (nodes q).link = none) : exchange nodes p = none := by
  simp [exchange, hlink, hnext]

/-- The node behind both becomes its own successor; the second node is left as it is. -/
theorem exchange_inner {p q r : Nat} (hlink : (nodes p).link = some q)
    (hnext : (nodes q).link = some r) (hnodup : [p, q, r].Nodup) :
    ∃ nodes', exchange nodes p = some nodes' ∧ (nodes' p).link = some q ∧
      nodes' q = nodes q ∧ nodes' r = { record := (nodes p).record, link := some r } := by
  obtain ⟨hpq, hpr, hqr⟩ : p ≠ q ∧ p ≠ r ∧ q ≠ r := by
    simpa [and_assoc] using hnodup
  simp [exchange, hlink, hnext, hpr, hpr.symm, hpq.symm, hqr]

theorem bubbleStep_fault {p q : Nat} (hlink : (nodes p).link = some q)
    (hnext : (nodes q).link = none)
    (hlt : (nodes q).record.at < (nodes p).record.at) :
    bubbleStep head (atNode nodes p) = { atNode nodes p with progress := .faulted } := by
  simp [bubbleStep, atNode, bubbleStart, compare, hlink, hlt, exchange_last hlink hnext]

def Stuck (q r : Nat) (s : BubbleState) : Prop :=
  s.progress = .running ∧ s.lptr = none ∧ (s.nodes r).link = some r ∧
    (s.ptr1 = some r ∨ s.ptr1 = some q ∧ (s.nodes q).link = some r ∧
      (s.nodes q).record.at ≤ (s.nodes r).record.at)

theorem Stuck.step {q r : Nat} {s : BubbleState} (h : Stuck q r s) :
    Stuck q r (bubbleStep head s) := by
  obtain ⟨hrunning, hlptr, hself, hptr | ⟨hptr, hlink, hle⟩⟩ := h
  · have hstep : bubbleStep head s = s := by
      cases s with
      | mk nodes ptr1 lptr swapped progress =>
          subst hptr hlptr
          have hlink : (nodes r).link = some r := hself
          simp [bubbleStep, compare, hlink]
    rw [hstep]
    exact ⟨hrunning, hlptr, hself, .inl hptr⟩
  · have hstep : bubbleStep head s = { s with ptr1 := some r } := by
      simp [bubbleStep, compare, hptr, hlptr, hlink, hle]
    rw [hstep]
    exact ⟨hrunning, hlptr, hself, .inl rfl⟩

theorem Stuck.diverges {q r : Nat} {s : BubbleState} (h : Stuck q r s) :
    ¬ (bubbleLoop head).Terminates s := by
  apply Loop.not_terminates_of_invariant _ h
  · intro t ht _
    exact ht.step
  · intro t ht
    simp [bubbleLoop, ht.1]

theorem stuck_exchange (head : Option Nat) {p q r : Nat} (hlink : (nodes p).link = some q)
    (hnext : (nodes q).link = some r) (hnodup : [p, q, r].Nodup)
    (hlt : (nodes q).record.at < (nodes p).record.at) :
    Stuck q r (bubbleStep head (atNode nodes p)) := by
  obtain ⟨nodes', hexchange, hp, hq, hr⟩ := exchange_inner hlink hnext hnodup
  have hstep : bubbleStep head (atNode nodes p) =
      { atNode nodes p with nodes := nodes', ptr1 := some q, swapped := true } := by
    simp [bubbleStep, atNode, bubbleStart, compare, hlink, hlt, hexchange, hp]
  have hself : (nodes' r).link = some r := by rw [hr]
  have hback : (nodes' q).link = some r := by rw [hq, hnext]
  have hle : (nodes' q).record.at ≤ (nodes' r).record.at := by
    rw [hq, hr]
    exact hlt.le
  rw [hstep]
  exact ⟨rfl, rfl, hself, .inr ⟨rfl, hback, hle⟩⟩

/-! ## Runs -/

theorem bubbleSorts_of_sorted {pointers : List Nat} (hlinked : Linked nodes head pointers)
    (hne : pointers ≠ []) (hsorted : SortedByArrival (records nodes pointers)) :
    BubbleSorts nodes head nodes := by
  obtain ⟨before, p, rfl⟩ := List.eq_nil_or_concat' pointers |>.resolve_left hne
  obtain ⟨n, hn⟩ := reaches_node hlinked hsorted head
  have hlink : (nodes p).link = none := (hlinked.append before).2
  refine ⟨{ atNode nodes p with lptr := some p, progress := .returned }, ⟨n + 1, ?_, rfl⟩,
    rfl, rfl⟩
  rw [Loop.state_succ, hn]
  exact bubbleStep_last hlink

/-- A list with a descent is never returned: at the first one the program writes through
`NULL`, or it loops. -/
theorem sorted_of_bubbleSorts {pointers : List Nat} (hlinked : Linked nodes head pointers)
    {final : Nat → Node} (h : BubbleSorts nodes head final) :
    SortedByArrival (records nodes pointers) := by
  by_contra hunsorted
  obtain ⟨before, p, q, after, rfl, hsorted, hlt⟩ := exists_descent hunsorted
  obtain ⟨n, hn⟩ := reaches_node hlinked hsorted head
  obtain ⟨s, hexits, hreturned, _⟩ := h
  have hrest := hlinked.append before
  have hlink : (nodes p).link = some q := hrest.2.1
  cases after with
  | nil =>
      have hfault : (bubbleLoop head).Exits (bubbleStart nodes head)
          { atNode nodes p with progress := .faulted } := by
        refine ⟨n + 1, ?_, rfl⟩
        rw [Loop.state_succ, hn]
        exact bubbleStep_fault hlink hrest.2.2 hlt
      have heq := Loop.exits_unique _ hexits hfault
      rw [heq] at hreturned
      cases hreturned
  | cons r after =>
      have hnodup : [p, q, r].Nodup :=
        hrest.nodup.sublist (by simp)
      have hstuck := stuck_exchange head hlink hrest.2.2.1 hnodup hlt
      apply hstuck.diverges
      refine ⟨s, ?_⟩
      have hlater := Loop.exits_state _ hexits (n + 1)
      rw [Loop.state_succ, hn] at hlater
      exact hlater

/-- `bubble_sort` returns a sorted list of the given records exactly when it is given one. -/
theorem bubbleSort_sorts_iff (nodes : Nat → Node) (head : Option Nat) (pointers : List Nat)
    (hlinked : Linked nodes head pointers) (hne : pointers ≠ []) :
    (∃ final pointers', BubbleSorts nodes head final ∧ Linked final head pointers' ∧
      pointers'.length = pointers.length ∧
      (records final pointers').Perm (records nodes pointers) ∧
      SortedByArrival (records final pointers')) ↔
    SortedByArrival (records nodes pointers) := by
  constructor
  · rintro ⟨final, pointers', hsorts, _⟩
    exact sorted_of_bubbleSorts hlinked hsorts
  · intro hsorted
    exact ⟨nodes, pointers, bubbleSorts_of_sorted hlinked hne hsorted, hlinked, rfl, .refl _,
      hsorted⟩

def twoNodes (first second : Int) : Nat → Node
  | 0 => ⟨⟨1, first, 5, 0, -1, -1, -1, -1, 5⟩, some 1⟩
  | _ => ⟨⟨2, second, 3, 0, -1, -1, -1, -1, 3⟩, none⟩

/-- The later process is listed first. -/
theorem bubbleSort_two_fails : ¬ ∀ nodes head pointers, Linked nodes head pointers →
    pointers ≠ [] → ∃ final pointers', BubbleSorts nodes head final ∧
      Linked final head pointers' ∧ pointers'.length = pointers.length ∧
      (records final pointers').Perm (records nodes pointers) ∧
      SortedByArrival (records final pointers') := by
  intro h
  have hlinked : Linked (twoNodes 4 0) (some 0) [0, 1] := ⟨rfl, rfl, rfl⟩
  obtain ⟨final, pointers', hsorts, _⟩ := h (twoNodes 4 0) (some 0) [0, 1] hlinked (by simp)
  have hsorted := sorted_of_bubbleSorts hlinked hsorts
  simp [SortedByArrival, records, twoNodes] at hsorted

theorem bubbleSort_two_sorts :
    (∃ final pointers', BubbleSorts (twoNodes 0 4) (some 0) final ∧
      Linked final (some 0) pointers' ∧ pointers'.length = [0, 1].length ∧
      (records final pointers').Perm (records (twoNodes 0 4) [0, 1]) ∧
      SortedByArrival (records final pointers')) ↔
    SortedByArrival (records (twoNodes 0 4) [0, 1]) :=
  bubbleSort_sorts_iff (twoNodes 0 4) (some 0) [0, 1] ⟨rfl, rfl, rfl⟩ (by simp)

end SyscallSched.Simulators.Mlfq
