import SyscallSched.Xv6.Virtio.Protocol

/-!
# Requests in every run

Each step takes the request of at most one process to its next stage; the descriptors and
the buffer of that process are its own, so nothing changes for the others.
-/

namespace SyscallSched.Xv6.Virtio

open SyscallSched.Foundation

variable {P B : Type} [DecidableEq P] [DecidableEq B]

structure Touches (s s' : State P B) (p : P) : Prop where
  others : ∀ q, q ≠ p → s'.proc q = s.proc q
  bufs : ∀ b, (s.proc p).buf ≠ some b →
    s'.bufDisk b = s.bufDisk b ∧ lastKind b s'.history = lastKind b s.history
  cells : ∀ i, i ∉ (s.proc p).chain → s'.disk.desc i = s.disk.desc i ∧
    s'.disk.info i = s.disk.info i ∧ s'.disk.ops i = s.disk.ops i
  avail : ∀ q, q ≠ p → (s.proc q).critical = true → s'.disk.avail = s.disk.avail

def State.cleared (s : State P B) (b : B) : State P B :=
  { s with
    bufDisk := Function.update s.bufDisk b false
    disk := { s.disk with usedIdx := s.disk.usedIdx + 1 } }.record .cleared b

/-- What the interrupt leaves of `b->disk` and of the last event of `b`. -/
structure Drained (s s' : State P B) : Prop where
  lock : s'.lock = none
  usedIdx : s'.disk.usedIdx = s.disk.used.idx
  completed : ∀ b, lastKind b s.history = .completed →
    s'.bufDisk b = false ∧ lastKind b s'.history = .cleared
  others : ∀ b, lastKind b s.history ≠ .completed →
    s'.bufDisk b = s.bufDisk b ∧ lastKind b s'.history = lastKind b s.history

namespace Inv

variable {s s' : State P B} {G : Ghost P} {p : P} {r : Request B} {idx : Idx}

omit [DecidableEq P] in
theorem critical_of_entered (h : Inv s G) (hg : G.stage p = .entered) :
    (s.proc p).critical = true := by
  have hof := (h.fits p).stage
  rw [hg] at hof
  cases hp : s.proc p <;> rw [hp] at hof <;> first | rfl | cases hof

omit [DecidableEq P] in
theorem submitted_of_stage (h : Inv s G) (hg : G.stage p ≠ .fresh) :
    ∃ r idx, (s.proc p).submitted = some (r, idx) := by
  have hof := (h.fits p).stage
  cases hp : s.proc p with
  | idle =>
      rw [hp] at hof
      exact absurd hof hg
  | allocating r =>
      rw [hp] at hof
      exact absurd hof hg
  | allocated r idx =>
      rw [hp] at hof
      exact absurd hof hg
  | formatted r idx => exact ⟨r, idx, rfl⟩
  | entered r idx => exact ⟨r, idx, rfl⟩
  | published r idx => exact ⟨r, idx, rfl⟩
  | waiting r idx => exact ⟨r, idx, rfl⟩

omit [DecidableEq P] in
theorem request_of_stage (h : Inv s G) {g : Stage} (hstage : G.stage p = g) (hg : g ≠ .fresh) :
    ∃ r idx, (s.proc p).submitted = some (r, idx) ∧ Submitted s r idx g ∧
      (s.bufDisk r.buf = g.disk ∧ lastKind r.buf s.history = g.kind) ∧
      (∀ i ∈ idx.toList, i < num) ∧ s.head p = idx.i0 := by
  subst hstage
  obtain ⟨r, idx, hsub⟩ := h.submitted_of_stage hg
  have hlt := h.chains.lt p
  rw [Proc.chain_of_submitted hsub] at hlt
  exact ⟨r, idx, hsub, (h.fits p).submitted r idx hsub,
    (h.fits p).buf r.buf (Proc.buf_of_submitted hsub), hlt, Proc.head_of_submitted hsub⟩

omit [DecidableEq P] in
theorem head_mem (h : Inv s G) (hg : G.stage p ≠ .fresh) : (s.proc p).head ∈ (s.proc p).chain := by
  obtain ⟨r, idx, hsub⟩ := h.submitted_of_stage hg
  rw [Proc.head_of_submitted hsub, Proc.chain_of_submitted hsub]
  simp [Idx.toList]

omit [DecidableEq P] in
theorem head_lt (h : Inv s G) (hg : G.stage p ≠ .fresh) : s.head p < num :=
  h.chains.lt p _ (h.head_mem hg)

omit [DecidableEq P] in
theorem room (h : Inv s G) {g : Stage} {l : List P} (hl : Queue G.stage g l) (hg : g ≠ .fresh)
    (hp : G.stage p ≠ .fresh) (hpg : G.stage p ≠ g) : l.length < num := by
  have hout : p ∉ l := fun hmem => hpg ((hl.mem p).mp hmem)
  have hnodup : (p :: l).Nodup := List.nodup_cons.mpr ⟨hout, hl.nodup⟩
  refine h.chains.length_le hnodup ?_
  intro q hq
  apply h.head_mem
  cases List.mem_cons.mp hq with
  | inl heq =>
      rw [heq]
      exact hp
  | inr hmem =>
      rw [(hl.mem q).mp hmem]
      exact hg

theorem fits_advance (h : Inv s G) (ht : Touches s s' p) {g' : Stage}
    (hself : Fits s' (s'.proc p) g') (q : P) :
    Fits s' (s'.proc q) (Function.update G.stage p g' q) := by
  cases eq_or_ne q p with
  | inl heq =>
      rw [heq, Function.update_self]
      exact hself
  | inr hne =>
      rw [Function.update_of_ne hne, ht.others q hne]
      have hfits := h.fits q
      constructor
      case stage => exact hfits.stage
      case buf =>
        intro b hb
        have hother : (s.proc p).buf ≠ some b := fun hp => hne (h.exclusive q p b hb hp)
        rw [(ht.bufs b hother).1, (ht.bufs b hother).2]
        exact hfits.buf b hb
      case submitted =>
        intro r idx hsub
        refine (hfits.submitted r idx hsub).frame ?_ ?_
        · intro i hi
          apply ht.cells
          intro hmem
          rw [← Proc.chain_of_submitted hsub] at hi
          exact hne (h.chains.disjoint q p i hi hmem)
        · intro hg
          exact ht.avail q hne (h.critical_of_entered hg)

omit [DecidableEq P] in
theorem chains_advance (h : Inv s G) (hothers : ∀ q, q ≠ p → s'.proc q = s.proc q)
    (hchain : (s'.proc p).chain = (s.proc p).chain) (hfree : s'.disk.free = s.disk.free) :
    Chains s'.proc s'.disk.free := by
  rw [hfree]
  apply h.chains.congr
  intro q
  cases eq_or_ne q p with
  | inl heq => rw [heq, hchain]
  | inr hne => rw [hothers q hne]

theorem advance (h : Inv s G) (p : P) (g' : Stage) {G' : Ghost P}
    (hG : G'.stage = Function.update G.stage p g')
    (ht : Touches s s' p) (hbuf : (s'.proc p).buf = (s.proc p).buf)
    (hchains : Chains s'.proc s'.disk.free)
    (hlock : ∀ q, (s'.proc q).critical = true → s'.lock = some (.process q))
    (hself : Fits s' (s'.proc p) g') (hrings : Rings s' G') (horderly : Orderly s'.history) :
    Inv s' G' := by
  have hbuf' : ∀ q, (s'.proc q).buf = (s.proc q).buf := by
    intro q
    cases eq_or_ne q p with
    | inl heq => rw [heq, hbuf]
    | inr hne => rw [ht.others q hne]
  constructor
  case chains => exact hchains
  case lock => exact hlock
  case exclusive =>
    intro q q' b
    rw [hbuf', hbuf']
    exact h.exclusive q q' b
  case unused =>
    intro b hb
    simp only [hbuf'] at hb
    rw [(ht.bufs b (hb p)).1, (ht.bufs b (hb p)).2]
    exact h.unused b hb
  case fits =>
    intro q
    rw [hG]
    exact h.fits_advance ht hself q
  case rings => exact hrings
  case orderly => exact horderly

omit [DecidableEq P] [DecidableEq B] in
theorem head_congr (hothers : ∀ q, q ≠ p → s'.proc q = s.proc q)
    (hchain : (s'.proc p).chain = (s.proc p).chain) : s'.head = s.head := by
  funext q
  unfold State.head Proc.head
  cases em (q = p) with
  | inl heq => rw [heq, hchain]
  | inr hne => rw [hothers q hne]

/-! ### Calls -/

theorem call (h : Inv s G) (hidle : s.proc p = .idle) (hr : ∀ q, (s.proc q).buf ≠ some r.buf) :
    ∃ G', Inv (s.goto p (.allocating r)) G' := by
  have hothers : ∀ q, q ≠ p → (s.goto p (.allocating r)).proc q = s.proc q :=
    fun q hne => Function.update_of_ne hne _ _
  have hself : (s.goto p (.allocating r)).proc p = .allocating r := Function.update_self _ _ _
  have hstage : G.stage p = .fresh := by
    have hof := (h.fits p).stage
    rwa [hidle] at hof
  have hchain : ((s.goto p (.allocating r)).proc p).chain = (s.proc p).chain := by
    rw [hself, hidle]
    rfl
  have htouches : Touches s (s.goto p (.allocating r)) p := by
    constructor
    case others => exact hothers
    case bufs => exact fun _ _ => ⟨rfl, rfl⟩
    case cells => exact fun _ _ => ⟨rfl, rfl, rfl⟩
    case avail => exact fun _ _ _ => rfl
  refine ⟨{ G with stage := Function.update G.stage p .fresh }, ?_⟩
  constructor
  case chains => exact h.chains_advance hothers hchain rfl
  case lock =>
    intro q hq
    cases eq_or_ne q p with
    | inl heq =>
        rw [heq, hself] at hq
        cases hq
    | inr hne =>
        rw [hothers q hne] at hq
        exact h.lock q hq
  case exclusive =>
    intro q q' b hb hb'
    cases eq_or_ne q p with
    | inl heq =>
        cases eq_or_ne q' p with
        | inl heq' => rw [heq, heq']
        | inr hne' =>
            rw [heq, hself] at hb
            rw [hothers q' hne'] at hb'
            cases hb
            exact absurd hb' (hr q')
    | inr hne =>
        rw [hothers q hne] at hb
        cases eq_or_ne q' p with
        | inl heq' =>
            rw [heq', hself] at hb'
            cases hb'
            exact absurd hb (hr q)
        | inr hne' =>
            rw [hothers q' hne'] at hb'
            exact h.exclusive q q' b hb hb'
  case unused =>
    intro b hb
    refine h.unused b ?_
    intro q hq
    cases eq_or_ne q p with
    | inl heq =>
        rw [heq, hidle] at hq
        cases hq
    | inr hne => exact hb q (by rwa [hothers q hne])
  case fits =>
    refine h.fits_advance htouches ?_
    rw [hself]
    constructor
    case stage => rfl
    case buf =>
      intro b hb
      cases hb
      exact h.unused r.buf hr
    case submitted =>
      intro r' idx hsub
      cases hsub
  case rings =>
    have hlisted : (G.stage p).listed = false := by rw [hstage]; rfl
    exact h.rings.pass hothers hlisted rfl rfl rfl rfl rfl rfl
  case orderly => exact h.orderly

theorem lock_goto (h : Inv s G) {new : Proc B} {l : Option (Holder P)}
    (hfree : s.lock = none ∨ s.lock = some (.process p))
    (hnew : new.critical = true → l = some (.process p)) (q : P)
    (hq : (Function.update s.proc p new q).critical = true) : l = some (.process q) := by
  cases eq_or_ne q p with
  | inl heq =>
      rw [heq, Function.update_self] at hq
      rw [heq]
      exact hnew hq
  | inr hne =>
      rw [Function.update_of_ne hne] at hq
      have hlock := h.lock q hq
      cases hfree with
      | inl hnone =>
          rw [hnone] at hlock
          cases hlock
      | inr hsome =>
          rw [hsome] at hlock
          injection hlock with hlock
          injection hlock with hlock
          exact absurd hlock.symm hne

theorem take (h : Inv s G) (hnone : s.lock = none) (hp : s.proc p = .allocating r)
    (hnodup : idx.toList.Nodup) (hfree : ∀ i ∈ idx.toList, i < num ∧ s.disk.free i = true) :
    Inv ({ s with
      disk := { s.disk with free := Disk.taken s.disk.free idx.toList }
      lock := some (.process p) }.goto p (.allocated r idx))
      { G with stage := Function.update G.stage p .fresh } := by
  have hstage : G.stage p = .fresh := by
    have hof := (h.fits p).stage
    rwa [hp] at hof
  have hlisted : (G.stage p).listed = false := by
    rw [hstage]
    rfl
  have hothers : ∀ q, q ≠ p → Function.update s.proc p (.allocated r idx) q = s.proc q :=
    fun q hne => Function.update_of_ne hne _ _
  apply h.advance p .fresh rfl
  case ht =>
    constructor
    case others => exact hothers
    case bufs => exact fun _ _ => ⟨rfl, rfl⟩
    case cells => exact fun _ _ => ⟨rfl, rfl, rfl⟩
    case avail => exact fun _ _ _ => rfl
  case hbuf =>
    rw [State.goto_self, hp]
    rfl
  case hchains => exact h.chains.take (by rw [hp]; rfl) hnodup hfree
  case hlock => exact h.lock_goto (.inl hnone) fun _ => rfl
  case hself =>
    rw [State.goto_self]
    constructor
    case stage => rfl
    case buf =>
      intro b hb
      cases hb
      have hbuf := (h.fits p).buf r.buf (by rw [hp]; rfl)
      rwa [hstage] at hbuf
    case submitted =>
      intro r' idx' hsub
      cases hsub
  case hrings =>
    exact h.rings.pass hothers hlisted rfl rfl rfl rfl rfl rfl
  case horderly => exact h.orderly

omit [DecidableEq P] in
theorem redesc (h : Inv s G) {desc : Nat → Desc B}
    (hdesc : ∀ i, s.disk.free i = false → desc i = s.disk.desc i) :
    Inv { s with disk := { s.disk with desc } } G := by
  constructor
  case chains => exact h.chains
  case lock => exact h.lock
  case exclusive => exact h.exclusive
  case unused => exact h.unused
  case fits =>
    intro p
    constructor
    case stage => exact (h.fits p).stage
    case buf => exact (h.fits p).buf
    case submitted =>
      intro r idx hsub
      refine ((h.fits p).submitted r idx hsub).frame ?_ fun _ => rfl
      intro i hi
      rw [← Proc.chain_of_submitted hsub] at hi
      exact ⟨hdesc i (h.chains.not_free hi), rfl, rfl⟩
  case rings => exact h.rings.frame (fun _ _ => rfl) rfl rfl rfl rfl rfl
  case orderly => exact h.orderly

theorem alloc (h : Inv s G) (p : P) : ∃ s' G', s.alloc p = .ok s' ∧ Inv s' G' := by
  unfold State.alloc
  split
  case h_2 => exact ⟨s, G, rfl, h⟩
  case h_1 r hnone hp =>
    cases s.disk.alloc3Desc_cases with
    | inl htaken =>
        obtain ⟨idx, hnodup, hfree, heq⟩ := htaken
        rw [heq]
        exact ⟨_, _, rfl, h.take hnone hp hnodup hfree⟩
    | inr hfailed =>
        obtain ⟨desc, hdesc, heq⟩ := hfailed
        rw [heq]
        exact ⟨_, _, rfl, h.redesc hdesc⟩

theorem format (h : Inv s G) (p : P) : ∃ G', Inv (s.format p) G' := by
  unfold State.format
  split
  case h_2 => exact ⟨G, h⟩
  case h_1 r idx hp =>
    have hstage : G.stage p = .fresh := by
      have hof := (h.fits p).stage
      rwa [hp] at hof
    have hlisted : (G.stage p).listed = false := by
      rw [hstage]
      rfl
    have hcritical : (s.proc p).critical = true := by
      rw [hp]
      rfl
    have hchain : (s.proc p).chain = idx.toList := by
      rw [hp]
      rfl
    have hnodup : idx.toList.Nodup := by
      rw [← hchain]
      exact h.chains.nodup p
    have hothers : ∀ q, q ≠ p → Function.update s.proc p (.formatted r idx) q = s.proc q :=
      fun q hne => Function.update_of_ne hne _ _
    refine ⟨{ G with stage := Function.update G.stage p .formatted }, ?_⟩
    apply h.advance p .formatted rfl
    case ht =>
      constructor
      case others => exact hothers
      case bufs =>
        intro b hb
        have hne : b ≠ r.buf := by
          rintro rfl
          exact hb (by rw [hp]; rfl)
        exact ⟨Function.update_of_ne hne _ _, rfl⟩
      case cells =>
        intro i hi
        rw [hchain] at hi
        exact ⟨s.disk.format_desc r hi, s.disk.format_info r hi, s.disk.format_ops r hi⟩
      case avail => exact fun _ _ _ => rfl
    case hbuf =>
      rw [State.goto_self, hp]
      rfl
    case hchains =>
      refine h.chains_advance hothers ?_ rfl
      rw [State.goto_self, hchain]
      rfl
    case hlock => exact h.lock_goto (.inr (h.lock p hcritical)) fun _ => h.lock p hcritical
    case hself =>
      rw [State.goto_self]
      constructor
      case stage => rfl
      case buf =>
        intro b hb
        cases hb
        have hbuf := (h.fits p).buf r.buf (by rw [hp]; rfl)
        rw [hstage] at hbuf
        exact ⟨Function.update_self _ _ _, hbuf.2⟩
      case submitted =>
        intro r' idx' hsub
        cases hsub
        constructor
        case formatted => exact s.disk.format_formatted r hnodup
        case info => exact fun _ => s.disk.format_info_b r idx
        case status => rintro (hg | hg) <;> cases hg
        case slot =>
          intro hg
          cases hg
    case hrings =>
      exact h.rings.pass hothers hlisted rfl rfl rfl rfl rfl rfl
    case horderly => exact h.orderly

omit [DecidableEq P] [DecidableEq B] in
theorem num_dvd : num ∣ 65536 := ⟨8192, rfl⟩

omit [DecidableEq P] in
theorem eq_of_critical (h : Inv s G) {q : P} (hp : (s.proc p).critical = true)
    (hq : (s.proc q).critical = true) : q = p := by
  have hlock := h.lock q hq
  rw [h.lock p hp] at hlock
  injection hlock with hlock
  injection hlock with hlock
  exact hlock.symm

omit [DecidableEq P] in
theorem room_avail (h : Inv s G) (hp : G.stage p ≠ .fresh) (hpg : G.stage p ≠ .queued) :
    (window num s.disk.avail.ring s.lastAvail s.disk.avail.idx).length < num := by
  rw [h.rings.avail, List.length_map]
  exact h.room h.rings.queued_mem (by simp) hp hpg

omit [DecidableEq P] in
theorem room_used (h : Inv s G) (hp : G.stage p ≠ .fresh) (hpg : G.stage p ≠ .used) :
    (window num s.disk.used.ring s.disk.usedIdx s.disk.used.idx).length < num := by
  rw [h.rings.used, List.length_map]
  exact h.room h.rings.used_mem (by simp) hp hpg

theorem enter (h : Inv s G) (p : P) : ∃ G', Inv (s.enter p) G' := by
  unfold State.enter
  split
  case h_2 => exact ⟨G, h⟩
  case h_1 r idx hp =>
    have hstage : G.stage p = .formatted := by
      have hof := (h.fits p).stage
      rwa [hp] at hof
    have hlisted : (G.stage p).listed = false := by
      rw [hstage]
      rfl
    have hcritical : (s.proc p).critical = true := by
      rw [hp]
      rfl
    have hothers : ∀ q, q ≠ p → Function.update s.proc p (.entered r idx) q = s.proc q :=
      fun q hne => Function.update_of_ne hne _ _
    refine ⟨{ G with stage := Function.update G.stage p .entered }, ?_⟩
    apply h.advance p .entered rfl
    case ht =>
      constructor
      case others => exact hothers
      case bufs => exact fun _ _ => ⟨rfl, rfl⟩
      case cells => exact fun _ _ => ⟨rfl, rfl, rfl⟩
      case avail =>
        intro q hne hq
        exact absurd (h.eq_of_critical hcritical hq) hne
    case hbuf =>
      rw [State.goto_self, hp]
      rfl
    case hchains =>
      refine h.chains_advance hothers ?_ rfl
      rw [State.goto_self, hp]
      rfl
    case hlock => exact h.lock_goto (.inr (h.lock p hcritical)) fun _ => h.lock p hcritical
    case hself =>
      rw [State.goto_self]
      constructor
      case stage => rfl
      case buf =>
        intro b hb
        cases hb
        have hbuf := (h.fits p).buf r.buf (by rw [hp]; rfl)
        rwa [hstage] at hbuf
      case submitted =>
        intro r' idx' hsub
        cases hsub
        have hold := (h.fits p).submitted r idx (by rw [hp]; rfl)
        rw [hstage] at hold
        constructor
        case formatted => exact hold.formatted.frame (fun _ _ => rfl) rfl
        case info => exact fun _ => hold.info rfl
        case status => rintro (hg | hg) <;> cases hg
        case slot => exact fun _ => Function.update_self _ _ _
    case hrings =>
      have hroom := h.room_avail (p := p) (by simp [hstage]) (by simp [hstage])
      refine h.rings.pass hothers hlisted rfl ?_ rfl rfl rfl rfl
      exact window_store num_dvd hroom _
    case horderly => exact h.orderly

theorem publish (h : Inv s G) (p : P) : ∃ G', Inv (s.publish p) G' := by
  unfold State.publish
  split
  case h_2 => exact ⟨G, h⟩
  case h_1 r idx hp =>
    have hstage : G.stage p = .entered := by
      have hof := (h.fits p).stage
      rwa [hp] at hof
    have hcritical : (s.proc p).critical = true := by
      rw [hp]
      rfl
    have hothers : ∀ q, q ≠ p → Function.update s.proc p (.published r idx) q = s.proc q :=
      fun q hne => Function.update_of_ne hne _ _
    have hchain : (Function.update s.proc p (.published r idx) p).chain = (s.proc p).chain := by
      rw [Function.update_self, hp]
      rfl
    have hbuf := (h.fits p).buf r.buf (by rw [hp]; rfl)
    have hold := (h.fits p).submitted r idx (by rw [hp]; rfl)
    rw [hstage] at hold hbuf
    refine ⟨{ G with stage := Function.update G.stage p .queued, queued := G.queued ++ [p] }, ?_⟩
    apply h.advance p .queued rfl
    case ht =>
      constructor
      case others => exact hothers
      case bufs =>
        intro b hb
        have hne : r.buf ≠ b := by
          rintro rfl
          exact hb (by rw [hp]; rfl)
        refine ⟨rfl, ?_⟩
        rw [State.record, lastKind_append, if_neg hne]
        rfl
      case cells => exact fun _ _ => ⟨rfl, rfl, rfl⟩
      case avail =>
        intro q hne hq
        exact absurd (h.eq_of_critical hcritical hq) hne
    case hbuf =>
      show (Function.update s.proc p (.published r idx) p).buf = _
      rw [Function.update_self, hp]
      rfl
    case hchains => exact h.chains_advance hothers hchain rfl
    case hlock => exact h.lock_goto (.inr (h.lock p hcritical)) fun _ => h.lock p hcritical
    case hself =>
      show Fits _ (Function.update s.proc p (.published r idx) p) _
      rw [Function.update_self]
      constructor
      case stage => rfl
      case buf =>
        intro b hb
        cases hb
        refine ⟨hbuf.1, ?_⟩
        rw [State.record, lastKind_append, if_pos rfl]
        rfl
      case submitted =>
        intro r' idx' hsub
        cases hsub
        constructor
        case formatted => exact hold.formatted.frame (fun _ _ => rfl) rfl
        case info => exact fun _ => hold.info rfl
        case status => rintro (hg | hg) <;> cases hg
        case slot =>
          intro hg
          cases hg
    case hrings =>
      have hroom := h.room_avail (p := p) (by simp [hstage]) (by simp [hstage])
      refine h.rings.publish hstage (head_congr hothers hchain) ?_ rfl rfl rfl rfl
      have hhead : s.head p = idx.i0 := by
        rw [State.head, hp]
        rfl
      have hslot := hold.slot rfl
      rw [← hhead] at hslot
      rw [← hslot]
      exact window_succ num_dvd (by decide) hroom
    case horderly => exact h.orderly.append hbuf.2

/-! ### The end of a call -/

theorem sleep (h : Inv s G) (hp : s.proc p = .published r idx ∨ s.proc p = .waiting r idx)
    (hlock : s.lock = none ∨ s.lock = some (.process p)) :
    Inv ({ s with lock := none }.goto p (.waiting r idx)) G := by
  have hothers : ∀ q, q ≠ p → Function.update s.proc p (.waiting r idx) q = s.proc q :=
    fun q hne => Function.update_of_ne hne _ _
  have hfits := h.fits p
  have hsame : (Function.update s.proc p (.waiting r idx) p).buf = (s.proc p).buf ∧
      (Function.update s.proc p (.waiting r idx) p).chain = (s.proc p).chain := by
    rw [Function.update_self]
    cases hp with
    | inl hp =>
        rw [hp]
        exact ⟨rfl, rfl⟩
    | inr hp =>
        rw [hp]
        exact ⟨rfl, rfl⟩
  have hstage : (G.stage p).sent = true := by
    have hof := hfits.stage
    cases hp with
    | inl hp => rwa [hp] at hof
    | inr hp => rwa [hp] at hof
  have hsub : (s.proc p).submitted = some (r, idx) := by
    cases hp with
    | inl hp =>
        rw [hp]
        rfl
    | inr hp =>
        rw [hp]
        rfl
  apply h.advance p (G.stage p) (Function.update_eq_self p G.stage).symm
  case ht =>
    constructor
    case others => exact hothers
    case bufs => exact fun _ _ => ⟨rfl, rfl⟩
    case cells => exact fun _ _ => ⟨rfl, rfl, rfl⟩
    case avail => exact fun _ _ _ => rfl
  case hbuf => exact hsame.1
  case hchains => exact h.chains_advance hothers hsame.2 rfl
  case hlock =>
    refine h.lock_goto hlock ?_
    intro hcritical
    cases hcritical
  case hself =>
    rw [State.goto_self]
    constructor
    case stage => exact hstage
    case buf =>
      intro b hb
      exact hfits.buf b (by rwa [← hsame.1, Function.update_self])
    case submitted =>
      intro r' idx' hsub'
      cases hsub'
      exact (hfits.submitted r idx hsub).frame (fun _ _ => ⟨rfl, rfl, rfl⟩) fun _ => rfl
  case hrings =>
    exact h.rings.frame (fun q _ => congrFun (head_congr hothers hsame.2) q) rfl rfl rfl rfl rfl
  case horderly => exact h.orderly

theorem finishCall (h : Inv s G) (hsub : (s.proc p).submitted = some (r, idx))
    (hsent : (G.stage p).sent = true) (hlock : s.lock = none ∨ s.lock = some (.process p))
    (hdisk : s.bufDisk r.buf = false) :
    ∃ disk G',
      (s.disk.setInfo idx.i0 { s.disk.info idx.i0 with b := none }).freeChain idx.i0 = .ok disk ∧
      Inv (({ s with disk, lock := none }.goto p .idle).record .returned r.buf) G' := by
  have hfits := h.fits p
  have hsubmitted := hfits.submitted r idx hsub
  have hchain := Proc.chain_of_submitted hsub
  have hbuf := hfits.buf r.buf (Proc.buf_of_submitted hsub)
  have hstage : G.stage p = .cleared := Stage.eq_cleared hsent (by rw [← hbuf.1, hdisk])
  rw [hstage] at hbuf
  have hlt : ∀ i ∈ idx.toList, i < num := by
    rw [← hchain]
    exact h.chains.lt p
  have hfreed : (s.disk.setInfo idx.i0 { s.disk.info idx.i0 with b := none }).freeChain idx.i0 =
      .ok ((s.disk.setInfo idx.i0 { s.disk.info idx.i0 with b := none }).freed idx.toList) := by
    apply Disk.freeLoop_eq
    case hchain => exact hsubmitted.formatted.chained hlt
    case hnodup =>
      have hnodup := h.chains.nodup p
      rwa [hchain] at hnodup
    case hlt =>
      intro i hi
      refine ⟨hlt i hi, h.chains.not_free (p := p) ?_⟩
      rw [hchain]
      exact hi
    case hfuel =>
      show 2 < num + 1
      decide
  have hothers : ∀ q, q ≠ p → Function.update s.proc p .idle q = s.proc q :=
    fun q hne => Function.update_of_ne hne _ _
  have hne_buf : ∀ b, (s.proc p).buf ≠ some b → r.buf ≠ b := by
    rintro b hb rfl
    exact hb (Proc.buf_of_submitted hsub)
  refine ⟨_, { G with stage := Function.update G.stage p .fresh }, hfreed, ?_⟩
  constructor
  case chains =>
    have hgive := h.chains.give p .idle rfl
    rw [hchain] at hgive
    exact hgive
  case lock =>
    refine h.lock_goto hlock ?_
    intro hcritical
    cases hcritical
  case exclusive =>
    intro q q' b hb hb'
    have hbuf_idle : ∀ q, (Function.update s.proc p .idle q).buf = some b →
        (s.proc q).buf = some b := by
      intro q hq
      cases eq_or_ne q p with
      | inl heq =>
          rw [heq, Function.update_self] at hq
          cases hq
      | inr hne => rwa [hothers q hne] at hq
    exact h.exclusive q q' b (hbuf_idle q hb) (hbuf_idle q' hb')
  case unused =>
    intro b hb
    rw [State.record, lastKind_append]
    cases em (r.buf = b) with
    | inl heq =>
        rw [if_pos heq, ← heq]
        exact ⟨hdisk, rfl⟩
    | inr hne =>
        rw [if_neg hne]
        refine h.unused b ?_
        intro q hq
        cases eq_or_ne q p with
        | inl heq =>
            rw [heq, Proc.buf_of_submitted hsub] at hq
            injection hq with hq
            exact hne hq
        | inr hqp =>
            have hq' := hb q
            change (Function.update s.proc p .idle q).buf ≠ some b at hq'
            rw [hothers q hqp] at hq'
            exact hq' hq
  case fits =>
    apply h.fits_advance
    case ht =>
      constructor
      case others => exact hothers
      case bufs =>
        intro b hb
        rw [State.record, lastKind_append, if_neg (hne_buf b hb)]
        exact ⟨rfl, rfl⟩
      case cells =>
        intro i hi
        rw [hchain] at hi
        have hne : i ≠ idx.i0 := by
          rintro rfl
          exact hi (by simp [Idx.toList])
        exact ⟨if_neg hi, Function.update_of_ne hne _ _, rfl⟩
      case avail => exact fun _ _ _ => rfl
    case hself =>
      show Fits _ (Function.update s.proc p .idle p) _
      rw [Function.update_self]
      constructor
      case stage => rfl
      case buf =>
        intro b hb
        cases hb
      case submitted =>
        intro r' idx' hsub'
        cases hsub'
  case rings =>
    refine h.rings.pass hothers ?_ rfl rfl rfl rfl rfl rfl
    rw [hstage]
    rfl
  case orderly => exact h.orderly.append hbuf.2

theorem test (h : Inv s G) (hp : s.proc p = .published r idx ∨ s.proc p = .waiting r idx)
    (hlock : s.lock = none ∨ s.lock = some (.process p)) :
    ∃ s' G', s.test p r idx = .ok s' ∧ Inv s' G' := by
  have hof := (h.fits p).stage
  have hsub : (s.proc p).submitted = some (r, idx) := by
    cases hp with
    | inl hp =>
        rw [hp]
        rfl
    | inr hp =>
        rw [hp]
        rfl
  have hsent : (G.stage p).sent = true := by
    cases hp with
    | inl hp => rwa [hp] at hof
    | inr hp => rwa [hp] at hof
  unfold State.test
  split
  case isTrue => exact ⟨_, G, rfl, h.sleep hp hlock⟩
  case isFalse hdisk =>
    obtain ⟨disk, G', hfreed, hinv⟩ :=
      h.finishCall hsub hsent hlock (Bool.eq_false_of_not_eq_true hdisk)
    refine ⟨_, G', ?_, hinv⟩
    simp only [hfreed]
    rfl

theorem await (h : Inv s G) (p : P) : ∃ s' G', s.await p = .ok s' ∧ Inv s' G' := by
  unfold State.await
  split
  case h_1 r idx hp =>
    have hlock : s.lock = some (.process p) := by
      apply h.lock
      rw [hp]
      rfl
    exact h.test (.inl hp) (.inr hlock)
  case h_2 r idx hp =>
    split
    case isTrue hnone => exact h.test (.inr hp) (.inl hnone)
    case isFalse => exact ⟨s, G, rfl, h⟩
  case h_3 => exact ⟨s, G, rfl, h⟩

/-! ### The interrupt -/

omit [DecidableEq P] in
theorem relock (h : Inv s G) {l : Option (Holder P)}
    (hl : ∀ p, (s.proc p).critical = true → l = some (.process p)) :
    Inv { s with lock := l } G := by
  constructor
  case chains => exact h.chains
  case lock => exact hl
  case exclusive => exact h.exclusive
  case unused => exact h.unused
  case fits =>
    intro p
    constructor
    case stage => exact (h.fits p).stage
    case buf => exact (h.fits p).buf
    case submitted =>
      intro r idx hsub
      exact ((h.fits p).submitted r idx hsub).frame (fun _ _ => ⟨rfl, rfl, rfl⟩) fun _ => rfl
  case rings => exact h.rings.frame (fun _ _ => rfl) rfl rfl rfl rfl rfl
  case orderly => exact h.orderly

omit [DecidableEq P] in
theorem intr (h : Inv s G) : Inv s.intr G := by
  unfold State.intr
  split
  case isTrue hnone =>
    apply h.relock
    intro p hp
    have hlock := h.lock p hp
    rw [hnone] at hlock
    cases hlock
  case isFalse => exact h

theorem advance_sent (h : Inv s G) (g' : Stage) {G' : Ghost P}
    (hG : G'.stage = Function.update G.stage p g') (hsub : (s.proc p).submitted = some (r, idx))
    (hsent : (G.stage p).sent = true) (hsent' : g'.sent = true) (hproc : s'.proc = s.proc)
    (hbufs : ∀ b, r.buf ≠ b →
      s'.bufDisk b = s.bufDisk b ∧ lastKind b s'.history = lastKind b s.history)
    (hbuf : s'.bufDisk r.buf = g'.disk ∧ lastKind r.buf s'.history = g'.kind)
    (hcells : s'.disk.desc = s.disk.desc ∧ s'.disk.ops = s.disk.ops ∧ s'.disk.free = s.disk.free)
    (hinfo : ∀ i, i ≠ idx.i0 → s'.disk.info i = s.disk.info i)
    (havail : s'.disk.avail = s.disk.avail) (hlock : s'.lock = s.lock)
    (hb : g'.disk = true → (s'.disk.info idx.i0).b = some r.buf)
    (hstatus : g' = .finished ∨ g' = .used → (s'.disk.info idx.i0).status = 0)
    (hrings : Rings s' G') (horderly : Orderly s'.history) : Inv s' G' := by
  have hfits := h.fits p
  have hold := hfits.submitted r idx hsub
  apply h.advance p g' hG
  case ht =>
    constructor
    case others =>
      intro q _
      rw [hproc]
    case bufs =>
      intro b hne
      apply hbufs
      rintro rfl
      exact hne (Proc.buf_of_submitted hsub)
    case cells =>
      intro i hi
      rw [hcells.1, hcells.2.1]
      refine ⟨rfl, hinfo i ?_, rfl⟩
      rintro rfl
      rw [Proc.chain_of_submitted hsub] at hi
      exact hi (by simp [Idx.toList])
    case avail => exact fun _ _ _ => havail
  case hbuf => rw [hproc]
  case hchains =>
    rw [hproc, hcells.2.2]
    exact h.chains
  case hlock =>
    rw [hproc, hlock]
    exact h.lock
  case hself =>
    rw [hproc]
    constructor
    case stage =>
      have hof := hfits.stage
      cases hp : s.proc p with
      | published r idx => exact hsent'
      | waiting r idx => exact hsent'
      | idle =>
          rw [hp] at hsub
          cases hsub
      | allocating r =>
          rw [hp] at hsub
          cases hsub
      | allocated r idx =>
          rw [hp] at hsub
          cases hsub
      | formatted r idx =>
          rw [hp] at hof
          rw [show G.stage p = .formatted from hof] at hsent
          cases hsent
      | entered r idx =>
          rw [hp] at hof
          rw [show G.stage p = .entered from hof] at hsent
          cases hsent
    case buf =>
      intro b hb'
      rw [Proc.buf_of_submitted hsub] at hb'
      injection hb' with heq
      rw [← heq]
      exact hbuf
    case submitted =>
      intro r' idx' hsub'
      rw [hsub] at hsub'
      cases hsub'
      constructor
      case formatted =>
        refine hold.formatted.frame (fun i _ => ?_) ?_
        · rw [hcells.1]
        · rw [hcells.2.1]
      case info => exact hb
      case status => exact hstatus
      case slot =>
        rintro rfl
        cases hsent'
  case hrings => exact hrings
  case horderly => exact horderly

omit [DecidableEq P] in
theorem used_cons (h : Inv s G) (hne : s.disk.usedIdx ≠ s.disk.used.idx) :
    ∃ p used, G.used = p :: used ∧
      (s.disk.used.ring (s.disk.usedIdx.toNat % num)).toNat = s.head p ∧
      window num s.disk.used.ring (s.disk.usedIdx + 1) s.disk.used.idx =
        used.map fun p => UInt32.ofNat (s.head p) := by
  have hused := h.rings.used
  rw [window_pop num_dvd hne] at hused
  cases hlist : G.used with
  | nil =>
      rw [hlist] at hused
      cases hused
  | cons p used =>
      rw [hlist] at hused
      injection hused with hfirst hrest
      have hstage : G.stage p = .used := (h.rings.used_mem.mem p).mp (by simp [hlist])
      refine ⟨p, used, rfl, ?_, hrest⟩
      rw [hfirst]
      exact toNat_ofNat_uint32 (h.head_lt (by simp [hstage]))

omit [DecidableEq P] in
theorem queued_cons (h : Inv s G) (hne : s.lastAvail ≠ s.disk.avail.idx) :
    ∃ p queued, G.queued = p :: queued ∧
      (s.disk.avail.ring (s.lastAvail.toNat % num)).toNat = s.head p ∧
      window num s.disk.avail.ring (s.lastAvail + 1) s.disk.avail.idx =
        queued.map fun p => UInt16.ofNat (s.head p) := by
  have hqueued := h.rings.avail
  rw [window_pop num_dvd hne] at hqueued
  cases hlist : G.queued with
  | nil =>
      rw [hlist] at hqueued
      cases hqueued
  | cons p queued =>
      rw [hlist] at hqueued
      injection hqueued with hfirst hrest
      have hstage : G.stage p = .queued := (h.rings.queued_mem.mem p).mp (by simp [hlist])
      refine ⟨p, queued, rfl, ?_, hrest⟩
      rw [hfirst]
      exact toNat_ofNat_uint16 (h.head_lt (by simp [hstage]))

/-- The interrupt finds a request that the device has completed, and clears its buffer. -/
theorem clear (h : Inv s G) (hlock : s.lock = some .intr) (hne : s.disk.usedIdx ≠ s.disk.used.idx) :
    ∃ p r idx used, G.used = p :: used ∧ (s.proc p).submitted = some (r, idx) ∧
      (s.disk.used.ring (s.disk.usedIdx.toNat % num)).toNat = idx.i0 ∧
      s.bufDisk r.buf = true ∧ lastKind r.buf s.history = .completed ∧
      s.intrNext = .ok (s.cleared r.buf) ∧
      Inv (s.cleared r.buf) { G with stage := Function.update G.stage p .cleared, used } := by
  obtain ⟨p, used, hused, hid, hrest⟩ := h.used_cons hne
  have hstage : G.stage p = .used := (h.rings.used_mem.mem p).mp (by simp [hused])
  obtain ⟨r, idx, hsub, hold, hbuf, -, hhead⟩ := h.request_of_stage hstage (by decide)
  rw [hhead] at hid
  refine ⟨p, r, idx, used, hused, hsub, hid, hbuf.1, hbuf.2, ?_, ?_⟩
  · have hstatus := hold.status (.inr rfl)
    have hb := hold.info rfl
    simp only [State.intrNext, if_pos hlock, if_pos hne, hid, hstatus, hb, ne_eq,
      not_true_eq_false, if_false]
    rfl
  apply h.advance_sent .cleared rfl hsub
  case hsent =>
    rw [hstage]
    rfl
  case hsent' => rfl
  case hproc => rfl
  case hbufs =>
    intro b hb
    rw [State.cleared, State.record, lastKind_append, if_neg hb]
    exact ⟨Function.update_of_ne hb.symm _ _, rfl⟩
  case hbuf =>
    rw [State.cleared, State.record, lastKind_append, if_pos rfl]
    exact ⟨Function.update_self _ _ _, rfl⟩
  case hcells => exact ⟨rfl, rfl, rfl⟩
  case hinfo => exact fun _ _ => rfl
  case havail => rfl
  case hlock => rfl
  case hb =>
    intro hdisk
    cases hdisk
  case hstatus => rintro (hg | hg) <;> cases hg
  case hrings => exact h.rings.clear hused rfl rfl rfl rfl rfl hrest
  case horderly => exact h.orderly.append hbuf.2

theorem release (h : Inv s G) (hlock : s.lock = some .intr)
    (heq : s.disk.usedIdx = s.disk.used.idx) :
    s.intrNext = .ok { s with lock := none } ∧ Inv { s with lock := none } G := by
  constructor
  · rw [State.intrNext, if_pos hlock, if_neg (not_not.2 heq)]
    rfl
  · apply h.relock
    intro p hp
    have hlock' := h.lock p hp
    rw [hlock] at hlock'
    cases hlock'

theorem intrNext (h : Inv s G) : ∃ s' G', s.intrNext = .ok s' ∧ Inv s' G' := by
  by_cases hlock : s.lock = some .intr
  · by_cases heq : s.disk.usedIdx = s.disk.used.idx
    · obtain ⟨hrun, hinv⟩ := h.release hlock heq
      exact ⟨_, G, hrun, hinv⟩
    · obtain ⟨p, r, idx, used, -, -, -, -, -, hrun, hinv⟩ := h.clear hlock heq
      exact ⟨_, _, hrun, hinv⟩
  · refine ⟨s, G, ?_, h⟩
    rw [State.intrNext, if_neg hlock]
    rfl

omit [DecidableEq P] in
theorem used_ne_nil (h : Inv s G) {b : B} (hb : lastKind b s.history = .completed) :
    G.used ≠ [] := by
  by_cases hcall : ∃ p, (s.proc p).buf = some b
  · obtain ⟨p, hp⟩ := hcall
    have hkind := ((h.fits p).buf b hp).2
    rw [hb] at hkind
    have hstage : G.stage p = .used := by
      cases hg : G.stage p <;> rw [hg] at hkind <;> first | rfl | cases hkind
    exact List.ne_nil_of_mem ((h.rings.used_mem.mem p).2 hstage)
  · have hunused := (h.unused b fun p hp => hcall ⟨p, hp⟩).2
    rw [hb] at hunused
    cases hunused

omit [DecidableEq P] in
theorem used_length_le (h : Inv s G) : G.used.length ≤ num := by
  apply h.chains.length_le h.rings.used_mem.nodup
  intro q hq
  apply h.head_mem
  rw [(h.rings.used_mem.mem q).1 hq]
  decide

theorem drain {n : Nat} (h : Inv s G) (hlock : s.lock = some .intr) (hn : G.used.length < n) :
    ∃ s', s.intrLoop n = .ok s' ∧ Drained s s' := by
  induction n generalizing s G with
  | zero => exact absurd hn (Nat.not_lt_zero _)
  | succ n ih =>
      by_cases heq : s.disk.usedIdx = s.disk.used.idx
      · obtain ⟨hrun, -⟩ := h.release hlock heq
        refine ⟨{ s with lock := none }, ?_, rfl, heq, ?_, fun _ _ => ⟨rfl, rfl⟩⟩
        · rw [State.intrLoop, hrun]
          rfl
        · intro b hb
          have hused := h.rings.used
          rw [heq, window_self] at hused
          exact absurd (List.map_eq_nil_iff.1 hused.symm) (h.used_ne_nil hb)
      · obtain ⟨p, r, idx, used, hused, -, -, -, hlast, hrun, hinv⟩ := h.clear hlock heq
        rw [hused, List.length_cons, Nat.succ_lt_succ_iff] at hn
        obtain ⟨s', hloop, hdrained⟩ := ih hinv hlock hn
        have hself : lastKind r.buf (s.cleared r.buf).history = .cleared := by
          rw [State.cleared, State.record, lastKind_append, if_pos rfl]
        have hother : ∀ b, b ≠ r.buf → lastKind b (s.cleared r.buf).history =
            lastKind b s.history := by
          intro b hb
          rw [State.cleared, State.record, lastKind_append, if_neg (Ne.symm hb)]
        refine ⟨s', ?_, hdrained.lock, hdrained.usedIdx, ?_, ?_⟩
        · rw [State.intrLoop, hrun]
          exact (if_pos hlock).trans hloop
        · intro b hb
          by_cases hbuf : b = r.buf
          · subst hbuf
            obtain ⟨hdisk, hkind⟩ := hdrained.others r.buf (by simp [hself])
            refine ⟨hdisk.trans ?_, hkind.trans hself⟩
            exact Function.update_self _ _ _
          · rw [← hother b hbuf] at hb
            exact hdrained.completed b hb
        · intro b hb
          have hbuf : b ≠ r.buf := by
            rintro rfl
            exact hb hlast
          obtain ⟨hdisk, hkind⟩ := hdrained.others b (by rwa [hother b hbuf])
          refine ⟨hdisk.trans ?_, hkind.trans (hother b hbuf)⟩
          exact Function.update_of_ne hbuf _ _

/-! ### The device -/

theorem fetch (h : Inv s G) : ∃ G', Inv s.fetch G' := by
  unfold State.fetch
  split
  case isFalse => exact ⟨G, h⟩
  case isTrue hne =>
    obtain ⟨p, queued, hqueued, hfirst, hrest⟩ := h.queued_cons hne
    have hstage : G.stage p = .queued := (h.rings.queued_mem.mem p).mp (by simp [hqueued])
    obtain ⟨r, idx, hsub, hold, hbuf, -, -⟩ := h.request_of_stage hstage (by decide)
    refine ⟨{ G with
      stage := Function.update G.stage p .fetched, queued, fetched := G.fetched ++ [p] }, ?_⟩
    apply h.advance_sent .fetched rfl hsub
    case hsent =>
      rw [hstage]
      rfl
    case hsent' => rfl
    case hproc => rfl
    case hbufs => exact fun _ _ => ⟨rfl, rfl⟩
    case hbuf => exact hbuf
    case hcells => exact ⟨rfl, rfl, rfl⟩
    case hinfo => exact fun _ _ => rfl
    case havail => rfl
    case hlock => rfl
    case hb => exact fun _ => hold.info rfl
    case hstatus => rintro (hg | hg) <;> cases hg
    case hrings =>
      refine h.rings.fetch hqueued rfl hrest ?_ rfl rfl rfl
      rw [hfirst]
    case horderly => exact h.orderly

theorem finish (h : Inv s G) (k : Nat) : ∃ G', Inv (s.finish k) G' := by
  unfold State.finish
  split
  case h_2 => exact ⟨G, h⟩
  case h_1 i hk =>
    rw [h.rings.fetched, List.getElem?_map, Option.map_eq_some_iff] at hk
    obtain ⟨p, hp, rfl⟩ := hk
    have hstage : G.stage p = .fetched := (h.rings.fetched_mem.mem p).mp (List.mem_of_getElem? hp)
    obtain ⟨r, idx, hsub, hold, hbuf, hlt, hhead⟩ := h.request_of_stage hstage (by decide)
    have hwrite := Disk.writeStatus_eq hold.formatted hlt
    rw [hhead, hwrite]
    refine ⟨{ G with
      stage := Function.update G.stage p .finished, fetched := G.fetched.eraseIdx k
      finished := G.finished ++ [p] }, ?_⟩
    apply h.advance_sent .finished rfl hsub
    case hsent =>
      rw [hstage]
      rfl
    case hsent' => rfl
    case hproc => rfl
    case hbufs => exact fun _ _ => ⟨rfl, rfl⟩
    case hbuf => exact hbuf
    case hcells => exact ⟨rfl, rfl, rfl⟩
    case hinfo => exact fun _ hne => Function.update_of_ne hne _ _
    case havail => rfl
    case hlock => rfl
    case hb =>
      intro _
      simp only [Disk.setInfo, Function.update_self]
      exact hold.info rfl
    case hstatus =>
      intro _
      simp only [Disk.setInfo, Function.update_self]
    case hrings =>
      refine h.rings.finish hp rfl rfl rfl rfl ?_ rfl rfl
      rw [hhead]
    case horderly => exact h.orderly

theorem complete (h : Inv s G) (k : Nat) : ∃ G', Inv (s.complete k) G' := by
  unfold State.complete
  split
  case h_2 => exact ⟨G, h⟩
  case h_1 i hk =>
    rw [h.rings.finished, List.getElem?_map, Option.map_eq_some_iff] at hk
    obtain ⟨p, hp, rfl⟩ := hk
    have hstage : G.stage p = .finished := (h.rings.finished_mem.mem p).mp (List.mem_of_getElem? hp)
    obtain ⟨r, idx, hsub, hold, hbuf, hlt, hhead⟩ := h.request_of_stage hstage (by decide)
    have hroom := h.room_used (p := p) (by simp [hstage]) (by simp [hstage])
    rw [hhead, hold.formatted.second_eq hlt, hold.formatted.second]
    refine ⟨{ G with
      stage := Function.update G.stage p .used, finished := G.finished.eraseIdx k
      used := G.used ++ [p] }, ?_⟩
    apply h.advance_sent .used rfl hsub
    case hsent =>
      rw [hstage]
      rfl
    case hsent' => rfl
    case hproc => rfl
    case hbufs =>
      intro b hb
      refine ⟨rfl, ?_⟩
      simp only [State.record]
      rw [lastKind_append, if_neg hb]
    case hbuf =>
      simp only [State.record]
      rw [lastKind_append, if_pos rfl]
      exact ⟨hbuf.1, rfl⟩
    case hcells => exact ⟨rfl, rfl, rfl⟩
    case hinfo => exact fun _ _ => rfl
    case havail => rfl
    case hlock => rfl
    case hb => exact fun _ => hold.info rfl
    case hstatus => exact fun _ => hold.status (.inl rfl)
    case hrings =>
      refine h.rings.complete hp rfl rfl rfl rfl rfl ?_
      rw [hhead]
      exact window_push num_dvd (by decide) hroom _
    case horderly => exact h.orderly.append hbuf.2

/-! ### Runs -/

theorem step (h : Inv s G) (a : Action P B) (ha : s.Allowed a) :
    ∃ s' G', s.step a = .ok s' ∧ Inv s' G' := by
  cases a with
  | call p r =>
      obtain ⟨hidle, hr⟩ := ha
      obtain ⟨G', hinv⟩ := h.call hidle hr
      exact ⟨_, G', rfl, hinv⟩
  | alloc p => exact h.alloc p
  | format p =>
      obtain ⟨G', hinv⟩ := h.format p
      exact ⟨_, G', rfl, hinv⟩
  | enter p =>
      obtain ⟨G', hinv⟩ := h.enter p
      exact ⟨_, G', rfl, hinv⟩
  | publish p =>
      obtain ⟨G', hinv⟩ := h.publish p
      exact ⟨_, G', rfl, hinv⟩
  | await p => exact h.await p
  | intr => exact ⟨_, G, rfl, h.intr⟩
  | intrNext => exact h.intrNext
  | fetch =>
      obtain ⟨G', hinv⟩ := h.fetch
      exact ⟨_, G', rfl, hinv⟩
  | finish k =>
      obtain ⟨G', hinv⟩ := h.finish k
      exact ⟨_, G', rfl, hinv⟩
  | complete k =>
      obtain ⟨G', hinv⟩ := h.complete k
      exact ⟨_, G', rfl, hinv⟩

omit [DecidableEq P] in
theorem initial : Inv (State.initial : State P B)
    { stage := fun _ => .fresh, queued := [], fetched := [], finished := [], used := [] } := by
  constructor
  case chains =>
    constructor
    case nodup => exact fun _ => List.nodup_nil
    case lt => exact fun _ _ hi => absurd hi List.not_mem_nil
    case disjoint => exact fun _ _ _ hi => absurd hi List.not_mem_nil
    case free =>
      intro i _
      simp [State.initial, Proc.chain]
  case lock =>
    intro p hp
    cases hp
  case exclusive =>
    intro p q b hb
    cases hb
  case unused => exact fun _ _ => ⟨rfl, rfl⟩
  case fits =>
    intro p
    constructor
    case stage => rfl
    case buf =>
      intro b hb
      cases hb
    case submitted =>
      intro r idx hsub
      cases hsub
  case rings =>
    have hempty : ∀ g : Stage, g ≠ .fresh → Queue (fun _ : P => Stage.fresh) g [] := by
      intro g hg
      constructor
      case nodup => exact List.nodup_nil
      case mem =>
        intro p
        simp [hg.symm]
    constructor
    case avail => exact window_self
    case fetched => rfl
    case finished => rfl
    case used => exact window_self
    case queued_mem => exact hempty _ (by simp)
    case fetched_mem => exact hempty _ (by simp)
    case finished_mem => exact hempty _ (by simp)
    case used_mem => exact hempty _ (by simp)
  case orderly =>
    intro before e rest heq
    simp [State.initial] at heq

theorem of_reachable (h : Reachable s) : ∃ G, Inv s G := by
  induction h with
  | initial => exact ⟨_, initial⟩
  | step a _ ha hstep ih =>
      obtain ⟨G, hinv⟩ := ih
      obtain ⟨s', G', hstep', hinv'⟩ := hinv.step a ha
      rw [hstep] at hstep'
      injection hstep' with heq
      rw [heq]
      exact ⟨G', hinv'⟩

end Inv

end SyscallSched.Xv6.Virtio
