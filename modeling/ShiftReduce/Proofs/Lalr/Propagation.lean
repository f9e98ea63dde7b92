import ShiftReduce.Proofs.Lalr.Passes

namespace ShiftReduce

open Exploration Automaton

-- The states below a number have been surveyed.
def IsSurveyed (ctx : Context) (a : Automaton) (bound : Nat) : Prop :=
  ∀ r k, IsRef ctx r k → r.state.number < bound → ∀ d t,
    LooksAhead ctx [⟨k, some {.marker}⟩] d t → Delivered ctx a r d t

-- The kernels are closed under transitions.
def IsSettled (ctx : Context) (a : Automaton) : Prop :=
  ∀ (q : StateId) d t x, q.number < (collection ctx .lr0).length →
    LooksAhead ctx (a.kernelItems q) d t → d.next? ctx.grammar = some x →
    Covers (a.kernelItems <| targetIn ctx .lr0 q x) d.advance t

-- The LR(0) automaton with all lookaheads.
structure Propagated (ctx : Context) (a : Automaton) : Prop where
  algorithm  : a.algorithm = .lalrByPropagation
  done       : a.IsDone
  size       : a.nodes.size = (collection ctx .lr0).length
  live       : ∀ n ∈ a.nodes, n.live = true
  edges      : ∀ {q n}, a.node? q = some n → n.edges = edgesOf ctx .lr0 (kernelIn ctx .lr0 q)
  cores      : ∀ {q n}, a.node? q = some n →
    n.items.kernel.map Item.core = (kernelIn ctx .lr0 q).map Item.core
  completes  : ∀ {q n}, a.node? q = some n →
    Completes ctx .lr1 n.items.kernel n.items.closure
  lookaheads : ∀ {q n}, a.node? q = some n → ∀ c t,
    Covers n.items.closure c t ↔ IsLookahead ctx q c t

variable {ctx : Context} {a b : Automaton} {r : KernelRef} {q : StateId} {n : Node} {k d : Core}
  {t : Terminal} {bound : Nat}

section Start

theorem covers_map_promote {items : List Item} (h : ∀ i ∈ items, i.kind = .lr0) :
    ¬ Covers (items.map Item.promote) d t := by
  rintro ⟨i, hi, _, ht⟩
  obtain ⟨j, hj, hji⟩ := List.mem_map.mp hi
  rw [← hji] at ht
  simp [Item.promote, Item.lookaheadSet, lookaheads_eq_none (h j hj)] at ht

-- The LR(0) automaton before the start item gets its lookahead.
def promoted (a : Automaton) : Automaton :=
  { a with
    nodes   := a.nodes.map fun n => { n with items := n.items.promote }
    pointer := 0
    passes  := 0
    phase   := .spontaneous }

theorem kernelItems_promoted (h : Collected ctx .lalrByPropagation a) :
    (promoted a).kernelItems q = (kernelIn ctx .lr0 q).map Item.promote := by
  cases hn : a.nodes[q.number]?
  case none =>
    have hge := Array.getElem?_eq_none_iff.mp hn
    have hlen : (collection ctx .lr0)[q.number]? = none :=
      List.getElem?_eq_none <| h.size_eq ▸ hge
    simp [kernelItems, promoted, hn, kernelIn, hlen]
  case some n =>
    have hget : (collection ctx .lr0)[q.number]? = some n.items.kernel := h.getElem?_eq hn
    simp [kernelItems, promoted, hn, ItemSet.promote, kernelIn_eq hget]

theorem promoted_isShaped (h : Collected ctx .lalrByPropagation a) :
    IsShaped ctx (promoted a) where
  algorithm := h.algorithm
  size      := by
    simp only [promoted, Array.size_map]
    exact h.size_eq
  live n hn := by
    obtain ⟨m, hm, he⟩ := Array.mem_map.mp hn
    exact he ▸ (h.nodes m hm).live
  edges     := by
    intro q n hn
    simp only [promoted, Array.getElem?_map, Option.map_eq_some_iff] at hn
    obtain ⟨m, hm, he⟩ := hn
    subst he
    have hget : (collection ctx .lr0)[q.number]? = some m.items.kernel := h.getElem?_eq hm
    rw [kernelIn_eq hget]
    exact (h.nodes m <| Array.mem_of_getElem? hm).edges
  cores q   := by
    rw [kernelItems_promoted h, List.map_map]
    exact List.map_congr_left fun i _ => Item.core_promote
  kinds q   := by
    rw [kernelItems_promoted h]
    intro i hi
    obtain ⟨j, _, hji⟩ := List.mem_map.mp hi
    simp [← hji, Item.promote, Item.kind]

theorem not_covers_promoted (hg : ctx.grammar.WellFormed)
    (h : Collected ctx .lalrByPropagation a) : ¬ Covers ((promoted a).kernelItems q) d t := by
  rw [kernelItems_promoted h]
  refine covers_map_promote fun i hi => ?_
  by_cases hq : q.number < (collection ctx .lr0).length
  case pos => exact (isKernel_kernelIn hg hq).kinds i hi
  case neg => simp [kernelIn, List.getElem?_eq_none (Nat.le_of_not_lt hq)] at hi

theorem startPropagation_eq :
    a.startPropagation = (promoted a).gain ⟨.start, 0⟩ {.endOfInput} :=
  rfl

theorem isRef_start (hg : ctx.grammar.WellFormed) : IsRef ctx ⟨.start, 0⟩ ⟨.accept, 0⟩ := by
  simp [IsRef, kernelIn_start hg, Item.start]

theorem startPropagation_isSound (hg : ctx.grammar.WellFormed)
    (h : Collected ctx .lalrByPropagation a) : IsSound ctx a.startPropagation := by
  have hshaped := promoted_isShaped h
  have hcovers {q : StateId} {c : Core} {t : Terminal} :
      Covers (a.startPropagation.kernelItems q) c t ↔
        q = .start ∧ c = ⟨.accept, 0⟩ ∧ t = .endOfInput := by
    rw [startPropagation_eq, hshaped.covers_gain (isRef_start hg)]
    simp [not_covers_promoted hg h]
  constructor
  case toIsShaped => exact startPropagation_eq ▸ hshaped.gain
  case lookaheads =>
    intro q c t hc
    obtain ⟨hq, hc, ht⟩ := hcovers.mp hc
    exact hq ▸ hc ▸ ht ▸ .start
  case start => exact hcovers.mpr ⟨rfl, rfl, rfl⟩
  case links =>
    rintro s t ⟨_, hm, _⟩
    have heffects : a.startPropagation.effects = [] := h.effects
    simp [heffects] at hm

end Start

-- What holds in each phase of the propagation.
structure Surveying (ctx : Context) (a : Automaton) : Prop extends IsSound ctx a where
  phase    : a.phase = .spontaneous
  pointer  : a.pointer < (collection ctx .lr0).length
  surveyed : IsSurveyed ctx a a.pointer

structure Passing (ctx : Context) (a : Automaton) : Prop extends IsSound ctx a where
  phase    : a.phase = .propagate
  surveyed : IsSurveyed ctx a (collection ctx .lr0).length

structure Reclosing (ctx : Context) (a : Automaton) : Prop extends IsSound ctx a where
  phase   : a.phase = .reclose
  pointer : a.pointer < (collection ctx .lr0).length
  settled : IsSettled ctx a
  closed  : ∀ j n, j < a.pointer → a.nodes[j]? = some n →
    Completes ctx .lr1 n.items.kernel n.items.closure

-- Where the construction is does not matter to what is known.
theorem IsSound.move (h : IsSound ctx a) {pointer passes : Nat} {phase : Phase} :
    IsSound ctx { a with pointer, passes, phase } :=
  h.congr rfl rfl (fun _ => rfl) (fun _ n hn => ⟨n, hn, rfl, rfl⟩) h.links

theorem propagating_eq {phase : Phase} (h : IsSound ctx a) (hp : a.phase = phase)
    (hlt : a.pointer < (collection ctx .lr0).length) :
    ∃ n, a.nodes[a.pointer]? = some n ∧ a.propagating phase = .ok n := by
  obtain ⟨n, hn, hnode⟩ := h.getElem?_nodes (q := ⟨a.pointer⟩) hlt
  have hnode := node_eq_ok_iff.mpr hnode
  refine ⟨n, hn, ?_⟩
  simp [propagating, expectAlgorithm, h.algorithm, expectPhase, hp, hnode, bind, Except.bind]

namespace Surveying

-- The survey of the state under the pointer succeeds.
theorem exists_survey (hg : ctx.grammar.WellFormed) (h : Surveying ctx a) : ∃ s,
    Survey.kernel ctx ⟨a.pointer⟩ ⟨a, [], []⟩ 0 ((kernelIn ctx .lr0 ⟨a.pointer⟩).map Item.core) =
      (s, .ok ()) ∧
    a.step ctx = (s.automaton.advancePointer .propagate,
      .ok (.spontaneous ⟨⟨a.pointer⟩, s.generated.reverse, s.links.reverse⟩)) ∧
    IsSound ctx s.automaton ∧ Advances a s.automaton ∧
    IsSurveyed ctx s.automaton (a.pointer + 1) := by
  have hlt := h.pointer
  obtain ⟨n, hn, hnode⟩ := propagating_eq h.toIsSound h.phase hlt
  have hkernel : a.kernelItems ⟨a.pointer⟩ = n.items.kernel := by simp [kernelItems, hn]
  have hcores := h.cores ⟨a.pointer⟩
  rw [hkernel] at hcores
  have hdrop : ((kernelIn ctx .lr0 ⟨a.pointer⟩).map Item.core).drop 0 = _ := List.drop_zero
  obtain ⟨s, hs, hsound, hadvances, hdelivered⟩ :=
    Survey.kernel_spec (s := ⟨a, [], []⟩) hg hlt h.toIsSound hdrop
  refine ⟨s, hs, ?_, hsound, hadvances, fun r k href hr d t hl => ?_⟩
  · simp [Automaton.step, h.phase, spontaneousStep, hnode, hcores, hs, Except.map]
  · cases Nat.lt_or_eq_of_le (Nat.le_of_lt_succ hr)
    case inl hr => exact (h.surveyed r k href hr d t hl).mono hadvances
    case inr hr => exact hdelivered r k (congrArg StateId.mk hr) href (Nat.zero_le _) d t hl

theorem step (hg : ctx.grammar.WellFormed) (h : Surveying ctx a) :
    ¬ a.IsDone ∧ 0 < (collection ctx .lr0).length - a.pointer ∧
      ∃ b done, a.step ctx = (b, .ok done) ∧ (Passing ctx b ∨ (Surveying ctx b ∧
        (collection ctx .lr0).length - b.pointer < (collection ctx .lr0).length - a.pointer)) := by
  have hlt := h.pointer
  obtain ⟨s, _, hstep, hsound, hadvances, hsurveyed⟩ := h.exists_survey hg
  have hpointer : s.automaton.pointer = a.pointer := hadvances.pointer
  have hphase : s.automaton.phase = .spontaneous := hadvances.phase.trans h.phase
  refine ⟨by simp [IsDone, h.phase], by omega, _, _, hstep, ?_⟩
  rw [advancePointer, hsound.size, hpointer]
  split
  case isTrue hle =>
    refine .inl ⟨hsound.move, rfl, ?_⟩
    exact fun r k href hr => hsurveyed r k href (hr.trans_le hle)
  case isFalse hgt =>
    exact .inr ⟨⟨hsound.move, hphase, Nat.lt_of_not_le hgt, hsurveyed⟩, by simp; omega⟩

end Surveying

namespace Passing

theorem hasLink_effectsInOrder {x y : KernelRef} :
    HasLink a.effectsInOrder x y ↔ HasLink a.effects x y := by
  simp only [HasLink, effectsInOrder, List.mem_reverse, List.mem_map, Prod.exists, Prod.mk.injEq]
  constructor
  case mp =>
    rintro ⟨_, ⟨_, targets, hm, hx, he⟩, hy⟩
    subst hx he
    exact ⟨targets, hm, List.mem_reverse.mp hy⟩
  case mpr =>
    rintro ⟨targets, hm, hy⟩
    exact ⟨_, ⟨x, targets, hm, rfl, rfl⟩, List.mem_reverse.mpr hy⟩

-- When all links are satisfied, the kernels are closed under transitions.
theorem isSettled (hg : ctx.grammar.WellFormed) (h : Passing ctx a)
    (hlinks : ∀ s t, HasLink a.effects s t → a.kernelLookaheads s ⊆ a.kernelLookaheads t) :
    IsSettled ctx a := by
  intro q d t x hq hl hx
  have hkernel := isKernel_kernelItems hg h.toIsSound hq
  have hmarker : t ≠ .marker := by
    have hp := hl.forall_of_kernel hg (fun _ => id) hkernel.terminals
    exact (Vocabulary.mem_inputTerminals.mp hp).right
  obtain ⟨i, hi, hl⟩ := hl.exists_singleton
  obtain ⟨j, hj⟩ := List.mem_iff_getElem?.mp hi
  have href : IsRef ctx ⟨q, j⟩ i.core := by
    have hcores := h.cores q
    rw [IsRef, ← List.getElem?_map, ← hcores, List.getElem?_map, hj]
    rfl
  have hdelivered := h.surveyed ⟨q, j⟩ i.core href hq
  have hitem : i = ⟨i.core, some i.lookaheadSet⟩ := by
    rw [← lookaheads_eq_some <| h.kinds q i hi]
  rw [hitem, looksAhead_iff_marked hg hmarker] at hl
  cases hl
  case inl hl => simpa [hmarker] using hdelivered d t hl x hx
  case inr hl =>
    obtain ⟨ht, hl⟩ := hl
    have hlink := hdelivered d .marker hl x hx
    rw [if_pos rfl] at hlink
    obtain ⟨r, hr, hstate, href'⟩ := hlink
    have hsub := TerminalSet.subset_iff.mp (hlinks _ _ hr) t
    rw [mem_kernelLookaheads hg h.toIsShaped href, mem_kernelLookaheads hg h.toIsShaped href',
      hstate] at hsub
    exact hsub ⟨i, hi, rfl, ht⟩

def work (ctx : Context) (a : Automaton) : Nat :=
  (collection ctx .lr0).length * (kernelMarks ctx.grammar).card + 1 - (known ctx a).card

theorem step_eq (h : Passing ctx a) :
    let p := passAllOn { a with passes := a.passes + 1 } a.effectsInOrder
    let b := if p.2 = [] then { p.1 with pointer := 0, phase := .reclose } else p.1
    a.step ctx = (b, .ok (.propagate ⟨b.passes, p.2⟩)) := by
  have halg : a.expectAlgorithm .lalrByPropagation = .ok () := by
    simp [expectAlgorithm, h.algorithm]
  have hphase : a.expectPhase .propagate = .ok () := by simp [expectPhase, h.phase]
  intro p
  have hp : passAllOn { a with passes := a.passes + 1 } a.effectsInOrder = p := rfl
  obtain ⟨b, grown⟩ := p
  intro b'
  have hpass : a.propagationPass = .ok (b', ⟨b'.passes, grown⟩) := by
    simp only [propagationPass, halg, hphase, hp, bind, Except.bind, pure, Except.pure]
    rfl
  rw [Automaton.step, h.phase]
  simp only [hpass, Except.map, attempt, Prod.map, id]

theorem step (hg : ctx.grammar.WellFormed) (h : Passing ctx a) :
    ¬ a.IsDone ∧ 0 < work ctx a ∧ ∃ b done, a.step ctx = (b, .ok done) ∧
      (Reclosing ctx b ∨ (Passing ctx b ∧ work ctx b < work ctx a)) := by
  have hle := known_card_le ctx a
  have hpassed := passAllOn_spec (a := { a with passes := a.passes + 1 }) hg h.move
    fun s t hst => h.links s t <| hasLink_effectsInOrder.mp hst
  have hstep := h.step_eq
  refine ⟨by simp [IsDone, h.phase], by unfold work; omega, _, _, hstep, ?_⟩
  generalize passAllOn { a with passes := a.passes + 1 } a.effectsInOrder = p at hpassed
  obtain ⟨b, grown⟩ := p
  dsimp only at hpassed ⊢
  split
  case isTrue hnil =>
    obtain ⟨hb, hlinks⟩ := hpassed.unchanged hnil
    have hb : b = { a with passes := a.passes + 1 } := hb
    subst hb
    have hsettled : IsSettled ctx a := h.isSettled hg fun s t hst =>
      hlinks s t <| hasLink_effectsInOrder.mpr hst
    refine .inl ⟨h.move, rfl, length_collection_pos hg, hsettled, ?_⟩
    exact fun j n hj => absurd hj (Nat.not_lt_zero j)
  case isFalse hne =>
    have hsound := hpassed.sound
    have hadvances := hpassed.advances
    have hlt := known_card_lt hg hsound hadvances (hpassed.outgrows hne) h.move.toIsShaped
    have hlt : (known ctx a).card < (known ctx b).card := hlt
    have hle' := known_card_le ctx b
    refine .inr ⟨⟨hsound, hadvances.phase.trans h.phase, ?_⟩, by unfold work; omega⟩
    exact fun r k href hr d t hl => (h.surveyed r k href hr d t hl).mono hadvances

end Passing

theorem IsSettled.congr (h : IsSettled ctx a) (hitems : ∀ q, b.kernelItems q = a.kernelItems q) :
    IsSettled ctx b := by
  intro q d t x hq hl hx
  rw [hitems] at hl ⊢
  exact h q d t x hq hl hx

-- Settled kernels look ahead to exactly the lookaheads.
theorem IsSettled.looksAhead_iff (hg : ctx.grammar.WellFormed) (hs : IsSettled ctx a)
    (h : IsSound ctx a) (hq : q.number < (collection ctx .lr0).length) :
    LooksAhead ctx (a.kernelItems q) d t ↔ IsLookahead ctx q d t := by
  constructor
  case mp =>
    refine .of_looksAhead hg hq ?_ (h.lookaheads q)
    rw [h.cores]
    exact List.map_subset _ (completes_closureIn hg hq).subset.subset
  case mpr =>
    refine fun l => l.looksAhead hg (fun q _ => ?_) h.start hs
    rw [h.cores]
    exact List.Subset.refl _

section Replacement

variable {s : ItemSet}

theorem getElem?_replace (hn : a.nodes[q.number]? = some n) (j : Nat) :
    (a.modifyItems q fun _ => s).nodes[j]? =
      if q.number = j then some { n with items := s } else a.nodes[j]? := by
  simp only [modifyItems, modifyNode, Array.getElem?_modify]
  split
  case isTrue hj => simp [← hj, hn]
  case isFalse => rfl

theorem kernelItems_replace {p : StateId} (hn : a.nodes[q.number]? = some n)
    (hs : s.kernel = n.items.kernel) :
    (a.modifyItems q fun _ => s).kernelItems p = a.kernelItems p := by
  rw [kernelItems, kernelItems, getElem?_replace hn]
  split
  case isTrue hq =>
    rw [← hq, hn]
    exact hs
  case isFalse => rfl

-- What is known of an automaton is not about the closures.
theorem IsSound.replace (h : IsSound ctx a) (hn : a.nodes[q.number]? = some n)
    (hs : s.kernel = n.items.kernel) : IsSound ctx (a.modifyItems q fun _ => s) := by
  refine h.congr rfl size_modifyNode (fun _ => kernelItems_replace hn hs) (fun j m hm => ?_) h.links
  rw [getElem?_replace hn] at hm
  split at hm
  case isTrue hj =>
    cases hm
    exact ⟨n, hj ▸ hn, rfl, rfl⟩
  case isFalse => exact ⟨m, hm, rfl, rfl⟩

end Replacement

namespace Reclosing

theorem kernelItems_eq {n : Node} (hn : a.node? q = some n) : a.kernelItems q = n.items.kernel := by
  simp [kernelItems, (node?_eq_some_iff.mp hn).left]

theorem propagated (hg : ctx.grammar.WellFormed) (h : IsSound ctx a) (hdone : a.IsDone)
    (hs : IsSettled ctx a) (hclosed : ∀ (j : Nat) n, a.nodes[j]? = some n →
      Completes ctx .lr1 n.items.kernel n.items.closure) : Propagated ctx a where
  algorithm    := h.algorithm
  done         := hdone
  size         := h.size
  live         := h.live
  edges hn     := h.edges (node?_eq_some_iff.mp hn).left
  cores hn     := kernelItems_eq hn ▸ h.cores _
  completes hn := hclosed _ _ (node?_eq_some_iff.mp hn).left
  lookaheads   := by
    intro q n hn c t
    have hget := (node?_eq_some_iff.mp hn).left
    have hlt : q.number < (collection ctx .lr0).length :=
      h.size ▸ (Array.getElem?_eq_some_iff.mp hget).choose
    rw [(hclosed _ _ hget).covers rfl, ← kernelItems_eq hn, hs.looksAhead_iff hg h hlt]

-- The state under the pointer gets a complete closure.
theorem exists_closed (hg : ctx.grammar.WellFormed) (h : Reclosing ctx a) : ∃ n s done,
    a.nodes[a.pointer]? = some n ∧ s.kernel = n.items.kernel ∧
      Completes ctx .lr1 s.kernel s.closure ∧
      a.step ctx = ((a.modifyItems ⟨a.pointer⟩ fun _ => s).advancePointer .done, .ok done) := by
  obtain ⟨n, hn, hnode⟩ := propagating_eq h.toIsSound h.phase h.pointer
  have hkernel : a.kernelItems ⟨a.pointer⟩ = n.items.kernel := by simp [kernelItems, hn]
  have k := isKernel_kernelItems hg h.toIsSound (q := ⟨a.pointer⟩) h.pointer
  rw [hkernel] at k
  obtain ⟨s, steps, hs, cl, hclosed⟩ := computeClosure_ofKernel hg k.kinds
  have hcompletes := cl.completes_mergeLookaheads hg k hclosed
  have hsame : s.mergeLookaheads.1.kernel = n.items.kernel := cl.kernel_eq
  refine ⟨n, s.mergeLookaheads.1, .reclose ⟨⟨a.pointer⟩, steps.length, s.mergeLookaheads.2⟩, hn,
    hsame, hsame.symm ▸ hcompletes, ?_⟩
  simp [Automaton.step, h.phase, recloseStep, hnode, ItemSet.reset, hs, bind, Except.bind, pure,
    Except.pure, Except.mapError, Except.map, attempt]

-- The states before the pointer have complete closures, and nothing else changes.
theorem step (hg : ctx.grammar.WellFormed) (h : Reclosing ctx a) :
    ¬ a.IsDone ∧ 0 < (collection ctx .lr0).length - a.pointer ∧
      ∃ b done, a.step ctx = (b, .ok done) ∧ (Propagated ctx b ∨ (Reclosing ctx b ∧
        (collection ctx .lr0).length - b.pointer < (collection ctx .lr0).length - a.pointer)) := by
  have hlt := h.pointer
  obtain ⟨n, s, done, hn, hkernel, hcompletes, hstep⟩ := h.exists_closed hg
  refine ⟨by simp [IsDone, h.phase], by omega, _, done, hstep, ?_⟩
  let b := a.modifyItems ⟨a.pointer⟩ fun _ => s
  have hsound : IsSound ctx b := h.toIsSound.replace hn hkernel
  have hsettled : IsSettled ctx b := h.settled.congr fun _ => kernelItems_replace hn hkernel
  have hclosed : ∀ j m, j < a.pointer + 1 → b.nodes[j]? = some m →
      Completes ctx .lr1 m.items.kernel m.items.closure := by
    intro j m hj hm
    rw [getElem?_replace hn] at hm
    split at hm
    case isTrue =>
      cases hm
      exact hcompletes
    case isFalse hne =>
      have hne : a.pointer ≠ j := hne
      exact h.closed j m (by omega) hm
  have hsize : b.nodes.size = (collection ctx .lr0).length := hsound.size
  have hphase : b.phase = .reclose := h.phase
  have hpointer : b.pointer = a.pointer := rfl
  rw [advancePointer, hpointer, hsize]
  split
  case isTrue hle =>
    refine .inl <| propagated hg hsound.move rfl hsettled fun j m hm => hclosed j m ?_ hm
    have hj : j < b.nodes.size := (Array.getElem?_eq_some_iff.mp hm).choose
    exact (hsize ▸ hj).trans_le hle
  case isFalse hgt =>
    exact .inr ⟨⟨hsound.move, hphase, Nat.lt_of_not_le hgt, hsettled, hclosed⟩, by simp; omega⟩

end Reclosing

theorem enterState_eq_startPropagation (h : Collected ctx .lalrByPropagation a) :
    a.enterState = a.startPropagation := by
  simp [enterState, h.pointer, h.algorithm]

-- The survey begins when every state has been expanded.
theorem surveying_enterState (hg : ctx.grammar.WellFormed)
    (h : Collected ctx .lalrByPropagation a) : Surveying ctx a.enterState := by
  rw [enterState_eq_startPropagation h]
  exact {
    toIsSound := startPropagation_isSound hg h
    phase     := rfl
    pointer   := length_collection_pos hg
    surveyed  := fun _ _ _ hr => absurd hr (Nat.not_lt_zero _) }

-- The three phases lead from the canonical LR(0) automaton to the one with lookaheads.
theorem exists_reaches_propagated (hg : ctx.grammar.WellFormed)
    (h : Collected ctx .lalrByPropagation a) : ∃ b n, Reaches ctx a.enterState n b ∧
      Propagated ctx b ∧ n ≤ (collection ctx .lr0).length +
        ((collection ctx .lr0).length * (kernelMarks ctx.grammar).card + 1) +
        (collection ctx .lr0).length := by
  have hstart := surveying_enterState hg h
  obtain ⟨b, i, hb, hpassing, hi⟩ := Reaches.of_work (fun _ => Surveying.step hg) hstart
  obtain ⟨c, j, hc, hreclosing, hj⟩ := Reaches.of_work (fun _ => Passing.step hg) hpassing
  obtain ⟨d, k, hd, hpropagated, hk⟩ := Reaches.of_work (fun _ => Reclosing.step hg) hreclosing
  refine ⟨d, i + j + k, (hb.trans hc).trans hd, hpropagated, ?_⟩
  unfold Passing.work at hj
  omega

end ShiftReduce
