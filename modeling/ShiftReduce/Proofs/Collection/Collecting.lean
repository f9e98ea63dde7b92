import ShiftReduce.Proofs.Collection.Connection
import ShiftReduce.Proofs.Construction.Reach

namespace ShiftReduce

open Exploration Automaton

def edgesOf (ctx : Context) (kind : ItemKind) (kernel : List Item) : List Edge :=
  (successorsOf ctx kind kernel).map (edgeTo <| collection ctx kind)

structure IsCollected (ctx : Context) (kind : ItemKind) (n : Node) : Prop where
  live    : n.live = true
  closed  : n.items.closed = true
  closure : n.items.closure = closureOf ctx kind n.items.kernel
  edges   : n.edges = edgesOf ctx kind n.items.kernel

-- What holds of the state under the pointer, depending on what is to be done next.
def IsCurrent (ctx : Context) (kind : ItemKind) (s : ItemSet) : Phase → Prop
  | .closure         => Closing ctx kind s.kernel s ∧ s.closed = false
  | .mergeLookaheads => kind = .lr1 ∧ Closing ctx kind s.kernel s ∧ s.closed = true
  | .goto            => s.closed = true ∧ s.closure = closureOf ctx kind s.kernel
  | _                => False

-- The states before the pointer have been expanded, and those from `fresh` on are as they were
-- created.
structure Frontier (ctx : Context) (alg : Algorithm) (a : Automaton) (fresh : Nat) : Prop where
  algorithm : a.algorithm = alg
  effects   : a.effects = []
  redirects : a.redirects = []
  kernels   : kernelsOf a.nodes = explore List.toFinset (nextKernels ctx alg.itemKind)
    [[.start alg.itemKind]] a.pointer
  live      : ∀ n ∈ a.nodes, n.live = true
  collected : ∀ j n, j < a.pointer → a.nodes[j]? = some n → IsCollected ctx alg.itemKind n
  fresh     : ∀ j n, fresh ≤ j → a.nodes[j]? = some n → n = freshNode ctx.grammar n.items.kernel

-- The kernels are those of the exploration so far, the states before the pointer are finished,
-- those behind it are fresh.
structure Collecting (ctx : Context) (alg : Algorithm) (a : Automaton) : Prop
    extends Frontier ctx alg a (a.pointer + 1) where
  current : ∃ n, a.nodes[a.pointer]? = some n ∧ IsCurrent ctx alg.itemKind n.items a.phase

-- Every state has been expanded.
structure Collected (ctx : Context) (alg : Algorithm) (a : Automaton) : Prop where
  algorithm : a.algorithm = alg
  effects   : a.effects = []
  redirects : a.redirects = []
  kernels   : kernelsOf a.nodes = collection ctx alg.itemKind
  pointer   : a.nodes[a.pointer]? = none
  nodes     : ∀ n ∈ a.nodes, IsCollected ctx alg.itemKind n

variable {ctx : Context} {alg : Algorithm} {kind : ItemKind} {kernel : List Item}
  {a : Automaton} {n : Node} {s : ItemSet}

section Steps

theorem step_closure_eq {step : ClosureStep} (hp : a.phase = .closure)
    (hn : a.nodes[a.pointer]? = some n) (hl : n.live = true)
    (hs : n.items.closureStep ctx a.algorithm.itemKind = .ok (s, step)) :
    ∃ done, a.step ctx = ({ a.modifyItems ⟨a.pointer⟩ (fun _ => s) with
      phase := if s.closed then (if a.algorithm.itemKind = .lr0 then .goto else .mergeLookaheads)
        else .closure }, .ok done) := by
  have hnode : a.node ⟨a.pointer⟩ = .ok n := by simp [node_eq_ok_iff, node?, hn, hl]
  refine ⟨.closure ⟨a.pointer⟩ step, ?_⟩
  simp [Automaton.step, hp, Automaton.closureStep, hnode, hs, attempt, bind, Except.bind,
    Except.mapError, modifyItems, modifyNode, pure, Except.pure]

theorem step_mergeLookaheads_eq (ctx : Context) (hp : a.phase = .mergeLookaheads)
    (hn : a.nodes[a.pointer]? = some n) (hl : n.live = true) :
    ∃ done, a.step ctx = ({ a.modifyItems ⟨a.pointer⟩ (fun _ => n.items.mergeLookaheads.1) with
      phase := .goto }, .ok done) := by
  have hnode : a.node ⟨a.pointer⟩ = .ok n := by simp [node_eq_ok_iff, node?, hn, hl]
  refine ⟨.mergeLookaheads ⟨a.pointer⟩ n.items.mergeLookaheads.2, ?_⟩
  simp [Automaton.step, hp, mergeLookaheadsStep, hnode, attempt, bind, Except.bind, pure,
    Except.pure]

theorem step_goto_eq (ctx : Context) (hp : a.phase = .goto)
    (hn : a.nodes[a.pointer]? = some n) (hl : n.live = true) :
    let c := connect ctx.grammar a.algorithm.itemKind a.nodes
      (Successor.ofClosure ctx.grammar n.items.closure)
    ∃ done, a.step ctx = (enterState { a with
      nodes   := c.1.modify a.pointer fun n => { n with edges := c.2.map (·.1) }
      pointer := a.pointer + 1 }, .ok done) := by
  intro c
  have hnode : a.node ⟨a.pointer⟩ = .ok n := by simp [node_eq_ok_iff, node?, hn, hl]
  refine ⟨.goto ⟨⟨a.pointer⟩, c.2.map fun e => (e.1.symbol, e.1.target, e.2)⟩, ?_⟩
  simp [Automaton.step, hp, gotoStep, expectPhase, hnode, attempt, bind, Except.bind, pure,
    Except.pure, Except.map, modifyNode, c]

end Steps

theorem closed_start (hg : ctx.grammar.WellFormed) :
    (ItemSet.ofKernel ctx.grammar [.start kind]).closed = false := by
  have hend : ¬ (Item.start kind).IsEnd ctx.grammar := by
    cases kind <;> simp [Item.IsEnd, Core.IsEnd, Item.start, hg.right_accept]
  simp [ItemSet.ofKernel, hend]

-- A fresh state without anything to expand is complete as it is.
theorem isCurrent_fresh (hg : ctx.grammar.WellFormed) (k : IsKernel ctx.grammar kind kernel) :
    IsCurrent ctx kind (.ofKernel ctx.grammar kernel)
      (if (ItemSet.ofKernel ctx.grammar kernel).closed then .goto else .closure) := by
  have cl : Closing ctx kind kernel (.ofKernel ctx.grammar kernel) := .init k.kinds
  split
  case isTrue hclosed =>
    have hcompletes := cl.completes hclosed <| by simpa using k.nodup
    refine ⟨hclosed, ?_⟩
    simpa using hcompletes.unique (closureOf_completes hg k) k.nodup
  case isFalse hopen => simpa [IsCurrent, hopen] using cl

namespace Frontier

variable {fresh : Nat}

theorem isKernel (hg : ctx.grammar.WellFormed) (h : Frontier ctx alg a fresh) (hn : n ∈ a.nodes) :
    IsKernel ctx.grammar alg.itemKind n.items.kernel := by
  refine isKernel_of_mem_explore hg (i := a.pointer) ?_
  exact h.kernels ▸ List.mem_map_of_mem (Array.mem_toList_iff.mpr hn)

-- The next state becomes the current one, unless all states have been expanded.
theorem enter (hg : ctx.grammar.WellFormed) (h : Frontier ctx alg a a.pointer) :
    (Collecting ctx alg a.enterState ∧ a.enterState.pointer = a.pointer) ∨ Collected ctx alg a := by
  cases hn : a.nodes[a.pointer]?
  case none =>
    have hsize := Array.getElem?_eq_none_iff.mp hn
    refine .inr ⟨h.algorithm, h.effects, h.redirects, ?_, hn, fun n hm => ?_⟩
    · refine IsExplored.unique ?_ (collection_isExplored hg)
      exact ⟨a.pointer, h.kernels.symm, by simpa using hsize⟩
    · obtain ⟨j, hj⟩ := Array.mem_iff_getElem?.mp hm
      have := (Array.getElem?_eq_some_iff.mp hj).choose
      exact h.collected j n (by omega) hj
  case some n =>
    have hcurrent := isCurrent_fresh hg <| h.isKernel hg <| Array.mem_of_getElem? hn
    have hfresh := h.fresh _ n (Nat.le_refl _) hn
    have hitems : n.items = .ofKernel ctx.grammar n.items.kernel := congrArg Node.items hfresh
    rw [← hitems] at hcurrent
    have henter : a.enterState =
        { a with phase := if n.items.closed then .goto else .closure } := by
      simp [enterState, hn]
    rw [henter]
    exact .inl ⟨{ h with
      fresh   := fun j m hj => h.fresh j m (Nat.le_of_succ_le hj)
      current := ⟨n, hn, hcurrent⟩ }, rfl⟩

end Frontier

namespace Collecting

theorem init (hg : ctx.grammar.WellFormed) : Collecting ctx alg (initial ctx alg) where
  algorithm := rfl
  effects   := rfl
  redirects := rfl
  kernels   := by simp [initial, kernelsOf, explore]
  live      := by simp [initial]
  collected := by simp [initial]
  fresh j n := by
    intro hj hn
    have := (Array.getElem?_eq_some_iff.mp hn).choose
    simp [initial] at hj this
    omega
  current   := by
    refine ⟨_, rfl, ?_⟩
    have k : IsKernel ctx.grammar alg.itemKind [.start alg.itemKind] := IsKernel.start hg
    have h := isCurrent_fresh hg k
    rwa [closed_start hg] at h

-- Work on the state under the pointer leaves all others alone.
theorem modify {phase : Phase} (h : Collecting ctx alg a) (hn : a.nodes[a.pointer]? = some n)
    (hk : s.kernel = n.items.kernel) (hs : IsCurrent ctx alg.itemKind s phase) :
    Collecting ctx alg { a.modifyItems ⟨a.pointer⟩ (fun _ => s) with phase } where
  algorithm := h.algorithm
  effects   := h.effects
  redirects := h.redirects
  kernels   := by
    refine Eq.trans (kernelsOf_modify fun m hm => ?_) h.kernels
    cases hn.symm.trans hm
    exact hk
  live      := live_modifyNode (f := fun n => { n with items := s }) h.live fun _ => rfl
  collected j m hj hm := by
    have hne : a.pointer ≠ j := Nat.ne_of_gt hj
    rw [modifyItems, modifyNode, Array.getElem?_modify, if_neg hne] at hm
    exact h.collected j m hj hm
  fresh j m hj hm := by
    have hne : a.pointer ≠ j := Nat.ne_of_lt hj
    rw [modifyItems, modifyNode, Array.getElem?_modify, if_neg hne] at hm
    exact h.fresh j m hj hm
  current   := by
    refine ⟨{ n with items := s }, ?_, hs⟩
    simp [modifyItems, modifyNode, Array.getElem?_modify, hn]

-- With the connection of the state under the pointer, the exploration expands one kernel more.
theorem connect_spec (hg : ctx.grammar.WellFormed) (h : Collecting ctx alg a)
    (hn : a.nodes[a.pointer]? = some n)
    (hc : n.items.closure = closureOf ctx alg.itemKind n.items.kernel) :
    let c := Automaton.connect ctx.grammar alg.itemKind a.nodes
      (Successor.ofClosure ctx.grammar n.items.closure)
    (∃ added : List (List Item),
        c.1.toList = a.nodes.toList ++ added.map (freshNode ctx.grammar)) ∧
      kernelsOf c.1 = explore List.toFinset (nextKernels ctx alg.itemKind)
        [[.start alg.itemKind]] (a.pointer + 1) ∧
      c.2.map (·.1) = edgesOf ctx alg.itemKind n.items.kernel := by
  have k := h.isKernel hg <| Array.mem_of_getElem? hn
  have hsuccs : ∀ s ∈ Successor.ofClosure ctx.grammar n.items.closure,
      IsKernel ctx.grammar alg.itemKind s.kernel := by
    intro s hs
    rw [hc] at hs
    exact isKernel_of_mem_nextKernels hg k <| List.mem_map_of_mem hs
  obtain ⟨hadded, hkernels, hedges⟩ :=
    ShiftReduce.connect_spec h.live (fun _ => h.isKernel hg) hsuccs
  have hget : (kernelsOf a.nodes)[a.pointer]? = some n.items.kernel := by
    simp [kernelsOf_getElem?, hn]
  have hexplore := explore_succ_of_getElem? (h.kernels ▸ hget)
  rw [← h.kernels, nextKernels, successorsOf, ← hc, ← hkernels] at hexplore
  refine ⟨hadded, hexplore.symm, ?_⟩
  have hp := hexplore ▸ (collection_isExplored hg).explore_isPrefix
  exact (hedges _ hp).trans <| by rw [hc, edgesOf, successorsOf]

-- The connection of the state under the pointer finishes it.
theorem connect (hg : ctx.grammar.WellFormed) (h : Collecting ctx alg a)
    (hn : a.nodes[a.pointer]? = some n) (hclosed : n.items.closed = true)
    (hc : n.items.closure = closureOf ctx alg.itemKind n.items.kernel) :
    let c := Automaton.connect ctx.grammar alg.itemKind a.nodes
      (Successor.ofClosure ctx.grammar n.items.closure)
    Frontier ctx alg { a with
      nodes   := c.1.modify a.pointer fun n => { n with edges := c.2.map (·.1) }
      pointer := a.pointer + 1 } (a.pointer + 1) := by
  intro c
  have hmem := Array.mem_of_getElem? hn
  have hlt : a.pointer < a.nodes.size := (Array.getElem?_eq_some_iff.mp hn).choose
  obtain ⟨⟨added, hadded⟩, hexplore, hedges⟩ := h.connect_spec hg hn hc
  have hold {j : Nat} (hj : j < a.nodes.size) : c.1[j]? = a.nodes[j]? :=
    getElem?_of_added hadded hj
  constructor
  case algorithm => exact h.algorithm
  case effects   => exact h.effects
  case redirects => exact h.redirects
  case kernels =>
    refine Eq.trans (kernelsOf_modify ?_) hexplore
    exact fun _ _ => rfl
  case live =>
    let connected := { a with nodes := c.1 }
    have hlive : ∀ m ∈ connected.nodes, m.live = true := live_of_added hadded h.live
    exact live_modifyNode (q := ⟨a.pointer⟩) hlive fun _ => rfl
  case collected =>
    intro j m hj hm
    rw [Array.getElem?_modify] at hm
    split at hm
    case isTrue heq =>
      subst heq
      rw [hold hlt, hn] at hm
      cases hm
      exact ⟨h.live n hmem, hclosed, hc, hedges⟩
    case isFalse hne =>
      have hj : j < a.pointer := Nat.lt_of_le_of_ne (Nat.le_of_lt_succ hj) (Ne.symm hne)
      exact h.collected j m hj <| hold (hj.trans hlt) ▸ hm
  case fresh =>
    intro j m hj hm
    have hne : a.pointer ≠ j := Nat.ne_of_lt hj
    rw [Array.getElem?_modify, if_neg hne] at hm
    cases Nat.lt_or_ge j a.nodes.size
    case inl hlt => exact h.fresh j m hj <| hold hlt ▸ hm
    case inr hge => exact eq_freshNode_of_added hadded hge hm

end Collecting

section Work

-- A closure has fewer items than this.
def closureCap (g : Grammar) : Nat :=
  (validCores g).toFinset.card + (kernelMarks g).card

-- What a state may still take in a phase, and what all states behind a place take together.
def stateWork (g : Grammar) (s : ItemSet) : Phase → Nat
  | .closure         => closureCap g + 2 - s.searched
  | .mergeLookaheads => 2
  | _                => 1

def workBehind (g : Grammar) (place : Nat) : Nat :=
  (2 ^ (kernelMarks g).card - place - 1) * (closureCap g + 3)

def collectingWork (ctx : Context) (a : Automaton) : Nat :=
  workBehind ctx.grammar a.pointer +
    match a.nodes[a.pointer]? with
    | some n => stateWork ctx.grammar n.items a.phase
    | none   => 0

theorem stateWork_le (ctx : Context) (s : ItemSet) (phase : Phase) :
    stateWork ctx.grammar s phase ≤ closureCap ctx.grammar + 2 := by
  cases phase <;> simp [stateWork]

theorem collectingWork_modify {phase : Phase} (hn : a.nodes[a.pointer]? = some n) :
    collectingWork ctx { a.modifyItems ⟨a.pointer⟩ (fun _ => s) with phase } =
      workBehind ctx.grammar a.pointer + stateWork ctx.grammar s phase := by
  simp [collectingWork, modifyItems, modifyNode, Array.getElem?_modify, hn]

theorem IsKernel.closureMarks_subset (k : IsKernel ctx.grammar kind kernel) :
    closureMarks ctx kernel ⊆ kernelMarks ctx.grammar := by
  refine Finset.product_subset_product ?_ <| Finset.insertNone.monotone ?_
  · intro c hc
    obtain ⟨r, hr, hrc⟩ := List.mem_map.mp <| List.mem_toFinset.mp hc
    subst hrc
    exact List.mem_toFinset.mpr <| mem_validCores.mpr ⟨Grammar.mem_ruleIds.mp hr, Nat.zero_le _⟩
  · intro t ht
    cases List.mem_append.mp <| List.mem_toFinset.mp ht
    case inl ht => exact List.mem_toFinset.mpr ht
    case inr ht =>
      obtain ⟨i, hi, hit⟩ := List.mem_flatMap.mp ht
      have := k.terminals i.core t ⟨i, hi, rfl, TerminalSet.mem_toList.mp hit⟩
      exact List.mem_toFinset.mpr <| Vocabulary.mem_terminalIds.mpr
        (Vocabulary.mem_inputTerminals.mp this).left

theorem IsKernel.length_le (k : IsKernel ctx.grammar kind kernel) :
    kernel.length ≤ (validCores ctx.grammar).toFinset.card := by
  rw [← List.length_map Item.core, ← List.toFinset_card_of_nodup k.nodup]
  refine Finset.card_le_card fun c hc => ?_
  obtain ⟨i, hi, hic⟩ := List.mem_map.mp <| List.mem_toFinset.mp hc
  exact hic ▸ List.mem_toFinset.mpr (mem_validCores.mpr ⟨k.rules i hi, k.dots i hi⟩)

theorem Closing.length_le_closureCap (k : IsKernel ctx.grammar kind kernel)
    (cl : Closing ctx kind kernel s) : s.closure.length ≤ closureCap ctx.grammar := by
  have hmarks : marks (closureMarks ctx kernel) s.closure ≤ (kernelMarks ctx.grammar).card :=
    (Finset.card_filter_le ..).trans <| Finset.card_le_card k.closureMarks_subset
  have := cl.length_le
  have := k.length_le
  unfold closureCap
  omega

end Work

namespace Collecting

theorem pointer_lt (hg : ctx.grammar.WellFormed) (h : Collecting ctx alg a) :
    a.pointer < 2 ^ (kernelMarks ctx.grammar).card := by
  obtain ⟨n, hn, _⟩ := h.current
  have hlt : a.pointer < (kernelsOf a.nodes).length := by
    simpa using (Array.getElem?_eq_some_iff.mp hn).choose
  rw [h.kernels] at hlt
  have hexplored : IsExplored _ _ _ (collection ctx alg.itemKind) := collection_isExplored hg
  have hp := hexplored.explore_isPrefix (i := a.pointer)
  exact Nat.lt_of_lt_of_le hlt <| hp.length_le.trans <| length_collection_le hg

-- A state that has just been entered takes less than a new state is reckoned to take.
theorem collectingWork_lt (hg : ctx.grammar.WellFormed) {b : Automaton} (h : Collecting ctx alg b)
    (hp : b.pointer = a.pointer + 1) :
    collectingWork ctx b < workBehind ctx.grammar a.pointer := by
  have hlt := h.pointer_lt hg
  have hwork : workBehind ctx.grammar a.pointer =
      workBehind ctx.grammar b.pointer + (closureCap ctx.grammar + 3) := by
    rw [workBehind, workBehind, ← Nat.succ_mul]
    congr 1
    omega
  obtain ⟨n, hn, _⟩ := h.current
  have := stateWork_le ctx n.items b.phase
  simp only [collectingWork, hn]
  omega

-- What comes after a closure step.
theorem isCurrent_of_closing (hg : ctx.grammar.WellFormed) (k : IsKernel ctx.grammar kind kernel)
    (cl : Closing ctx kind kernel s) : IsCurrent ctx kind s
      (if s.closed then (if kind = .lr0 then .goto else .mergeLookaheads) else .closure) := by
  have hclosing : Closing ctx kind s.kernel s := by rwa [cl.kernel_eq]
  cases hclosed : s.closed
  case false => simpa [IsCurrent, hclosed] using hclosing
  case true =>
    cases kind
    case lr0 =>
      simp only [if_true, IsCurrent, cl.kernel_eq, hclosed, true_and]
      exact (cl.completes_lr0 hclosed k.nodup).unique (closureOf_completes hg k) k.nodup
    case lr1 => simpa [IsCurrent, hclosed] using hclosing

-- What a step of the canonical phases comes to: it makes progress with the current state, or it
-- goes on to the next one, unless there is none.
def Progresses (ctx : Context) (alg : Algorithm) (a : Automaton) : Prop :=
  ¬ a.IsDone ∧ 0 < collectingWork ctx a ∧ ∃ b done, a.step ctx = (b, .ok done) ∧
    ((∃ c, Collected ctx alg c ∧ b = c.enterState) ∨
      (Collecting ctx alg b ∧ collectingWork ctx b < collectingWork ctx a))

theorem progresses_of_modify {phase : Phase} {done : ConstructionStep} (h : Collecting ctx alg a)
    (hdone : ¬ a.IsDone) (hn : a.nodes[a.pointer]? = some n) (hk : s.kernel = n.items.kernel)
    (hs : IsCurrent ctx alg.itemKind s phase)
    (hstep : a.step ctx = ({ a.modifyItems ⟨a.pointer⟩ (fun _ => s) with phase }, .ok done))
    (hwork : stateWork ctx.grammar s phase < stateWork ctx.grammar n.items a.phase) :
    Progresses ctx alg a := by
  have ha : collectingWork ctx a =
      workBehind ctx.grammar a.pointer + stateWork ctx.grammar n.items a.phase := by
    simp [collectingWork, hn]
  refine ⟨hdone, by omega, _, done, hstep, .inr ⟨h.modify hn hk hs, ?_⟩⟩
  rw [collectingWork_modify hn, ha]
  exact Nat.add_lt_add_left hwork _

theorem progresses_closure (hg : ctx.grammar.WellFormed) (h : Collecting ctx a.algorithm a)
    (hp : a.phase = .closure) (hn : a.nodes[a.pointer]? = some n)
    (hcurrent : IsCurrent ctx a.algorithm.itemKind n.items .closure) :
    Progresses ctx a.algorithm a := by
  have hmem := Array.mem_of_getElem? hn
  have k := h.isKernel hg hmem
  obtain ⟨cl, hopen⟩ := hcurrent
  obtain ⟨s, i, found, hs, cl', hsearched⟩ := cl.step hg hopen
  obtain ⟨done, hdone⟩ := step_closure_eq hp hn (h.live n hmem) hs
  refine h.progresses_of_modify (by simp [IsDone, hp]) hn cl'.kernel_eq
    (isCurrent_of_closing hg k cl') hdone ?_
  have hcap := cl'.length_le_closureCap k
  have hlt := cl'.searched_le
  have hwork : stateWork ctx.grammar n.items .closure =
      closureCap ctx.grammar + 2 - n.items.searched := rfl
  rw [hp, hwork]
  split
  case isTrue  => split <;> simp only [stateWork] <;> omega
  case isFalse => simp only [stateWork]; omega

theorem progresses_mergeLookaheads (hg : ctx.grammar.WellFormed)
    (h : Collecting ctx a.algorithm a) (hp : a.phase = .mergeLookaheads)
    (hn : a.nodes[a.pointer]? = some n)
    (hcurrent : IsCurrent ctx a.algorithm.itemKind n.items .mergeLookaheads) :
    Progresses ctx a.algorithm a := by
  have hmem := Array.mem_of_getElem? hn
  have k := h.isKernel hg hmem
  obtain ⟨hkind, cl, hclosed⟩ := hcurrent
  obtain ⟨done, hdone⟩ := step_mergeLookaheads_eq ctx hp hn (h.live n hmem)
  have hkernel : n.items.mergeLookaheads.1.kernel = n.items.kernel := rfl
  refine h.progresses_of_modify (by simp [IsDone, hp]) hn hkernel ?_ hdone <| by
    simp [hp, stateWork]
  rw [hkind] at cl k ⊢
  exact ⟨hclosed,
    (cl.completes_mergeLookaheads hg k hclosed).unique (closureOf_completes hg k) k.nodup⟩

theorem progresses_goto (hg : ctx.grammar.WellFormed) (h : Collecting ctx a.algorithm a)
    (hp : a.phase = .goto) (hn : a.nodes[a.pointer]? = some n)
    (hcurrent : IsCurrent ctx a.algorithm.itemKind n.items .goto) :
    Progresses ctx a.algorithm a := by
  have hwork : collectingWork ctx a = workBehind ctx.grammar a.pointer + 1 := by
    simp [collectingWork, hn, hp, stateWork]
  obtain ⟨done, hdone⟩ := step_goto_eq ctx hp hn (h.live n <| Array.mem_of_getElem? hn)
  refine ⟨by simp [IsDone, hp], by omega, _, done, hdone, ?_⟩
  cases (h.connect hg hn hcurrent.left hcurrent.right).enter hg
  case inl hc =>
    have := collectingWork_lt (a := a) hg hc.left hc.right
    exact .inr ⟨hc.left, by omega⟩
  case inr hc => exact .inl ⟨_, hc, rfl⟩

theorem step (hg : ctx.grammar.WellFormed) (h : Collecting ctx alg a) : Progresses ctx alg a := by
  have halg := h.algorithm
  subst halg
  obtain ⟨n, hn, hcurrent⟩ := h.current
  cases hp : a.phase
  all_goals rw [hp] at hcurrent
  case closure         => exact h.progresses_closure hg hp hn hcurrent
  case mergeLookaheads => exact h.progresses_mergeLookaheads hg hp hn hcurrent
  case goto            => exact h.progresses_goto hg hp hn hcurrent
  all_goals exact hcurrent.elim

end Collecting

namespace Collected

theorem size_eq (h : Collected ctx alg a) :
    a.nodes.size = (collection ctx alg.itemKind).length := by
  rw [← h.kernels, length_kernelsOf]

theorem getElem?_eq {j : Nat} (h : Collected ctx alg a) (hn : a.nodes[j]? = some n) :
    (collection ctx alg.itemKind)[j]? = some n.items.kernel := by
  rw [← h.kernels, kernelsOf_getElem?, hn]
  rfl

end Collected

-- The canonical phases end with the canonical collection.
theorem exists_reaches_collected (hg : ctx.grammar.WellFormed) (alg : Algorithm) : ∃ c n,
    Reaches ctx (initial ctx alg) n c.enterState ∧ Collected ctx alg c ∧
      n ≤ collectingWork ctx (initial ctx alg) := by
  have hinit : Collecting ctx alg (initial ctx alg) := Collecting.init hg
  obtain ⟨b, n, hr, ⟨c, hc, hb⟩, hn⟩ := Reaches.of_work
    (Q := fun b => ∃ c, Collected ctx alg c ∧ b = c.enterState) (fun _ => Collecting.step hg) hinit
  exact ⟨c, n, hb ▸ hr, hc, hn⟩

end ShiftReduce
