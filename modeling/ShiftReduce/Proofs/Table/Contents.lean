import ShiftReduce.Proofs.Table.Visits

namespace ShiftReduce

open Automaton

-- The automaton has the action for the state and the terminal.
def Automaton.Allows (ctx : Context) (a : Automaton) (q : StateId) (x : Terminal) : Action → Prop
  | .shift p  => a.transition? q (.terminal x) = some p
  | .accept   => x = .endOfInput ∧ ∃ n, a.node? q = some n ∧ ∃ i ∈ n.items.closure,
      i.rule = .accept ∧ i.IsEnd ctx.grammar
  | .reduce r => r ≠ .accept ∧ ∃ n, a.node? q = some n ∧ ∃ i ∈ n.items.closure,
      i.rule = r ∧ i.IsEnd ctx.grammar ∧
        if a.algorithm = .lr0 then x ∈ ctx.grammar.vocabulary.inputTerminals
        else x ∈ i.lookaheadSet
  | .goto _   => False

structure IsExactTable (ctx : Context) (a : Automaton) (t : ParseTable) : Prop where
  nodup      : ∀ q x, (t.actionsAt q x).Nodup
  actions    : ∀ q x α, α ∈ t.actionsAt q x ↔ a.Allows ctx q x α
  gotos      : ∀ q y, t.gotosAt q y = ((a.transition? q (.nonterminal y)).map Action.goto).toList
  actionKeys : ∀ q x, (q, x) ∈ t.actions.keys ∨ (q, x) ∈ t.actions.entries →
    q ∈ a.liveStates ∧ x ≠ .marker
  gotoKeys   : ∀ q y, (q, y) ∈ t.gotos.keys ∨ (q, y) ∈ t.gotos.entries → q ∈ a.liveStates
  conflict   : t.conflict = true ↔ ∃ q x, 2 ≤ (t.actionCell q x).length

variable {ctx : Context} {alg : Algorithm} {a : Automaton} {t : ParseTable} {q p : StateId}
  {n : Node} {x : Terminal} {y : Nonterminal} {r : RuleId} {i : Item} {α : Action}

section Lookaheads

-- The lookaheads of a complete automaton are terminals that the input can have.
theorem IsOutcome.mem_inputTerminals (hg : ctx.grammar.WellFormed) (h : IsOutcome ctx alg a)
    (hn : a.node? q = some n) (hi : i ∈ n.items.closure) (hx : x ∈ i.lookaheadSet) :
    x ∈ ctx.grammar.vocabulary.inputTerminals := by
  have hclosureIn {kind : ItemKind} {p : StateId} {i : Item}
      (hp : p.number < (collection ctx kind).length) (hi : i ∈ closureIn ctx kind p)
      (hx : x ∈ i.lookaheadSet) : x ∈ ctx.grammar.vocabulary.inputTerminals :=
    (completes_closureIn hg hp).terminals hg (isKernel_kernelIn hg hp) hi hx
  have hcovers : Covers n.items.closure i.core x := ⟨i, hi, rfl, hx⟩
  cases alg
  case lr0 | lr1 =>
    rw [h.left.closure_eq hn] at hi
    exact hclosureIn (h.left.kernel_eq hn).left hi hx
  case lalrByMerging =>
    obtain ⟨p, hp, j, hj, _, hx⟩ := (Merged.items h hn).closureCovers _ _ |>.mp hcovers
    exact hclosureIn hp.left hj hx
  case lalrByPropagation =>
    exact ((Propagated.lookaheads h hn _ _).mp hcovers).mem_inputTerminals hg

-- No item has the marker behind its dot.
theorem Automaton.Coherent.transition?_marker (hg : ctx.grammar.WellFormed) (h : a.Coherent ctx) :
    a.transition? q (.terminal .marker) ≠ some p := by
  intro hp
  obtain ⟨n, e, hn, he, hs, _⟩ := h.exists_of_transition? hp
  obtain ⟨c, _, hnext⟩ := h.exists_next hn he
  rw [hs] at hnext
  have hmem := hg.mem_inputTerminals_of_mem_right <| List.mem_of_getElem? hnext
  exact (Vocabulary.mem_inputTerminals.mp hmem).right rfl

theorem IsOutcome.ne_marker_of_allows (hg : ctx.grammar.WellFormed) (h : IsOutcome ctx alg a)
    (hα : a.Allows ctx q x α) : x ≠ .marker := by
  cases α
  case shift p  => exact fun hx => (h.coherent hg).transition?_marker hg (hx ▸ hα)
  case goto p   => exact hα.elim
  case accept   => exact hα.left ▸ by decide
  case reduce r =>
    obtain ⟨_, n, hn, i, hi, _, _, hx⟩ := hα
    have hmem : x ∈ ctx.grammar.vocabulary.inputTerminals := by
      split at hx
      case isTrue  => exact hx
      case isFalse => exact h.mem_inputTerminals hg hn hi hx
    exact (Vocabulary.mem_inputTerminals.mp hmem).right

end Lookaheads

section Completions

theorem IsOutcome.mem_completesOn_iff (hg : ctx.grammar.WellFormed) (h : IsOutcome ctx alg a)
    (hn : a.node? q = some n) (hi : i ∈ n.items.closure) :
    x ∈ completesOn ctx.grammar a.algorithm i ↔
      if i.rule = .accept then x = .endOfInput
      else if a.algorithm = .lr0 then x ∈ ctx.grammar.vocabulary.inputTerminals
      else x ∈ i.lookaheadSet := by
  have hrule : (ctx.grammar.rule? i.rule).isSome :=
    ((h.coherent hg).valid hn i.core <| List.mem_map_of_mem hi).left
  simp only [completesOn, hg.left_eq_accept_iff hrule]
  by_cases haccept : i.rule = .accept
  case pos => simp [haccept]
  case neg =>
    rw [if_neg haccept, if_neg haccept]
    by_cases halg : a.algorithm = .lr0
    case pos => rw [if_pos halg, halg, reduceOn_lr0]
    case neg =>
      have hkind := (h.foresees hg).kinds halg hn i hi
      have hmarker (hx : x ∈ i.lookaheadSet) : x ≠ .marker :=
        (Vocabulary.mem_inputTerminals.mp <| h.mem_inputTerminals hg hn hi hx).right
      rw [if_neg halg, reduceOn_eq halg, lookaheads_eq_some hkind]
      simpa [TerminalSet.mem_toList] using hmarker

-- A rule acts on a terminal through one of its complete items.
theorem IsOutcome.finishes_iff (hg : ctx.grammar.WellFormed) (h : IsOutcome ctx alg a) :
    a.Finishes ctx q r x ↔ ∃ n, a.node? q = some n ∧ ∃ i ∈ n.items.closure,
      i.rule = r ∧ i.IsEnd ctx.grammar ∧
        if r = .accept then x = .endOfInput
        else if a.algorithm = .lr0 then x ∈ ctx.grammar.vocabulary.inputTerminals
        else x ∈ i.lookaheadSet := by
  refine exists_congr fun n => and_congr_right fun hn => exists_congr fun i => ?_
  refine and_congr_right fun hi => ?_
  have hcore : i.core = ⟨r, (ctx.grammar.right r).length⟩ ↔
      i.rule = r ∧ i.IsEnd ctx.grammar := by
    constructor
    case mp =>
      intro he
      simp [Item.rule, Item.IsEnd, Core.IsEnd, he]
    case mpr =>
      rintro ⟨rfl, hend⟩
      exact (h.coherent hg).eq_of_isEnd hn (List.mem_map_of_mem hi) hend
  rw [hcore, h.mem_completesOn_iff hg hn hi, and_assoc]
  exact and_congr_right fun he => by rw [he]

-- The accept rule is the only one that is not reduced.
theorem IsOutcome.completion_eq (hg : ctx.grammar.WellFormed) (h : IsOutcome ctx alg a)
    (hr : a.Finishes ctx q r x) :
    completion ctx.grammar r = if r = .accept then .accept else .reduce r := by
  obtain ⟨n, hn, i, hi, hcore, _⟩ := hr
  have hrule := ((h.coherent hg).valid hn i.core <| List.mem_map_of_mem hi).left
  rw [hcore] at hrule
  simp only [completion, hg.left_eq_accept_iff hrule]

end Completions

namespace IsTableOf

theorem mem_gotosAt (h : IsTableOf ctx a t) (hc : a.Coherent ctx) : α ∈ t.gotosAt q y ↔
    ∃ p, a.transition? q (.nonterminal y) = some p ∧ α = .goto p := by
  rw [ParseTable.gotosAt, ParseTable.gotoCell, h.gotos, Cells.mem_actions_cell_insertAll]
  constructor
  case mp =>
    rintro ⟨e, he, hα⟩
    obtain ⟨n, edge, hn, hedge, hy, he⟩ := (mem_gotoEntries_iff hc.cut).mp he
    exact ⟨edge.target, hy ▸ hc.transition?_eq hn hedge, by rw [← hα, he]⟩
  case mpr =>
    rintro ⟨p, hp, hα⟩
    obtain ⟨n, e, hn, he, hy, htarget⟩ := hc.exists_of_transition? hp
    refine ⟨⟨.goto e.target, e.rule⟩, ?_, by rw [hα, htarget]⟩
    exact (mem_gotoEntries_iff hc.cut).mpr ⟨n, e, hn, he, hy, rfl⟩

theorem gotosAt_eq (h : IsTableOf ctx a t) (hc : a.Coherent ctx) :
    t.gotosAt q y = ((a.transition? q (.nonterminal y)).map Action.goto).toList := by
  have hlength : (t.gotosAt q y).length ≤ 1 := by
    rw [ParseTable.gotosAt, List.length_map]
    exact h.length_gotoCell_le hc
  have hmem (α : Action) := h.mem_gotosAt hc (q := q) (y := y) (α := α)
  generalize t.gotosAt q y = gotos at hlength hmem
  cases hp : a.transition? q (.nonterminal y)
  case none =>
    simp only [hp, reduceCtorEq, false_and, exists_false, iff_false] at hmem
    exact List.eq_nil_iff_forall_not_mem.mpr hmem
  case some p =>
    have hgoto : .goto p ∈ gotos := (hmem _).mpr ⟨p, hp, rfl⟩
    have hone : gotos.length = 1 := hlength.antisymm <| List.length_pos_of_mem hgoto
    obtain ⟨α, hα⟩ := List.length_eq_one_iff.mp hone
    rw [hα] at hgoto ⊢
    simp [List.mem_singleton.mp hgoto]

variable (hg : ctx.grammar.WellFormed) (ho : IsOutcome ctx alg a) (h : IsTableOf ctx a t)

include hg ho h

theorem mem_actionsAt_iff_allows : α ∈ t.actionsAt q x ↔ a.Allows ctx q x α := by
  have hcompletion (r : RuleId) : a.Finishes ctx q r x ∧ α = completion ctx.grammar r ↔
      a.Finishes ctx q r x ∧ ((r = .accept ∧ α = .accept) ∨ (r ≠ .accept ∧ α = .reduce r)) := by
    refine and_congr_right fun hr => ?_
    rw [ho.completion_eq hg hr]
    split <;> simp [*]
  rw [h.mem_actionsAt (ho.coherent hg), exists_congr hcompletion]
  simp only [ho.finishes_iff hg]
  cases α
  case shift p  => simp [Allows]
  case goto p   => simp [Allows]
  case accept =>
    constructor
    case mp =>
      intro h
      cases h
      case inl h =>
        obtain ⟨_, _, he⟩ := h
        cases he
      case inr h =>
        obtain ⟨r, ⟨n, hn, i, hi, hrule, hend, hx⟩, hr⟩ := h
        have hr : r = .accept := by simpa using hr
        exact ⟨(if_pos hr).mp hx, n, hn, i, hi, hrule.trans hr, hend⟩
    case mpr =>
      rintro ⟨hx, n, hn, i, hi, hrule, hend⟩
      exact .inr ⟨_, ⟨n, hn, i, hi, hrule, hend, (if_pos rfl).mpr hx⟩, .inl ⟨rfl, rfl⟩⟩
  case reduce r =>
    constructor
    case mp =>
      intro h
      cases h
      case inl h =>
        obtain ⟨_, _, he⟩ := h
        cases he
      case inr h =>
        obtain ⟨r', ⟨n, hn, i, hi, hrule, hend, hx⟩, hr⟩ := h
        obtain ⟨hr, rfl⟩ : r' ≠ .accept ∧ r = r' := by simpa using hr
        exact ⟨hr, n, hn, i, hi, hrule, hend, (if_neg hr).mp hx⟩
    case mpr =>
      rintro ⟨hr, n, hn, i, hi, hrule, hend, hx⟩
      exact .inr ⟨r, ⟨n, hn, i, hi, hrule, hend, (if_neg hr).mpr hx⟩, .inr ⟨hr, rfl⟩⟩

theorem isExactTable : IsExactTable ctx a t := by
  have hc := ho.coherent hg
  have hclosed := h.isClosed hg hc
  constructor
  case nodup    => exact fun _ _ => h.nodup_actionsAt
  case actions  => exact fun _ _ _ => mem_actionsAt_iff_allows hg ho h
  case gotos    => exact fun _ _ => h.gotosAt_eq hc
  case conflict => exact h.conflict_iff_length hc
  case actionKeys =>
    intro q x hk
    rw [hclosed.actions.keys, hclosed.actions.entries, or_self] at hk
    obtain ⟨e, he⟩ := List.exists_mem_of_ne_nil _ hk
    have hα : e.action ∈ t.actionsAt q x := List.mem_map_of_mem he
    refine ⟨h.mem_states_iff.mp (hclosed.actions.within he).left, ?_⟩
    exact ho.ne_marker_of_allows hg <| (mem_actionsAt_iff_allows hg ho h).mp hα
  case gotoKeys =>
    intro q y hk
    rw [hclosed.gotos.keys, hclosed.gotos.entries, or_self] at hk
    obtain ⟨e, he⟩ := List.exists_mem_of_ne_nil _ hk
    exact h.mem_states_iff.mp (hclosed.gotos.within he).left

end IsTableOf

-- Whatever the algorithm, the table has the actions of the automaton that it is built from.
theorem table_exact (h : ctx.grammar.IsDefined) (alg : Algorithm) :
    ∃ a t, Automaton.build ctx alg = .ok a ∧ ParseTable.build a ctx = .ok t ∧
      a.algorithm = alg ∧ IsExactTable ctx a t := by
  have hg := h.wellFormed
  obtain ⟨a, hbuild, ho, hdone⟩ := exists_build hg alg
  obtain ⟨t, ht, htable⟩ := exists_table ctx hdone
  exact ⟨a, t, hbuild, ht, ho.algorithm, htable.isExactTable hg ho⟩

theorem table_exact_on_repetition : Grammar.repetition.IsDefined ∧
    ∃ a t, Automaton.build (.ofGrammar .repetition) .lalrByMerging = .ok a ∧
      ParseTable.build a (.ofGrammar .repetition) = .ok t ∧
      IsExactTable (.ofGrammar .repetition) a t ∧
      t.actionsAt .start .endOfInput = [.reduce ⟨2⟩] ∧
      a.Allows (.ofGrammar .repetition) .start .endOfInput (.reduce ⟨2⟩) := by
  have h := Grammar.repetition_isDefined
  obtain ⟨a, t, ha, ht, _, hexact⟩ := @table_exact (.ofGrammar .repetition) h .lalrByMerging
  have hcell : t.actionsAt .start .endOfInput = [.reduce ⟨2⟩] :=
    eq_of_builds (·.actionsAt .start .endOfInput) (by decide +kernel) ha ht
  exact ⟨h, a, t, ha, ht, hexact, hcell, (hexact.actions _ _ _).mp <| hcell ▸ .head _⟩

end ShiftReduce
