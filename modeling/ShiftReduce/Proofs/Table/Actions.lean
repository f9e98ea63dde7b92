import ShiftReduce.Proofs.Construction.Coherence
import ShiftReduce.Proofs.Table.Entries

namespace ShiftReduce

open Automaton

def ParseTable.actionsAt (t : ParseTable) (q : StateId) (x : Terminal) : List Action :=
  (t.actionCell q x).map (·.action)

-- A complete item of the rule acts on the terminal.
def Automaton.Finishes (ctx : Context) (a : Automaton) (q : StateId) (r : RuleId) (x : Terminal) :
    Prop :=
  ∃ n, a.node? q = some n ∧ ∃ i ∈ n.items.closure,
    i.core = ⟨r, (ctx.grammar.right r).length⟩ ∧ x ∈ completesOn ctx.grammar a.algorithm i

-- A complete item of the rule is among the items, with the terminal as a lookahead. The accept rule
-- has no other than the end of input.
def Finishing (g : Grammar) (items : List Item) (r : RuleId) (x : Terminal) : Prop :=
  if g.left r = .accept then
    ⟨r, (g.right r).length⟩ ∈ items.map Item.core ∧ x = .endOfInput
  else
    Covers items ⟨r, (g.right r).length⟩ x ∧ x ≠ .marker

variable {ctx : Context} {g : Grammar} {a : Automaton} {t : ParseTable} {q p : StateId} {n : Node}
  {x : Terminal} {r : RuleId} {i : Item} {α β : Action} {φ : StateId → StateId}

theorem relabel_completion : (completion g r).relabel φ = completion g r := by
  rw [completion]
  split <;> rfl

theorem Automaton.finishes_iff (halg : a.algorithm ≠ .lr0) (hn : a.node? q = some n)
    (hkinds : ∀ i ∈ n.items.closure, i.kind = .lr1) :
    a.Finishes ctx q r x ↔ Finishing ctx.grammar n.items.closure r x := by
  simp only [Finishes, hn, Option.some.injEq, exists_eq_left', Finishing]
  have hon {i : Item} (hi : i ∈ n.items.closure)
      (hcore : i.core = ⟨r, (ctx.grammar.right r).length⟩) :
      x ∈ completesOn ctx.grammar a.algorithm i ↔
        if ctx.grammar.left r = .accept then x = .endOfInput
        else x ∈ i.lookaheadSet ∧ x ≠ .marker := by
    have hrule : i.rule = r := congrArg Core.rule hcore
    rw [completesOn, hrule, reduceOn_eq halg, lookaheads_eq_some (hkinds i hi)]
    split <;> simp [TerminalSet.mem_toList]
  split
  case isTrue hl =>
    simp only [if_pos hl] at hon
    constructor
    case mp =>
      rintro ⟨i, hi, hcore, hx⟩
      exact ⟨hcore ▸ List.mem_map_of_mem hi, (hon hi hcore).mp hx⟩
    case mpr =>
      rintro ⟨hmem, hx⟩
      obtain ⟨i, hi, hcore⟩ := List.mem_map.mp hmem
      exact ⟨i, hi, hcore, (hon hi hcore).mpr hx⟩
  case isFalse hl =>
    simp only [if_neg hl] at hon
    constructor
    case mp =>
      rintro ⟨i, hi, hcore, hx⟩
      obtain ⟨hx, hne⟩ := (hon hi hcore).mp hx
      exact ⟨⟨i, hi, hcore, hx⟩, hne⟩
    case mpr =>
      rintro ⟨⟨i, hi, hcore, hx⟩, hne⟩
      exact ⟨i, hi, hcore, (hon hi hcore).mpr ⟨hx, hne⟩⟩

-- In a list without duplicates, two elements are different elements.
theorem two_le_length_iff {τ : Type} [DecidableEq τ] {xs : List τ} (h : xs.Nodup) :
    2 ≤ xs.length ↔ ∃ x ∈ xs, ∃ y ∈ xs, x ≠ y := by
  rw [← List.toFinset_card_of_nodup h]
  refine Finset.one_lt_card.trans ?_
  simp

namespace IsTableOf

theorem mem_actionsAt (h : IsTableOf ctx a t) (hc : a.Coherent ctx) : α ∈ t.actionsAt q x ↔
    (∃ p, a.transition? q (.terminal x) = some p ∧ α = .shift p) ∨
      ∃ r, a.Finishes ctx q r x ∧ α = completion ctx.grammar r := by
  rw [ParseTable.actionsAt, ParseTable.actionCell, h.actions, Cells.mem_actions_cell_insertAll]
  constructor
  case mp =>
    rintro ⟨e, he, hα⟩
    subst hα
    cases List.mem_append.mp he
    case inl hs =>
      obtain ⟨n, edge, hn, hedge, hx, he⟩ := (mem_shiftEntries_iff hc.cut).mp hs
      exact .inl ⟨edge.target, hx ▸ hc.transition?_eq hn hedge, he ▸ rfl⟩
    case inr hr =>
      obtain ⟨n, hn, i, hi, hend, hx, he⟩ := mem_reduceEntries.mp hr
      have hcore := hc.eq_of_isEnd hn (List.mem_map_of_mem hi) hend
      exact .inr ⟨i.rule, ⟨n, hn, i, hi, hcore, hx⟩, he ▸ rfl⟩
  case mpr =>
    intro hα
    cases hα
    case inl hs =>
      obtain ⟨p, hp, hα⟩ := hs
      obtain ⟨n, e, hn, he, hx, htarget⟩ := hc.exists_of_transition? hp
      refine ⟨⟨.shift e.target, e.rule⟩, List.mem_append_left _ ?_, by rw [hα, htarget]⟩
      exact (mem_shiftEntries_iff hc.cut).mpr ⟨n, e, hn, he, hx, rfl⟩
    case inr hr =>
      obtain ⟨r, ⟨n, hn, i, hi, hcore, hx⟩, hα⟩ := hr
      have hrule : i.rule = r := congrArg Core.rule hcore
      have hend : i.IsEnd ctx.grammar := by simp [Item.IsEnd, Core.IsEnd, hcore]
      refine ⟨⟨completion ctx.grammar i.rule, i.rule⟩, List.mem_append_right _ ?_, ?_⟩
      · exact mem_reduceEntries.mpr ⟨n, hn, i, hi, hend, hx, rfl⟩
      · rw [hα, hrule]

-- In a table without conflicts the only action of a cell is the one taken.
theorem action?_of_mem (h : IsTableOf ctx a t) (hconflict : t.conflict = false)
    (hα : α ∈ t.actionsAt q x) : t.action? q x = some α := by
  obtain ⟨e, he, hα⟩ := List.mem_map.mp hα
  exact hα ▸ h.action?_eq hconflict (List.mem_append.mpr <| h.mem_actionCell he)

-- A reduction that is taken is due to a complete item, and its lookahead.
theorem looks_of_action? (h : IsTableOf ctx a t) (hc : a.Coherent ctx) (hf : a.Foresees ctx)
    (halg : a.algorithm ≠ .lr0) (ha : t.action? q x = some (.reduce r)) :
    a.Looks ctx q ⟨r, (ctx.grammar.right r).length⟩ x := by
  have hmem : .reduce r ∈ t.actionsAt q x := by
    obtain ⟨e, he, hr⟩ := Option.map_eq_some_iff.mp ha
    exact List.mem_map.mpr ⟨e, List.mem_of_head? he, hr⟩
  cases (h.mem_actionsAt hc).mp hmem
  case inl hs =>
    obtain ⟨_, _, he⟩ := hs
    contradiction
  case inr hr =>
    obtain ⟨r', hfinishes, he⟩ := hr
    obtain ⟨hl, rfl⟩ := completion_eq_reduce_iff.mp he.symm
    obtain ⟨n, hn, hcompletes⟩ := hfinishes
    have hfinishing :=
      (finishes_iff halg hn <| hf.kinds halg hn).mp ⟨n, hn, hcompletes⟩
    rw [Finishing, if_neg hl] at hfinishing
    exact ⟨n, hn, hfinishing.left.mem_map_core, by simpa [halg] using hfinishing.left⟩

theorem mem_liveStates (h : IsTableOf ctx a t) (hc : a.Coherent ctx) (hα : α ∈ t.actionsAt q x) :
    q ∈ a.liveStates := by
  cases (h.mem_actionsAt hc).mp hα
  case inl hs =>
    obtain ⟨_, hq, _⟩ := hs
    obtain ⟨n, _, hn, _⟩ := hc.exists_of_transition? hq
    exact Automaton.mem_liveStates.mpr ⟨n, hn⟩
  case inr hr =>
    obtain ⟨_, ⟨n, hn, _⟩, _⟩ := hr
    exact Automaton.mem_liveStates.mpr ⟨n, hn⟩

theorem transition?_of_mem (h : IsTableOf ctx a t) (hc : a.Coherent ctx)
    (hs : .shift p ∈ t.actionsAt q x) : a.transition? q (.terminal x) = some p := by
  cases (h.mem_actionsAt hc).mp hs
  case inl hs =>
    obtain ⟨_, hp, he⟩ := hs
    cases he
    exact hp
  case inr hr =>
    obtain ⟨_, _, he⟩ := hr
    exact absurd he.symm completion_ne_shift

-- At most one action of a cell is a shift, so that no two of them become one.
theorem eq_of_relabel_eq (h : IsTableOf ctx a t) (hc : a.Coherent ctx) (hα : α ∈ t.actionsAt q x)
    (hβ : β ∈ t.actionsAt q x) (he : α.relabel φ = β.relabel φ) : α = β := by
  cases (h.mem_actionsAt hc).mp hα
  case inl hs =>
    obtain ⟨p, hp, hα⟩ := hs
    cases (h.mem_actionsAt hc).mp hβ
    case inl hs' =>
      obtain ⟨p', hp', hβ⟩ := hs'
      cases hp.symm.trans hp'
      exact hα.trans hβ.symm
    case inr hr =>
      obtain ⟨r, _, hβ⟩ := hr
      rw [hα, hβ, relabel_completion] at he
      exact absurd he.symm completion_ne_shift
  case inr hr =>
    obtain ⟨r, _, hα⟩ := hr
    cases (h.mem_actionsAt hc).mp hβ
    case inl hs =>
      obtain ⟨p, _, hβ⟩ := hs
      rw [hα, hβ, relabel_completion] at he
      exact absurd he completion_ne_shift
    case inr hr' =>
      obtain ⟨r', _, hβ⟩ := hr'
      rwa [hα, hβ, relabel_completion, relabel_completion, ← hα, ← hβ] at he

theorem length_gotoCell_le (h : IsTableOf ctx a t) (hc : a.Coherent ctx) {y : Nonterminal} :
    (t.gotoCell q y).length ≤ 1 := by
  have hall : ∀ e ∈ t.gotoCell q y, ∀ d ∈ t.gotoCell q y, e.action = d.action := by
    intro e he d hd
    obtain ⟨n, e', hn, he', hy, heq⟩ := (mem_gotoEntries_iff hc.cut).mp <| h.mem_gotoCell he
    obtain ⟨n', d', hn', hd', hy', hdeq⟩ := (mem_gotoEntries_iff hc.cut).mp <| h.mem_gotoCell hd
    cases hn.symm.trans hn'
    rw [heq, hdeq, hc.eq_of_symbol_eq hn he' hd' (hy.trans hy'.symm)]
  have hnodup : ((t.gotoCell q y).map (·.action)).Nodup := by
    rw [ParseTable.gotoCell, h.gotos]
    exact Cells.nodup_cell_insertAll
  rw [← List.length_map (·.action)]
  refine Nat.le_of_lt_succ <| Nat.not_le.mp fun htwo => ?_
  obtain ⟨α, hα, β, hβ, hne⟩ := (two_le_length_iff hnodup).mp htwo
  obtain ⟨e, he, rfl⟩ := List.mem_map.mp hα
  obtain ⟨d, hd, rfl⟩ := List.mem_map.mp hβ
  exact hne <| hall e he d hd

theorem nodup_actionsAt (h : IsTableOf ctx a t) : (t.actionsAt q x).Nodup := by
  rw [ParseTable.actionsAt, ParseTable.actionCell, h.actions]
  exact Cells.nodup_cell_insertAll

theorem conflict_iff_length (h : IsTableOf ctx a t) (hc : a.Coherent ctx) :
    t.conflict = true ↔ ∃ q x, 2 ≤ (t.actionCell q x).length := by
  have hgotos : (Cells.empty.insertAll ctx.grammar a.gotoEntries).2 = false := by
    by_contra hconflict
    obtain ⟨⟨q, y⟩, hlength⟩ :=
      Cells.conflict_insertAll_iff.mp <| (Bool.not_eq_false _).mp hconflict
    rw [← h.gotos] at hlength
    have : (t.gotoCell q y).length ≤ 1 := h.length_gotoCell_le hc
    exact absurd hlength <| Nat.not_le.mpr <| Nat.lt_succ_of_le this
  rw [h.conflict, hgotos, Bool.or_false, Cells.conflict_insertAll_iff, ← h.actions, Prod.exists]
  rfl

-- A conflict is a cell with two different actions.
theorem conflict_iff (h : IsTableOf ctx a t) (hc : a.Coherent ctx) : t.conflict = true ↔
    ∃ q x, ∃ α ∈ t.actionsAt q x, ∃ β ∈ t.actionsAt q x, α ≠ β := by
  rw [h.conflict_iff_length hc]
  refine exists_congr fun q => exists_congr fun x => ?_
  rw [← two_le_length_iff h.nodup_actionsAt, ParseTable.actionsAt, List.length_map]

end IsTableOf
end ShiftReduce
