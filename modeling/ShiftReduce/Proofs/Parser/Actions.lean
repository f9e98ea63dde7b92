import ShiftReduce.Proofs.Construction.Coherence
import ShiftReduce.Proofs.Table.Entries

namespace ShiftReduce

open Automaton

variable {ctx : Context} {a : Automaton} {t : ParseTable} {q p : StateId} {n : Node}
  {x : Terminal} {y : Nonterminal} {r : RuleId}

namespace IsTableOf

theorem mem_of_action? {α : Action} (h : IsTableOf ctx a t) (ha : t.action? q x = some α) :
    ∃ r, ((q, x), ⟨α, r⟩) ∈ a.shiftEntries ∨ ((q, x), ⟨α, r⟩) ∈ a.reduceEntries ctx.grammar := by
  obtain ⟨e, he, hact⟩ := Option.map_eq_some_iff.mp ha
  refine ⟨e.rule, ?_⟩
  subst hact
  exact h.mem_actionCell <| List.mem_of_head? he

theorem transition?_of_shift (h : IsTableOf ctx a t) (hc : a.Coherent ctx)
    (ha : t.action? q x = some (.shift p)) : a.transition? q (.terminal x) = some p := by
  obtain ⟨r, hmem⟩ := h.mem_of_action? ha
  cases hmem
  case inl hs =>
    obtain ⟨n, e, hn, he, hx, heq⟩ := (mem_shiftEntries_iff hc.cut).mp hs
    cases heq
    exact hx ▸ hc.transition?_eq hn he
  case inr hr =>
    obtain ⟨_, _, i, _, _, _, heq⟩ := mem_reduceEntries.mp hr
    exact absurd (congrArg Entry.action heq).symm completion_ne_shift

-- A reduction is for a complete item, and so is the acceptance.
theorem complete_of_action? {α : Action} (h : IsTableOf ctx a t) (hg : ctx.grammar.WellFormed)
    (hc : a.Coherent ctx) (ha : t.action? q x = some α) (hs : ∀ p, α ≠ .shift p) :
    ∃ n r, a.node? q = some n ∧ α = completion ctx.grammar r ∧ (ctx.grammar.rule? r).isSome ∧
      ⟨r, (ctx.grammar.right r).length⟩ ∈ n.items.closure.map Item.core ∧
      (r = .accept → x = .endOfInput) := by
  obtain ⟨_, hmem⟩ := h.mem_of_action? ha
  cases hmem
  case inl hshift =>
    obtain ⟨e, _, _, heq⟩ := mem_shiftEntries.mp hshift
    cases heq
    exact absurd rfl (hs e.target)
  case inr hr =>
    obtain ⟨n, hn, i, hi, hend, hx, heq⟩ := mem_reduceEntries.mp hr
    cases heq
    have hcore : i.core ∈ n.items.closure.map Item.core := List.mem_map_of_mem hi
    obtain ⟨hrule, _⟩ := hc.valid hn i.core hcore
    refine ⟨n, i.rule, hn, rfl, hrule, hc.eq_of_isEnd hn hcore hend ▸ hcore, fun haccept => ?_⟩
    rw [completesOn, if_pos (by rw [haccept, hg.left_accept])] at hx
    exact List.mem_singleton.mp hx

theorem complete_of_reduce (h : IsTableOf ctx a t) (hg : ctx.grammar.WellFormed)
    (hc : a.Coherent ctx) (ha : t.action? q x = some (.reduce r)) :
    r ≠ .accept ∧ (ctx.grammar.rule? r).isSome ∧ ∃ n, a.node? q = some n ∧
      ⟨r, (ctx.grammar.right r).length⟩ ∈ n.items.closure.map Item.core := by
  obtain ⟨n, r', hn, heq, hrule, hmem, _⟩ := h.complete_of_action? hg hc ha (by simp)
  obtain ⟨hl, rfl⟩ := completion_eq_reduce_iff.mp heq.symm
  exact ⟨fun he => hl <| he ▸ hg.left_accept, hrule, n, hn, hmem⟩

theorem complete_of_accept (h : IsTableOf ctx a t) (hg : ctx.grammar.WellFormed)
    (hc : a.Coherent ctx) (ha : t.action? q x = some .accept) :
    x = .endOfInput ∧ ∃ n, a.node? q = some n ∧
      ⟨.accept, 1⟩ ∈ n.items.closure.map Item.core := by
  obtain ⟨n, r, hn, heq, hrule, hmem, hx⟩ := h.complete_of_action? hg hc ha (by simp)
  have hr := (hg.left_eq_accept_iff hrule).mp <| completion_eq_accept_iff.mp heq.symm
  subst hr
  rw [hg.right_accept] at hmem
  exact ⟨hx rfl, n, hn, hmem⟩

theorem action?_ne_goto (h : IsTableOf ctx a t) (hg : ctx.grammar.WellFormed)
    (hc : a.Coherent ctx) : t.action? q x ≠ some (.goto p) := by
  intro ha
  obtain ⟨_, r, _, heq, _⟩ := h.complete_of_action? hg hc ha (by simp)
  exact completion_ne_goto heq.symm

-- The gotos are the transitions on nonterminals, whatever conflicts the table has.
theorem goto?_eq_of_transition? (h : IsTableOf ctx a t) (hc : a.Coherent ctx)
    (ht : a.transition? q (.nonterminal y) = some p) : t.goto? q y = some p := by
  obtain ⟨n, e, hn, he, hy, htarget⟩ := hc.exists_of_transition? ht
  have hmem : ((q, y), ⟨.goto e.target, e.rule⟩) ∈ a.gotoEntries :=
    (mem_gotoEntries_iff hc.cut).mpr ⟨n, e, hn, he, hy, rfl⟩
  obtain ⟨d, hd, _⟩ := Cells.exists_action_cell_insertAll (g := ctx.grammar) hmem
  rw [← h.gotos] at hd
  have hall : ∀ d ∈ t.gotoCell q y, d.action = .goto p := by
    intro d hd
    obtain ⟨n', e', hn', he', hy', heq⟩ := (mem_gotoEntries_iff hc.cut).mp <| h.mem_gotoCell hd
    cases hn.symm.trans hn'
    rw [heq, hc.eq_of_symbol_eq hn he' he (hy'.trans hy.symm), htarget]
  have hd : d ∈ t.gotoCell q y := hd
  rw [ParseTable.goto?]
  generalize t.gotoCell q y = cell at hd hall
  match cell with
  | []          => contradiction
  | ⟨α, r⟩ :: _ =>
    have hα : α = .goto p := hall _ <| .head _
    subst hα
    rfl

section Unambiguous

variable (h : IsTableOf ctx a t) (hconflict : t.conflict = false)

include h hconflict

theorem action?_eq_shift (hc : a.Coherent ctx) (ht : a.transition? q (.terminal x) = some p) :
    t.action? q x = some (.shift p) := by
  obtain ⟨n, e, hn, he, hx, htarget⟩ := hc.exists_of_transition? ht
  have hmem : ((q, x), ⟨.shift e.target, e.rule⟩) ∈ a.shiftEntries :=
    (mem_shiftEntries_iff hc.cut).mpr ⟨n, e, hn, he, hx, rfl⟩
  rw [h.action?_eq hconflict (List.mem_append_left _ hmem), htarget]

theorem action?_eq_completion (hf : a.Foresees ctx) (hx : x ≠ .marker)
    (hl : a.Looks ctx q ⟨r, (ctx.grammar.right r).length⟩ x)
    (hend : ctx.grammar.left r = .accept → x = .endOfInput) :
    t.action? q x = some (completion ctx.grammar r) := by
  obtain ⟨n, hn, hcore, hlooks⟩ := hl
  have hitem : ∃ i ∈ n.items.closure, i.core = ⟨r, (ctx.grammar.right r).length⟩ ∧
      x ∈ completesOn ctx.grammar a.algorithm i := by
    by_cases halg : a.algorithm = .lr0
    case pos =>
      rw [if_pos halg] at hlooks
      obtain ⟨i, hi, hic⟩ := List.mem_map.mp hcore
      have hrule : i.rule = r := congrArg Core.rule hic
      refine ⟨i, hi, hic, ?_⟩
      rw [completesOn, halg, reduceOn_lr0, hrule]
      split
      case isTrue hleft => exact List.mem_singleton.mpr <| hend hleft
      case isFalse      => exact hlooks
    case neg =>
      rw [if_neg halg] at hlooks
      obtain ⟨i, hi, hic, hx'⟩ := hlooks
      have hrule : i.rule = r := congrArg Core.rule hic
      refine ⟨i, hi, hic, ?_⟩
      rw [completesOn, reduceOn_eq halg, lookaheads_eq_some (hf.kinds halg hn i hi), hrule]
      split
      case isTrue hleft => exact List.mem_singleton.mpr <| hend hleft
      case isFalse => simpa [hx, TerminalSet.mem_toList] using hx'
  obtain ⟨i, hi, hic, hx'⟩ := hitem
  have hrule : i.rule = r := congrArg Core.rule hic
  have hiend : i.IsEnd ctx.grammar := by simp [Item.IsEnd, Core.IsEnd, hic]
  have hmem : ((q, x), ⟨completion ctx.grammar r, r⟩) ∈ a.reduceEntries ctx.grammar :=
    mem_reduceEntries.mpr ⟨n, hn, i, hi, hiend, hx', by rw [hrule]⟩
  exact h.action?_eq hconflict <| List.mem_append_right _ hmem

end Unambiguous
end IsTableOf
end ShiftReduce
