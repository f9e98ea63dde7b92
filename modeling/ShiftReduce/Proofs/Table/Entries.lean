import ShiftReduce.Proofs.Construction.States
import ShiftReduce.Proofs.Table.Cells

namespace ShiftReduce

namespace Symbol

def terminal? : Symbol → Option Terminal
  | .terminal x    => some x
  | .nonterminal _ => none

def nonterminal? : Symbol → Option Nonterminal
  | .terminal _    => none
  | .nonterminal y => some y

theorem terminal?_eq_some_iff {s : Symbol} {x : Terminal} :
    s.terminal? = some x ↔ s = .terminal x := by
  cases s <;> simp [terminal?]

theorem nonterminal?_eq_some_iff {s : Symbol} {y : Nonterminal} :
    s.nonterminal? = some y ↔ s = .nonterminal y := by
  cases s <;> simp [nonterminal?]

end Symbol

open Automaton

structure IsTableOf (ctx : Context) (a : Automaton) (t : ParseTable) : Prop where
  grammar   : t.grammar = ctx.grammar
  algorithm : t.algorithm = a.algorithm
  states    : t.states = a.states.map (·.1)
  actions   : t.actions = (Cells.empty.insertAll ctx.grammar
    (a.shiftEntries ++ a.reduceEntries ctx.grammar)).1
  gotos     : t.gotos = (Cells.empty.insertAll ctx.grammar a.gotoEntries).1
  conflict  : t.conflict = ((Cells.empty.insertAll ctx.grammar
    (a.shiftEntries ++ a.reduceEntries ctx.grammar)).2 ||
      (Cells.empty.insertAll ctx.grammar a.gotoEntries).2)

variable {ctx ctx' : Context} {g : Grammar} {a : Automaton} {t : ParseTable} {q p : StateId}
  {x : Terminal} {y : Nonterminal} {r : RuleId} {e : Entry} {i : Item} {alg : Algorithm}

theorem exists_table (ctx : Context) (h : a.IsDone) :
    ∃ t, ParseTable.build a ctx = .ok t ∧ IsTableOf ctx a t :=
  ⟨_, if_pos h, ⟨rfl, rfl, rfl, rfl, rfl, rfl⟩⟩

theorem isTableOf_of_build (h : ParseTable.build a ctx = .ok t) : IsTableOf ctx a t := by
  have hdone : a.IsDone := by
    by_contra hn
    simp [ParseTable.build, hn] at h
  obtain ⟨u, hu, htable⟩ := exists_table ctx hdone
  cases h.symm.trans hu
  exact htable

-- What an evaluation from the construction on says about the table.
theorem eq_of_builds {β : Type} (f : ParseTable → β) {b : β}
    (h : (do
      let a ← Automaton.build ctx alg
      let t ← ParseTable.build a ctx'
      return f t) = Except.ok (ε := Error) b)
    (ha : Automaton.build ctx alg = .ok a) (ht : ParseTable.build a ctx' = .ok t) : f t = b := by
  rw [ha] at h
  simpa [bind, Except.bind, ht, pure, Except.pure] using h

section Entries

-- The entries of the transitions on symbols of one kind.
def Automaton.entriesOn {σ : Type} (a : Automaton) (ofKind? : Symbol → Option σ)
    (action : StateId → Action) : List ((StateId × σ) × Entry) :=
  a.transitions.filterMap fun (q, edge) =>
    (ofKind? edge.symbol).map fun x => ((q, x), ⟨action edge.target, edge.rule⟩)

theorem shiftEntries_eq : a.shiftEntries = a.entriesOn Symbol.terminal? .shift := by
  refine congrArg (a.transitions.filterMap ·) <| funext fun (q, edge) => ?_
  cases hs : edge.symbol <;> simp [Symbol.terminal?, hs]

theorem gotoEntries_eq : a.gotoEntries = a.entriesOn Symbol.nonterminal? .goto := by
  refine congrArg (a.transitions.filterMap ·) <| funext fun (q, edge) => ?_
  cases hs : edge.symbol <;> simp [Symbol.nonterminal?, hs]

section EntriesOn

variable {σ : Type} {ofKind? : Symbol → Option σ} {action : StateId → Action} {z : σ}

theorem mem_entriesOn : ((q, z), e) ∈ a.entriesOn ofKind? action ↔
    ∃ edge, (q, edge) ∈ a.transitions ∧ ofKind? edge.symbol = some z ∧
      e = ⟨action edge.target, edge.rule⟩ := by
  simp only [entriesOn, List.mem_filterMap, Prod.exists, Option.map_eq_some_iff, Prod.mk.injEq]
  constructor
  case mp  => exact fun ⟨_, edge, hmem, _, hz, ⟨hp, hw⟩, he⟩ => ⟨edge, hp ▸ hmem, hw ▸ hz, he.symm⟩
  case mpr => exact fun ⟨edge, hmem, hz, he⟩ => ⟨q, edge, hmem, z, hz, ⟨rfl, rfl⟩, he.symm⟩

-- In an automaton whose dead nodes have no edges, transitions are edges of live nodes.
theorem mem_entriesOn_iff (h : a.IsCut) : ((q, z), e) ∈ a.entriesOn ofKind? action ↔
    ∃ n edge, a.node? q = some n ∧ edge ∈ n.edges ∧ ofKind? edge.symbol = some z ∧
      e = ⟨action edge.target, edge.rule⟩ := by
  simp only [mem_entriesOn, mem_transitions_iff h]
  constructor
  case mp  => exact fun ⟨edge, ⟨n, hn, hedge⟩, hz, he⟩ => ⟨n, edge, hn, hedge, hz, he⟩
  case mpr => exact fun ⟨n, edge, hn, hedge, hz, he⟩ => ⟨edge, ⟨n, hn, hedge⟩, hz, he⟩

end EntriesOn

theorem mem_shiftEntries : ((q, x), e) ∈ a.shiftEntries ↔
    ∃ edge, (q, edge) ∈ a.transitions ∧ edge.symbol = .terminal x ∧
      e = ⟨.shift edge.target, edge.rule⟩ := by
  simp only [shiftEntries_eq, mem_entriesOn, Symbol.terminal?_eq_some_iff]

theorem mem_gotoEntries : ((q, y), e) ∈ a.gotoEntries ↔
    ∃ edge, (q, edge) ∈ a.transitions ∧ edge.symbol = .nonterminal y ∧
      e = ⟨.goto edge.target, edge.rule⟩ := by
  simp only [gotoEntries_eq, mem_entriesOn, Symbol.nonterminal?_eq_some_iff]

theorem mem_shiftEntries_iff (h : a.IsCut) : ((q, x), e) ∈ a.shiftEntries ↔
    ∃ n edge, a.node? q = some n ∧ edge ∈ n.edges ∧ edge.symbol = .terminal x ∧
      e = ⟨.shift edge.target, edge.rule⟩ := by
  simp only [shiftEntries_eq, mem_entriesOn_iff h, Symbol.terminal?_eq_some_iff]

theorem mem_gotoEntries_iff (h : a.IsCut) : ((q, y), e) ∈ a.gotoEntries ↔
    ∃ n edge, a.node? q = some n ∧ edge ∈ n.edges ∧ edge.symbol = .nonterminal y ∧
      e = ⟨.goto edge.target, edge.rule⟩ := by
  simp only [gotoEntries_eq, mem_entriesOn_iff h, Symbol.nonterminal?_eq_some_iff]

theorem reduceOn_lr0 : reduceOn g .lr0 i = g.vocabulary.inputTerminals := by
  rfl

-- The lookaheads of an item count whenever the algorithm has any.
theorem reduceOn_eq (h : alg ≠ .lr0) : reduceOn g alg i = i.lookaheads.elim
    g.vocabulary.inputTerminals fun lookaheads => lookaheads.toList.filter (· ≠ .marker) := by
  cases alg
  case lr0 => contradiction
  all_goals cases hi : i.lookaheads <;> simp [reduceOn, hi]

-- The action of the complete items of a rule.
def completion (g : Grammar) (r : RuleId) : Action :=
  if g.left r = .accept then .accept else .reduce r

theorem completion_ne_shift : completion g r ≠ .shift p := by
  rw [completion]
  split <;> simp

theorem completion_ne_goto : completion g r ≠ .goto p := by
  rw [completion]
  split <;> simp

theorem completion_eq_accept_iff : completion g r = .accept ↔ g.left r = .accept := by
  rw [completion]
  split <;> simp_all

theorem completion_eq_reduce_iff {r' : RuleId} :
    completion g r = .reduce r' ↔ g.left r ≠ .accept ∧ r = r' := by
  rw [completion]
  split <;> simp_all

-- The terminals on which a complete item acts.
def completesOn (g : Grammar) (alg : Algorithm) (i : Item) : List Terminal :=
  if g.left i.rule = .accept then [.endOfInput] else reduceOn g alg i

theorem mem_completeEntries : ((p, x), e) ∈ completeEntries g alg q i ↔
    p = q ∧ i.IsEnd g ∧ x ∈ completesOn g alg i ∧ e = ⟨completion g i.rule, i.rule⟩ := by
  rw [completeEntries, completesOn, completion]
  split
  case isFalse hn => simp [hn]
  case isTrue hi =>
    split
    case isTrue =>
      simp only [List.mem_singleton, Prod.mk.injEq, and_assoc, hi, true_and]
    case isFalse =>
      simp only [List.mem_map, Prod.mk.injEq, hi, true_and]
      constructor
      case mp  => exact fun ⟨_, hu, ⟨hq, hx⟩, he⟩ => ⟨hq.symm, hx ▸ hu, he.symm⟩
      case mpr => exact fun ⟨hq, hu, he⟩ => ⟨x, hu, ⟨hq.symm, rfl⟩, he.symm⟩

theorem mem_reduceEntries : ((q, x), e) ∈ a.reduceEntries g ↔
    ∃ n, a.node? q = some n ∧ ∃ i ∈ n.items.closure,
      i.IsEnd g ∧ x ∈ completesOn g a.algorithm i ∧ e = ⟨completion g i.rule, i.rule⟩ := by
  simp only [reduceEntries, List.mem_flatMap, Prod.exists, mem_states, mem_completeEntries]
  constructor
  case mp  => exact fun ⟨_, n, hn, i, hi, hq, h⟩ => ⟨n, hq ▸ hn, i, hi, h⟩
  case mpr => exact fun ⟨n, hn, i, hi, h⟩ => ⟨q, n, hn, i, hi, rfl, h⟩

end Entries

namespace IsTableOf

-- Every entry of a table stands for a transition or for a complete item.
theorem mem_actionCell (h : IsTableOf ctx a t) (he : e ∈ t.actionCell q x) :
    ((q, x), e) ∈ a.shiftEntries ∨ ((q, x), e) ∈ a.reduceEntries ctx.grammar := by
  rw [ParseTable.actionCell, h.actions] at he
  exact List.mem_append.mp <| Cells.mem_cell_insertAll he

theorem mem_gotoCell (h : IsTableOf ctx a t) (he : e ∈ t.gotoCell q y) :
    ((q, y), e) ∈ a.gotoEntries := by
  rw [ParseTable.gotoCell, h.gotos] at he
  exact Cells.mem_cell_insertAll he

-- In a table without conflicts the only action of a cell is the one taken.
theorem action?_eq (h : IsTableOf ctx a t) (hc : t.conflict = false)
    (he : ((q, x), e) ∈ a.shiftEntries ++ a.reduceEntries ctx.grammar) :
    t.action? q x = some e.action := by
  have hempty : ∀ key, ((Cells.empty : Cells Terminal).cell key).length ≤ 1 := by simp
  rw [h.conflict, Bool.or_eq_false_iff] at hc
  have hlength := Cells.length_cell_insertAll_le hempty hc.left (q, x)
  obtain ⟨e', hmem, haction⟩ := Cells.exists_action_cell_insertAll (g := ctx.grammar) he
  rw [ParseTable.action?, ParseTable.actionCell, h.actions]
  generalize (Cells.insertAll ctx.grammar _ _).1.cell (q, x) = cell at hlength hmem
  match cell, hlength, hmem with
  | [d], _, hmem => simp [← List.mem_singleton.mp hmem, haction]

end IsTableOf
end ShiftReduce
