import ShiftReduce.Proofs.Construction.Coherence
import ShiftReduce.Proofs.Construction.Operations

namespace ShiftReduce
namespace Automaton

-- The item is in the state and has the symbol after its dot.
def Asks (g : Grammar) (a : Automaton) (q : StateId) (x : Symbol) (i : Item) : Prop :=
  ∃ n, a.node? q = some n ∧ i ∈ n.items.closure ∧ i.next? g = some x

structure IsBestRule (g : Grammar) (a : Automaton) (q : StateId) (x : Symbol) (r : RuleId) :
    Prop where
  asks : ∃ i, a.Asks g q x i ∧ i.rule = r
  best : ∀ i, a.Asks g q x i → ¬ (g.rule i.rule).Outranks (g.rule r)

structure HasBestRules (g : Grammar) (a : Automaton) : Prop where
  transitions : ∀ q x, (a.transition? q x).isSome ↔ ∃ i, a.Asks g q x i
  rules       : ∀ q x, (a.transitionRule? q x).isSome ↔ (a.transition? q x).isSome
  best        : ∀ q x r, a.transitionRule? q x = some r → a.IsBestRule g q x r

variable {ctx : Context} {g : Grammar} {kind : ItemKind} {alg : Algorithm}
  {τ : StateId → StateId} {a : Automaton} {n : Node} {q : StateId} {r : RuleId} {x : Symbol}

theorem edge?_of_dead (h : a.IsCut) (hq : a.node? q = none) : a.edge? q x = none := by
  rw [Option.eq_none_iff_forall_ne_some]
  intro e he
  obtain ⟨n, hn, hfind⟩ := Option.bind_eq_some_iff.mp he
  have hmem := mem_transitions.mpr ⟨n, hn, List.mem_of_find?_eq_some hfind⟩
  obtain ⟨m, hm, _⟩ := (mem_transitions_iff h).mp hmem
  cases hq.symm.trans hm

theorem isSome_transitionRule?_iff :
    (a.transitionRule? q x).isSome ↔ (a.transition? q x).isSome := by
  simp [transitionRule?, transition?]

theorem exists_asks_iff (hn : a.node? q = some n) :
    (∃ i, a.Asks g q x i) ↔ x ∈ nextSymbols g (n.items.closure.map Item.core) := by
  simp [Asks, hn, mem_nextSymbols, Item.next?]

theorem isBestRule_ruleOver (hn : a.node? q = some n)
    (hx : x ∈ nextSymbols g (n.items.closure.map Item.core)) :
    a.IsBestRule g q x (ruleOver g x <| n.items.closure.map Item.core) := by
  have hmem (s : RuleId) : s ∈ ((n.items.closure.map Item.core).filter
      (·.next? g = some x)).map Core.rule ↔ ∃ i, a.Asks g q x i ∧ i.rule = s := by
    simp [Asks, hn, Item.next?, Item.rule, and_assoc]
  constructor
  case asks =>
    refine (hmem _).mp <| bestRule_mem ?_
    obtain ⟨i, hi⟩ := (exists_asks_iff hn).mpr hx
    exact List.ne_nil_of_mem <| (hmem _).mpr ⟨i, hi, rfl⟩
  case best => exact fun i hi => not_outranks_bestRule _ <| (hmem _).mpr ⟨i, hi, rfl⟩

namespace Follows

theorem transitionRule?_eq (h : a.Follows ctx kind τ) (hn : a.node? q = some n) :
    a.transitionRule? q x =
      if x ∈ nextSymbols ctx.grammar (n.items.closure.map Item.core) then
        some (ruleOver ctx.grammar x <| n.items.closure.map Item.core)
      else none := by
  rw [transitionRule?, edge?_of_edges hn (h.edges hn), h.closure hn]
  split <;> rfl

theorem hasBestRules (h : a.Follows ctx kind τ) : a.HasBestRules ctx.grammar where
  rules _ _   := isSome_transitionRule?_iff
  transitions := by
    intro q x
    rw [← isSome_transitionRule?_iff]
    cases hn : a.node? q
    case none   => simp [Asks, transitionRule?, edge?_of_dead h.cut, hn]
    case some n => simp [h.transitionRule?_eq hn, exists_asks_iff hn]
  best        := by
    intro q x r hr
    cases hn : a.node? q
    case none   => simp [transitionRule?, edge?_of_dead h.cut hn] at hr
    case some n =>
      rw [h.transitionRule?_eq hn] at hr
      split at hr
      case isTrue hx => exact Option.some.inj hr ▸ isBestRule_ruleOver hn hx
      case isFalse   => contradiction

end Follows
end Automaton

variable {ctx : Context} {alg : Algorithm} {a : Automaton}

open Automaton

theorem IsOutcome.exists_follows (hg : ctx.grammar.WellFormed) (h : IsOutcome ctx alg a) :
    ∃ kind τ, a.Follows ctx kind τ := by
  cases alg
  case lr0 | lr1         => exact ⟨_, _, h.left.follows hg⟩
  case lalrByMerging     => exact ⟨_, _, Merged.follows hg h⟩
  case lalrByPropagation => exact ⟨_, _, Propagated.follows hg h⟩

-- With every algorithm, and whatever has been called on the way to the end. When states are merged,
-- the rules that go with the edges of the merged ones are dropped. The state that is left has kept
-- the cores of its own closure, and its choice is the best of those.
theorem transition_rules_best (h : ctx.grammar.IsDefined) (alg : Algorithm) :
    ∃ a, build ctx alg = .ok a ∧ a.algorithm = alg ∧ a.IsDone ∧ a.HasBestRules ctx.grammar ∧
      ∀ ops : List Operation,
        let b := ops.foldl (fun a op => (a.perform ctx op).1) (initial ctx alg)
        b.IsDone → b = a := by
  have hg := h.wellFormed
  obtain ⟨a, n, hreaches, houtcome, hdone, hn⟩ := exists_reaches_outcome hg alg
  obtain ⟨kind, τ, hfollows⟩ := houtcome.exists_follows hg
  refine ⟨a, hreaches.build hdone hn, houtcome.algorithm, hdone, hfollows.hasBestRules,
    fun ops => ?_⟩
  intro b hb
  obtain ⟨k, hk⟩ := exists_iterate_foldl_perform hg alg ops
  have hrest := hreaches.drop (k := k) hdone
  rw [← hk] at hrest
  exact hrest.eq_of_isDone hb

namespace Grammar

-- The grammar `S → a b | a`, in which the first rule has a priority.
def preferringCalls : List Draft.Call :=
  [.terminal "a", .terminal "b", .nonterminal "S",
    .rule ⟨1⟩ [.terminal ⟨2⟩, .terminal ⟨3⟩] (some 1), .rule ⟨1⟩ [.terminal ⟨2⟩] none]

def preferring : Grammar where
  vocabulary := (Draft.afterCalls preferringCalls).vocabulary
  rules      := #[⟨.accept, [.nonterminal ⟨1⟩], 0, 0⟩] ++ (Draft.afterCalls preferringCalls).rules
  start      := ⟨1⟩

theorem preferring_isDefined : preferring.IsDefined :=
  ⟨preferringCalls, by cbv⟩

end Grammar

-- Both rules ask for `a` at the start. The one of higher priority was declared first.
theorem transition_rules_best_on_preferring : Grammar.preferring.IsDefined ∧
    ∃ a, build (.ofGrammar .preferring) .lalrByMerging = .ok a ∧
      a.transitionRule? .start (.terminal ⟨2⟩) = some ⟨1⟩ ∧
      a.IsBestRule .preferring .start (.terminal ⟨2⟩) ⟨1⟩ := by
  have h := Grammar.preferring_isDefined
  obtain ⟨a, ha, _, _, hbest, _⟩ := @transition_rules_best (.ofGrammar .preferring) h .lalrByMerging
  have hrule : a.transitionRule? .start (.terminal ⟨2⟩) = some ⟨1⟩ :=
    eq_of_build (·.transitionRule? .start (.terminal ⟨2⟩)) (by decide +kernel) ha
  exact ⟨h, a, ha, hrule, hbest.best _ _ _ hrule⟩

end ShiftReduce
