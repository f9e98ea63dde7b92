import Mathlib.Data.List.TakeWhile
import ShiftReduce.Proofs.Parser.Runs

namespace ShiftReduce

open Automaton

namespace Token

-- The tokens before the first end of input.
def untilEnd (tokens : List Token) : List Token :=
  tokens.takeWhile fun token => ¬ token.IsEndOfInput

variable {tokens rest : List Token} {last : Token}

theorem untilEnd_append (h : ∀ token ∈ tokens, ¬ token.IsEndOfInput) :
    untilEnd (tokens ++ rest) = tokens ++ untilEnd rest :=
  List.takeWhile_append_of_pos fun token hmem => decide_eq_true (h token hmem)

theorem untilEnd_cons (h : last.IsEndOfInput) : untilEnd (last :: rest) = [] :=
  List.takeWhile_cons_of_neg (by simpa using h)

theorem untilEnd_concat (h : last.IsEndOfInput) :
    untilEnd (tokens ++ [last]) = untilEnd tokens := by
  induction tokens
  case nil => exact untilEnd_cons h
  case cons token _ hi =>
    by_cases ht : token.IsEndOfInput
    case pos => rw [List.cons_append, untilEnd_cons ht, untilEnd_cons ht]
    case neg => simpa [untilEnd, ht] using hi

theorem untilEnd_eq_self_iff :
    untilEnd tokens = tokens ↔ ∀ token ∈ tokens, ¬ token.IsEndOfInput := by
  simp [untilEnd, List.takeWhile_eq_self_iff]

theorem untilEnd_eq_self_iff_length :
    untilEnd tokens = tokens ↔ (untilEnd tokens).length = tokens.length :=
  ⟨congrArg List.length, (List.takeWhile_prefix _).eq_of_length⟩

theorem untilEnd_stripped : untilEnd (stripped tokens) = untilEnd tokens := by
  unfold stripped
  split
  case h_2 => rfl
  case h_1 last hlast =>
    split
    case isFalse => rfl
    case isTrue hend =>
      rw [← untilEnd_concat hend, List.dropLast_append_getLast? last hlast]

end Token

namespace TokenStream

open Token

variable {tokens : List Token}

theorem untilEnd_ofTokens : untilEnd (ofTokens tokens).tokens.toList = untilEnd tokens := by
  obtain ⟨last, hstream, hend⟩ := exists_ofTokens_eq tokens
  rw [hstream, untilEnd_concat hend, untilEnd_stripped]

theorem length_ofTokens : (ofTokens tokens).length = (stripped tokens).length + 1 := by
  obtain ⟨last, hstream, _⟩ := exists_ofTokens_eq tokens
  have hlength := congrArg List.length hstream
  rwa [Array.length_toList, List.length_append, List.length_singleton] at hlength

end TokenStream

open Token TokenStream

variable {ctx : Context} {alg : Algorithm} {a : Automaton} {t : ParseTable} {stream : TokenStream}
  {p : Parser}

namespace Parser.Sound

variable (h : Sound ctx.grammar a t stream p) (hg : ctx.grammar.WellFormed) (hc : a.Coherent ctx)

include h

theorem length_take_cursor : (stream.tokens.toList.take p.cursor).length = p.cursor :=
  List.length_take_of_le h.cursor

include hg hc

-- None of the shifted tokens is an end of input.
theorem untilEnd_eq : untilEnd stream.tokens.toList =
    stream.tokens.toList.take p.cursor ++ untilEnd (stream.tokens.toList.drop p.cursor) := by
  rw [← untilEnd_append, List.take_append_drop]
  intro token htoken
  have hleaf : token.pair ∈ ParseTree.leavesOfAll p.values := by
    rw [h.leaves]
    exact List.mem_map_of_mem htoken
  exact h.linked.ne_endOfInput hg hc _ hleaf

theorem cursor_le : p.cursor ≤ (untilEnd stream.tokens.toList).length := by
  rw [h.untilEnd_eq hg hc, List.length_append, h.length_take_cursor]
  exact Nat.le_add_right ..

-- The end of input that a tree is accepted on is the first one.
theorem take_cursor_of_accepted (hp : p.status = .accepted) :
    stream.tokens.toList.take p.cursor = untilEnd stream.tokens.toList := by
  obtain ⟨_, token, _, _, htoken, hend⟩ := h.accepted hp
  obtain ⟨hlt, hget⟩ := Array.getElem?_eq_some_iff.mp htoken
  rw [h.untilEnd_eq hg hc, List.drop_eq_getElem_cons hlt, Array.getElem_toList, hget,
    untilEnd_cons hend, List.append_nil]

theorem cursor_of_accepted (hp : p.status = .accepted) :
    p.cursor = (untilEnd stream.tokens.toList).length := by
  rw [← h.take_cursor_of_accepted hg hc hp, h.length_take_cursor]

end Parser.Sound

-- For every automaton and its table, all tokens, and every number of steps: an end of input is
-- never shifted. A parser that has accepted stands on the first one, with a tree of all tokens
-- before it. It stands at the end of the stream if and only if the tree has all tokens that were
-- supplied, but for an end of input that came last, and that is if and only if there is no other
-- one among them.
theorem acceptance_exact (h : ctx.grammar.IsDefined) :
    ∃ a t, Automaton.build ctx alg = .ok a ∧ ParseTable.build a ctx = .ok t ∧
      ∀ (tokens : List Token) (n : Nat),
        let p := (fun p => p.step.1)^[n] (Parser.initial t (.ofTokens tokens))
        p.cursor ≤ (untilEnd tokens).length ∧
        (p.status = .accepted → p.cursor = (untilEnd tokens).length ∧ ∃ tree,
          p.tree? = some tree ∧ tree.leaves = (untilEnd tokens).map Token.pair ∧
          (p.cursor + 1 = (ofTokens tokens).length ↔
            ∀ token ∈ stripped tokens, ¬ token.IsEndOfInput) ∧
          (tree.leaves = (stripped tokens).map Token.pair ↔
            ∀ token ∈ stripped tokens, ¬ token.IsEndOfInput)) := by
  have hg := h.wellFormed
  obtain ⟨a, hbuild, houtcome, hdone⟩ := exists_build hg alg
  obtain ⟨t, ht, htable⟩ := exists_table ctx hdone
  have hc := houtcome.coherent hg
  refine ⟨a, t, hbuild, ht, fun tokens n => ?_⟩
  have hinit : Parser.Sound ctx.grammar a t (ofTokens tokens) (.initial t (ofTokens tokens)) :=
    .init
  have hsound := hinit.iterate hg hc htable n
  intro p
  have hle := hsound.cursor_le hg hc
  rw [untilEnd_ofTokens] at hle
  refine ⟨hle, fun hp => ?_⟩
  have hcursor := hsound.cursor_of_accepted hg hc hp
  rw [untilEnd_ofTokens] at hcursor
  obtain ⟨tree, htree, hvalues, _⟩ := hsound.exists_tree? hp
  have hleaves : tree.leaves = (untilEnd tokens).map Token.pair := by
    have hleaves := hsound.leaves
    rwa [hvalues, hsound.take_cursor_of_accepted hg hc hp, untilEnd_ofTokens,
      ParseTree.leavesOfAll, ParseTree.leavesOfAll, List.append_nil] at hleaves
  have hall : (untilEnd tokens).length = (stripped tokens).length ↔
      ∀ token ∈ stripped tokens, ¬ token.IsEndOfInput := by
    rw [← untilEnd_stripped, ← untilEnd_eq_self_iff_length, untilEnd_eq_self_iff]
  refine ⟨hcursor, tree, htree, hleaves, ?_, ?_⟩
  · rw [length_ofTokens, Nat.add_right_cancel_iff, hcursor, hall]
  · rw [hleaves]
    constructor
    case mp =>
      intro hsame
      exact hall.mp (by simpa using congrArg List.length hsame)
    case mpr =>
      intro hnone
      rw [← untilEnd_stripped, untilEnd_eq_self_iff.mpr hnone]

section Repetition

open Grammar

def endedTokens : List Token :=
  [⟨"a", "1", {}⟩, ⟨"a", "2", {}⟩, .endOfInput]

-- An end of input that comes last is not part of the tree.
theorem acceptance_exact_on_repetition : repetition.IsDefined ∧
    ∃ a t, Automaton.build (.ofGrammar repetition) .lalrByMerging = .ok a ∧
      ParseTable.build a (.ofGrammar repetition) = .ok t ∧
      let p := (fun p => p.step.1)^[6] (Parser.initial t (.ofTokens endedTokens))
      p.status = .accepted ∧ p.cursor + 1 = (ofTokens endedTokens).length ∧ ∃ tree,
        p.tree? = some tree ∧ tree.leaves = [("a", "1"), ("a", "2")] := by
  obtain ⟨a, t, ha, ht, hexact⟩ :=
    @acceptance_exact (.ofGrammar repetition) .lalrByMerging repetition_isDefined
  refine ⟨repetition_isDefined, a, t, ha, ht, ?_⟩
  intro p
  have hp : p.status = .accepted := eq_of_run _ 6 (·.status) (by decide +kernel) ha ht
  obtain ⟨_, haccepted⟩ := hexact endedTokens 6
  obtain ⟨_, tree, htree, hleaves, hend, _⟩ := haccepted hp
  have hread : (untilEnd endedTokens).map Token.pair = [("a", "1"), ("a", "2")] := by decide
  exact ⟨hp, hend.mpr (by decide), tree, htree, hleaves.trans hread⟩

def interruptedTokens : List Token :=
  [⟨"a", "1", {}⟩, .endOfInput, ⟨"a", "2", {}⟩]

-- With an end of input between two tokens, the second one is never read.
theorem acceptance_drops_token_on_repetition : repetition.IsDefined ∧
    ∃ a t, Automaton.build (.ofGrammar repetition) .lalrByMerging = .ok a ∧
      ParseTable.build a (.ofGrammar repetition) = .ok t ∧
      let p := (fun p => p.step.1)^[4] (Parser.initial t (.ofTokens interruptedTokens))
      p.status = .accepted ∧ p.cursor = 1 ∧ (ofTokens interruptedTokens).length = 4 ∧
      p.tree? = some (.node "S" [.node "S" [], .leaf "a" "1"]) := by
  have hg : (Context.ofGrammar repetition).grammar.WellFormed := repetition_isDefined.wellFormed
  obtain ⟨a, ha, _, hdone⟩ := exists_build hg .lalrByMerging
  obtain ⟨t, ht, _⟩ := exists_table (.ofGrammar repetition) hdone
  refine ⟨repetition_isDefined, a, t, ha, ht, ?_⟩
  exact ⟨eq_of_run _ 4 (·.status) (by decide +kernel) ha ht,
    eq_of_run _ 4 (·.cursor) (by decide +kernel) ha ht, by decide,
    eq_of_run _ 4 (·.tree?) (by decide +kernel) ha ht⟩

end Repetition
end ShiftReduce
