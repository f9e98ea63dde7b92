import ShiftReduce.Proofs.Parser.Actions
import ShiftReduce.Proofs.Parser.Stack

namespace ShiftReduce

open Automaton

variable {ctx : Context} {alg : Algorithm} {a : Automaton} {t : ParseTable} {p : Parser}
  {tokens : TokenStream} {token : Token} {q : StateId} {x : Terminal} {r : RuleId}

namespace Parser

-- The stack is linked, its trees have the shifted tokens as leaves, and only a tree of the start
-- symbol before the end of input is accepted.
structure Sound (g : Grammar) (a : Automaton) (t : ParseTable) (tokens : TokenStream) (p : Parser) :
    Prop where
  table_eq : p.table = t
  stream   : p.tokens = tokens
  linked   : Linked g a p.stack
  cursor   : p.cursor ≤ tokens.length
  leaves   : ParseTree.leavesOfAll p.values =
    (tokens.tokens.toList.take p.cursor).map Token.pair
  accepted : p.status = .accepted → ∃ tree token, p.values = [tree] ∧
    Derives g (.nonterminal g.start) tree ∧ tokens.get? p.cursor = some token ∧ token.IsEndOfInput

theorem state_eq : p.state = topOf p.stack :=
  topState_eq

-- The token that a running parser is going to act on.
structure Meets (p : Parser) (token : Token) : Prop where
  status : p.status = .running
  next   : p.tokens.get? p.cursor = some token

theorem Meets.step_eq (h : p.Meets token) : p.step = match p.action? token with
    | none             => ({ p with status := .failed }, .error (.parse (p.unexpected token)))
    | some (.shift q)  => ((p.shift token q).1, .ok (p.shift token q).2)
    | some (.reduce r) => p.reduce r
    | some .accept     => ({ p with status := .accepted }, .ok .accept)
    | some (.goto _)   => (p, .error (.invariant (.missingGoto p.state token.kind))) := by
  have hget : p.tokens.get p.cursor = .ok token := by rw [TokenStream.get, h.next]
  rw [step, if_neg (not_not.mpr h.status)]
  cases ha : p.action? token
  case none   => simp only [hget, ha]
  case some α => cases α <;> simp only [hget, ha]

-- What a step can be, and what it leaves.
inductive Performs (p : Parser) : Parser × Except Error ParseStep → Prop
  | halted :
    p.status ≠ .running → Performs p (p, .error <| .sequencing .parserHalted)
  | exhausted :
    p.tokens.get? p.cursor = none →
    Performs p (p, .error <| .sequencing <| .tokenExhausted p.cursor)
  | unexpected {token : Token} :
    Meets p token → p.action? token = none →
    Performs p ({ p with status := .failed }, .error <| .parse <| p.unexpected token)
  | shift {token : Token} {q : StateId} :
    Meets p token → p.action? token = some (.shift q) →
    Performs p ((p.shift token q).1, .ok (p.shift token q).2)
  | reduce {token : Token} {r : RuleId} :
    Meets p token → p.action? token = some (.reduce r) → Performs p (p.reduce r)
  | accept {token : Token} :
    Meets p token → p.action? token = some .accept →
    Performs p ({ p with status := .accepted }, .ok .accept)
  | goto {token : Token} {q : StateId} :
    Meets p token → p.action? token = some (.goto q) →
    Performs p (p, .error <| .invariant <| .missingGoto p.state token.kind)

theorem performs_step : p.Performs p.step := by
  by_cases hp : p.status = .running
  case neg =>
    rw [step, if_pos hp]
    exact .halted hp
  case pos =>
    cases hnext : p.tokens.get? p.cursor
    case none =>
      rw [step, if_neg (not_not.mpr hp), TokenStream.get, hnext]
      exact .exhausted hnext
    case some token =>
      have hmeets : p.Meets token := ⟨hp, hnext⟩
      rw [hmeets.step_eq]
      split
      case h_1 ha => exact .unexpected hmeets ha
      case h_2 ha => exact .shift hmeets ha
      case h_3 ha => exact .reduce hmeets ha
      case h_4 ha => exact .accept hmeets ha
      case h_5 ha => exact .goto hmeets ha

-- A reduction changes nothing but the stack.
theorem exists_reduce_eq (p : Parser) (r : RuleId) :
    ∃ stack, (p.reduce r).1 = { p with stack } := by
  unfold Parser.reduce
  dsimp only
  split
  case isTrue => exact ⟨p.stack, rfl⟩
  case isFalse =>
    split
    all_goals exact ⟨_, rfl⟩

theorem reduce_cases (p : Parser) (r : RuleId) :
    (∃ e, (p.reduce r).2 = .error (.invariant e)) ∨
      ∃ popped exposed q node, (p.reduce r).2 = .ok (.reduce r popped exposed q node) := by
  unfold Parser.reduce
  dsimp only
  split
  case isTrue => exact .inl ⟨_, rfl⟩
  case isFalse =>
    split
    case h_1 => exact .inl ⟨_, rfl⟩
    case h_2 => exact .inr ⟨_, _, _, _, rfl⟩

-- The table and the tokens stay.
theorem exists_step_eq (p : Parser) :
    ∃ cursor stack status, p.step.1 = { p with cursor, stack, status } := by
  have hperforms := p.performs_step
  generalize p.step = result at hperforms
  cases hperforms
  case halted | exhausted | unexpected | shift | accept | goto => exact ⟨_, _, _, rfl⟩
  case reduce r _ _ =>
    obtain ⟨stack, hstack⟩ := p.exists_reduce_eq r
    exact ⟨p.cursor, stack, p.status, hstack⟩

theorem step_of_not_meets (h : ∀ token, ¬ p.Meets token) : p.step.1 = p := by
  have hperforms := p.performs_step
  generalize p.step = result at hperforms
  cases hperforms
  case halted | exhausted => rfl
  case unexpected hmeets _ | shift hmeets _ | reduce hmeets _ | accept hmeets _ | goto hmeets _ =>
    exact absurd hmeets (h _)

theorem runFor_of_tree? {fuel : Nat} {tree : ParseTree} (hp : p.status ≠ .running)
    (ht : p.tree? = some tree) : p.runFor fuel = (p, .ok <| some tree) := by
  rw [runFor.eq_def, if_neg hp]
  simp only [ht]

-- The tree of a reduction.
def reduced (g : Grammar) (r : RuleId) (frames : List Frame) : ParseTree :=
  .node (g.name <| .nonterminal <| g.left r) (frames.map (·.tree)).reverse

theorem reduce_eq {k : Nat} (hk : (p.table.grammar.right r).length = k) (hl : k ≤ p.stack.length)
    (hgoto : p.table.goto? (topOf <| p.stack.drop k) (p.table.grammar.left r) = some q) :
    let node := reduced p.table.grammar r (p.stack.take k)
    p.reduce r = ({ p with stack := ⟨q, node⟩ :: p.stack.drop k },
      .ok <| .reduce r k (topOf <| p.stack.drop k) q node) := by
  subst hk
  have hlength : ¬ (p.stack.take (p.table.grammar.right r).length).length <
      (p.table.grammar.right r).length := by
    rw [List.length_take]
    omega
  rw [reduce]
  simp only [if_neg hlength, topState_eq, hgoto]
  rfl

namespace Sound

theorem init : Sound ctx.grammar a t tokens (initial t tokens) where
  table_eq := rfl
  stream   := rfl
  linked   := .nil
  cursor   := Nat.zero_le _
  leaves   := rfl
  accepted := by simp [initial]

theorem shift (h : Sound ctx.grammar a t tokens p) (hp : p.status = .running)
    (htoken : tokens.get? p.cursor = some token)
    (hx : ctx.grammar.vocabulary.terminal? token.kind = some x)
    (ht : a.transition? p.state (.terminal x) = some q) :
    Sound ctx.grammar a t tokens (p.shift token q).1 where
  table_eq := h.table_eq
  stream   := h.stream
  linked   := .push h.linked (state_eq ▸ ht) (.leaf hx)
  cursor   := (Array.getElem?_eq_some_iff.mp htoken).choose
  leaves   := by
    have hget : tokens.tokens.toList[p.cursor]? = some token := by
      rw [Array.getElem?_toList]
      exact htoken
    have hvalues : (p.shift token q).1.values = p.values ++ [.leaf token.kind token.value] := by
      simp [Parser.shift, values]
    have hcursor : (p.shift token q).1.cursor = p.cursor + 1 := rfl
    rw [hvalues, ParseTree.leavesOfAll_append, h.leaves, hcursor, List.take_add_one, hget,
      List.map_append]
    rfl
  accepted := by simp [Parser.shift, hp]

-- A reduction finds what it takes off the stack, and a goto for what it puts there.
theorem reduce (h : Sound ctx.grammar a t tokens p) (hg : ctx.grammar.WellFormed)
    (hc : a.Coherent ctx) (htable : IsTableOf ctx a t) (hp : p.status = .running)
    (ha : t.action? p.state x = some (.reduce r)) :
    (ctx.grammar.right r).length ≤ p.stack.length ∧ ∃ q tree,
      let k := (ctx.grammar.right r).length
      let p' := { p with stack := ⟨q, tree⟩ :: p.stack.drop k }
      a.transition? (topOf <| p.stack.drop k) (.nonterminal <| ctx.grammar.left r) = some q ∧
      p.reduce r = (p', .ok <| .reduce r k (topOf <| p.stack.drop k) q tree) ∧
      Sound ctx.grammar a t tokens p' := by
  obtain ⟨hne, hrule, n, hn, hitem⟩ := htable.complete_of_reduce hg hc ha
  rw [state_eq] at hn
  obtain ⟨hle, hrest, htrees, m, hm, hfront⟩ := h.linked.unwind hc hn hitem
  rw [List.take_length] at htrees
  obtain ⟨d, hd, hnext⟩ := hrest.exists_predicting hc hm hfront hne
  obtain ⟨q, htransition⟩ := hc.exists_transition? hm hd hnext
  have hgrammar : p.table.grammar = ctx.grammar := by rw [h.table_eq, htable.grammar]
  have hgoto : p.table.goto? (topOf <| p.stack.drop (ctx.grammar.right r).length)
      (p.table.grammar.left r) = some q := by
    rw [hgrammar, h.table_eq]
    exact htable.goto?_eq_of_transition? hc htransition
  have hstep := reduce_eq (congrArg (fun g => (g.right r).length) hgrammar) hle hgoto
  rw [hgrammar] at hstep
  refine ⟨hle, q, _, htransition, hstep, ?_⟩
  constructor
  case table_eq => exact h.table_eq
  case stream   => exact h.stream
  case linked   => exact .push hrest htransition (.node hrule hne htrees)
  case cursor   => exact h.cursor
  case accepted => simp [hp]
  case leaves =>
    rw [← h.leaves, values, values]
    have hsplit := List.take_append_drop (ctx.grammar.right r).length p.stack
    have hvalues : (p.stack.map (·.tree)).reverse =
        ((p.stack.drop (ctx.grammar.right r).length).map (·.tree)).reverse ++
          ((p.stack.take (ctx.grammar.right r).length).map (·.tree)).reverse := by
      rw [← List.reverse_append, ← List.map_append, hsplit]
    rw [hvalues, ParseTree.leavesOfAll_append, List.map_cons, List.reverse_cons,
      ParseTree.leavesOfAll_append]
    simp [reduced, ParseTree.leavesOfAll, ParseTree.leaves]

theorem accept (h : Sound ctx.grammar a t tokens p) (hg : ctx.grammar.WellFormed)
    (hc : a.Coherent ctx) (htable : IsTableOf ctx a t)
    (htoken : tokens.get? p.cursor = some token)
    (hx : ctx.grammar.vocabulary.terminal? token.kind = some x)
    (ha : t.action? p.state x = some .accept) :
    Sound ctx.grammar a t tokens { p with status := .accepted } := by
  refine ⟨h.table_eq, h.stream, h.linked, h.cursor, h.leaves, fun _ => ?_⟩
  obtain ⟨hend, n, hn, hitem⟩ := htable.complete_of_accept hg hc ha
  rw [state_eq] at hn
  obtain ⟨frame, hstack, hd⟩ := h.linked.exists_of_accept hc hg hn hitem
  refine ⟨frame.tree, token, by simp [values, hstack], hd, htoken, ?_⟩
  exact hg.vocabulary.name_eq_endOfInputName (hend ▸ hx)

theorem exists_of_action? {α : Action} (h : Sound ctx.grammar a t tokens p)
    (htable : IsTableOf ctx a t) (ha : p.action? token = some α) :
    ∃ x, ctx.grammar.vocabulary.terminal? token.kind = some x ∧ t.action? p.state x = some α := by
  obtain ⟨x, hx, ha⟩ := Option.bind_eq_some_iff.mp ha
  rw [h.table_eq] at ha hx
  exact ⟨x, htable.grammar ▸ hx, ha⟩

-- Every step keeps soundness, also one that fails.
theorem step (h : Sound ctx.grammar a t tokens p) (hg : ctx.grammar.WellFormed)
    (hc : a.Coherent ctx) (htable : IsTableOf ctx a t) :
    Sound ctx.grammar a t tokens p.step.1 := by
  have hperforms := p.performs_step
  generalize p.step = result at hperforms
  cases hperforms
  case halted | exhausted | goto => exact h
  case unexpected => exact ⟨h.table_eq, h.stream, h.linked, h.cursor, h.leaves, by simp⟩
  case shift hmeets ha =>
    obtain ⟨x, hx, ha⟩ := h.exists_of_action? htable ha
    exact h.shift hmeets.status (h.stream ▸ hmeets.next) hx <| htable.transition?_of_shift hc ha
  case reduce hmeets ha =>
    obtain ⟨x, _, ha⟩ := h.exists_of_action? htable ha
    obtain ⟨_, _, _, _, hreduce, hsound⟩ := h.reduce hg hc htable hmeets.status ha
    rw [hreduce]
    exact hsound
  case accept hmeets ha =>
    obtain ⟨x, hx, ha⟩ := h.exists_of_action? htable ha
    exact h.accept hg hc htable (h.stream ▸ hmeets.next) hx ha

theorem iterate (h : Sound ctx.grammar a t tokens p) (hg : ctx.grammar.WellFormed)
    (hc : a.Coherent ctx) (htable : IsTableOf ctx a t) (n : Nat) :
    Sound ctx.grammar a t tokens ((fun p => p.step.1)^[n] p) := by
  induction n generalizing p
  case zero      => exact h
  case succ n hi => exact hi <| h.step hg hc htable

end Sound
end Parser

-- What an evaluation says about a parser after so many steps.
theorem eq_of_run {ctx' : Context} {a : Automaton} {t : ParseTable} {β : Type}
    (tokens : TokenStream) (n : Nat) (f : Parser → β) {b : β}
    (h : (do
      let a ← Automaton.build ctx alg
      let t ← ParseTable.build a ctx'
      return f ((fun p => p.step.1)^[n] (Parser.initial t tokens))) = Except.ok (ε := Error) b)
    (ha : Automaton.build ctx alg = .ok a) (ht : ParseTable.build a ctx' = .ok t) :
    f ((fun p => p.step.1)^[n] (Parser.initial t tokens)) = b :=
  eq_of_builds (fun t => f ((fun p => p.step.1)^[n] (Parser.initial t tokens))) h ha ht

-- For every automaton and its table, every stream of tokens, and every number of steps.
theorem parser_sound (h : ctx.grammar.IsDefined) :
    ∃ a t, Automaton.build ctx alg = .ok a ∧ ParseTable.build a ctx = .ok t ∧
      ∀ (tokens : TokenStream) (n : Nat),
        let p := (fun p => p.step.1)^[n] (Parser.initial t tokens)
        p.states.length = p.values.length + 1 ∧
        (∀ i tree, p.values[i]? = some tree → ∃ q q' s,
          p.states[i]? = some q ∧ p.states[i + 1]? = some q' ∧
          a.transition? q s = some q' ∧ Derives ctx.grammar s tree ∧
          ctx.grammar.vocabulary.symbol? tree.symbol = some s) ∧
        p.cursor ≤ tokens.length ∧
        ParseTree.leavesOfAll p.values =
          (tokens.tokens.toList.take p.cursor).map (fun token => (token.kind, token.value)) ∧
        (p.status = .accepted → ∃ tree token, p.values = [tree] ∧
          Derives ctx.grammar (.nonterminal ctx.grammar.start) tree ∧
          tokens.get? p.cursor = some token ∧ token.kind = Vocabulary.endOfInputName) := by
  have hg := h.wellFormed
  obtain ⟨a, hbuild, houtcome, hdone⟩ := exists_build hg alg
  obtain ⟨t, ht, htable⟩ := exists_table ctx hdone
  refine ⟨a, t, hbuild, ht, fun tokens n => ?_⟩
  have hinit : Parser.Sound ctx.grammar a t tokens (.initial t tokens) := .init
  have hsound := hinit.iterate hg (houtcome.coherent hg) htable n
  intro p
  refine ⟨by simp [Parser.states, Parser.values], ?_, hsound.cursor, hsound.leaves,
    hsound.accepted⟩
  intro i tree hi
  obtain ⟨q, q', s, hq, hq', htransition, hd⟩ := hsound.linked.transition_of_getElem? hi
  exact ⟨q, q', s, hq, hq', htransition, hd, hd.symbol?_symbol hg⟩

theorem parser_sound_on_repetition : Grammar.repetition.IsDefined ∧
    ∃ a t, Automaton.build (.ofGrammar .repetition) .lalrByMerging = .ok a ∧
      ParseTable.build a (.ofGrammar .repetition) = .ok t ∧
      ∀ (tokens : TokenStream) (n : Nat),
        let p := (fun p => p.step.1)^[n] (Parser.initial t tokens)
        p.status = .accepted → ∃ tree token, p.values = [tree] ∧
          Derives .repetition (.nonterminal ⟨1⟩) tree ∧
          tokens.get? p.cursor = some token ∧ token.kind = Vocabulary.endOfInputName := by
  obtain ⟨a, t, ha, ht, hsound⟩ :=
    @parser_sound (.ofGrammar .repetition) .lalrByMerging Grammar.repetition_isDefined
  refine ⟨Grammar.repetition_isDefined, a, t, ha, ht, fun tokens n => ?_⟩
  obtain ⟨_, _, _, _, haccepted⟩ := hsound tokens n
  exact haccepted

end ShiftReduce
