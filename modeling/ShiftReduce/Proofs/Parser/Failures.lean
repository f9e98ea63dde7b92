import ShiftReduce.Proofs.Parser.Runs
import ShiftReduce.Proofs.Parser.Safety

namespace ShiftReduce

open Automaton

variable {ctx : Context} {alg : Algorithm} {a : Automaton} {t : ParseTable} {p p' : Parser}
  {tokens : TokenStream} {r : RuleId} {e : Error} {i : Nat}

namespace Parser

-- The state that a reduction comes to below the right side of its rule.
def exposed (p : Parser) (r : RuleId) : StateId :=
  topState p.table (p.stack.drop (p.table.grammar.right r).length)

-- What is left of a parser if a reduction has no goto.
def unwound (p : Parser) (r : RuleId) : Parser :=
  { p with stack := p.stack.drop (p.table.grammar.right r).length }

-- The error of a reduction without a goto.
def missingGoto (p : Parser) (r : RuleId) : Error :=
  .invariant <| .missingGoto (p.exposed r) <|
    p.table.grammar.name <| .nonterminal <| p.table.grammar.left r

-- A reduction is due that takes something off the stack and then has no goto.
structure CutsShort (p : Parser) (r : RuleId) : Prop where
  due    : ∃ token, p.Meets token ∧ p.action? token = some (.reduce r)
  pos    : 0 < (p.table.grammar.right r).length
  height : (p.table.grammar.right r).length ≤ p.stack.length
  stuck  : p.table.goto? (p.exposed r) (p.table.grammar.left r) = none

-- Only an unexpected token changes the status.
def statusAfter (p : Parser) : Error → Status
  | .parse _ => .failed
  | _        => p.status

-- What a failing step leaves: the parser itself, but for its status, or what a reduction has left.
inductive Leaves (p : Parser) : Parser → Error → Prop
  | unchanged {e : Error} :
    (∀ u, e ≠ .parse u) → (∀ r, ¬ p.CutsShort r) → Leaves p p e
  | unexpected {token : Token} :
    p.Meets token → p.action? token = none →
    Leaves p { p with status := .failed } (.parse <| p.unexpected token)
  | unwound {r : RuleId} :
    p.CutsShort r → Leaves p (p.unwound r) (p.missingGoto r)

theorem Meets.unique {token token' : Token} (h : p.Meets token) (h' : p.Meets token') :
    token = token' :=
  Option.some.inj <| h.next.symm.trans h'.next

theorem CutsShort.action?_eq {token : Token} (h : p.CutsShort r) (hmeets : p.Meets token) :
    p.action? token = some (.reduce r) := by
  obtain ⟨_, hmeets', ha⟩ := h.due
  exact hmeets.unique hmeets' ▸ ha

theorem CutsShort.exists_meets (h : p.CutsShort r) : ∃ token, p.Meets token := by
  obtain ⟨token, hmeets, _⟩ := h.due
  exact ⟨token, hmeets⟩

theorem CutsShort.step_eq (h : p.CutsShort r) :
    p.step = (p.unwound r, .error (p.missingGoto r)) := by
  obtain ⟨token, hmeets, ha⟩ := h.due
  have hheight : ¬ (p.stack.take (p.table.grammar.right r).length).length <
      (p.table.grammar.right r).length := by
    simpa using h.height
  have hstuck :
      p.table.goto? (topState p.table <| p.stack.drop _) (p.table.grammar.left r) = none := h.stuck
  rw [hmeets.step_eq, ha]
  simp only [reduce, if_neg hheight, hstuck]
  rfl

-- A reduction fails on a stack that is too low, which it leaves, or because it has no goto.
theorem reduce_eq_of_error (h : (p.reduce r).2 = .error e) :
    (p.stack.length < (p.table.grammar.right r).length ∧ p.reduce r =
      (p, .error (.invariant (.stackUnderflow r)))) ∨
    ((p.table.grammar.right r).length ≤ p.stack.length ∧
      p.table.goto? (p.exposed r) (p.table.grammar.left r) = none ∧
      p.reduce r = (p.unwound r, .error (p.missingGoto r))) := by
  unfold Parser.reduce at h ⊢
  dsimp only at h ⊢
  split
  case isTrue hlow => exact .inl ⟨by simpa using hlow, rfl⟩
  case isFalse hhigh =>
    rw [if_neg hhigh] at h
    refine .inr ⟨by simpa using hhigh, ?_⟩
    split at h
    case h_1 hnone => exact ⟨hnone, rfl⟩
    case h_2 => contradiction

theorem leaves_reduce {token : Token} (hmeets : p.Meets token)
    (ha : p.action? token = some (.reduce r)) (h : (p.reduce r).2 = .error e) :
    p.Leaves (p.reduce r).1 e := by
  have hrule {r' : RuleId} (hr : p.CutsShort r') : r' = r := by
    have hr := ha.symm.trans <| hr.action?_eq hmeets
    simpa using hr.symm
  obtain ⟨hlow, heq⟩ | ⟨hhigh, hnone, heq⟩ := reduce_eq_of_error h
  all_goals
    rw [heq] at h ⊢
    cases h
  case inl =>
    refine .unchanged (by simp) fun r' hr => ?_
    cases hrule hr
    exact Nat.not_lt_of_le hr.height hlow
  case inr =>
    cases Nat.eq_zero_or_pos (p.table.grammar.right r).length
    case inr hpos => exact .unwound ⟨⟨token, hmeets, ha⟩, hpos, hhigh, hnone⟩
    case inl hzero =>
      have hsame : p.unwound r = p := by rw [unwound, hzero, List.drop_zero]
      rw [hsame]
      refine .unchanged (by simp [missingGoto]) fun r' hr => ?_
      cases hrule hr
      exact Nat.ne_of_gt hr.pos hzero

theorem leaves_of_error (h : p.step.2 = .error e) : p.Leaves p.step.1 e := by
  have hnot (hnone : ∀ token, ¬ p.Meets token) (r : RuleId) : ¬ p.CutsShort r := by
    intro hr
    obtain ⟨token, hmeets⟩ := hr.exists_meets
    exact hnone token hmeets
  have hperforms := p.performs_step
  generalize p.step = result at hperforms h
  cases hperforms
  case shift | accept => simp at h
  case reduce hmeets ha => exact leaves_reduce hmeets ha h
  case unexpected hmeets ha =>
    cases h
    exact .unexpected hmeets ha
  case halted hhalted =>
    cases h
    exact .unchanged (by simp) <| hnot fun _ hmeets => hhalted hmeets.status
  case exhausted hnone =>
    cases h
    exact .unchanged (by simp) <| hnot fun _ hmeets => by simp [hmeets.next] at hnone
  case goto hmeets ha =>
    cases h
    refine .unchanged (by simp) fun r hr => ?_
    have hr := ha.symm.trans <| hr.action?_eq hmeets
    simp at hr

-- What every failure keeps, and when it keeps the stack.
theorem Leaves.keeps (h : p.Leaves p' e) :
    p'.cursor = p.cursor ∧ p'.tokens = p.tokens ∧ p'.table = p.table ∧
      p'.status = p.statusAfter e ∧ (p'.stack = p.stack ↔ ∀ r, ¬ p.CutsShort r) := by
  cases h
  case unchanged hnone hparse =>
    refine ⟨rfl, rfl, rfl, ?_, fun _ => hnone, fun _ => rfl⟩
    cases e
    case parse u => exact absurd rfl <| hparse u
    all_goals rfl
  case unexpected token hmeets ha =>
    refine ⟨rfl, rfl, rfl, rfl, fun _ r hr => ?_, fun _ => rfl⟩
    have hr := ha.symm.trans <| hr.action?_eq hmeets
    simp at hr
  case unwound r hr =>
    refine ⟨rfl, rfl, rfl, rfl, fun hstack => ?_, fun hnone => absurd hr <| hnone r⟩
    have hlength : p.stack.length - (p.table.grammar.right r).length = p.stack.length := by
      rw [← List.length_drop]
      exact congrArg List.length hstack
    have hpos := hr.pos
    have hheight := hr.height
    omega

-- Only a running parser exhausts its tokens, and it stays as it is.
theorem step_of_tokenExhausted (h : p.step.2 = .error (.sequencing (.tokenExhausted i))) :
    p.status = .running ∧ p.step.1 = p := by
  refine ⟨?_, step_of_not_meets <| not_meets_of_sequencing h⟩
  by_contra hp
  rw [step, if_pos hp] at h
  simp at h

-- The two stacks are the two halves of the frames.
theorem stack_eq_iff (h : p'.table = p.table) :
    (p'.states = p.states ∧ p'.values = p.values) ↔ p'.stack = p.stack := by
  have hfrom (stack : List Frame) : stack =
      List.zipWith Frame.mk (stack.map (·.state)) (stack.map (·.tree)) := by
    rw [List.zipWith_map, List.zipWith_self, List.map_id']
  simp only [states, values, h, List.cons.injEq, true_and, List.reverse_inj]
  constructor
  case mp =>
    rintro ⟨hstates, htrees⟩
    rw [hfrom p'.stack, hfrom p.stack, hstates, htrees]
  case mpr =>
    intro hstack
    rw [hstack]
    exact ⟨rfl, rfl⟩

end Parser

-- For the automaton of a grammar, the table made of it with the rules of any grammar, its own or
-- another one, and every stream: a step that fails keeps the cursor, and it keeps both stacks if
-- and only if it is not a reduction cut short. Then the right side of the rule is gone. With the
-- rules of the grammar itself no reduction is cut short.
theorem failing_steps_exact (h : ctx.grammar.IsDefined) :
    ∃ a, Automaton.build ctx alg = .ok a ∧ ∀ ctx' : Context,
      ∃ t, ParseTable.build a ctx' = .ok t ∧ ∀ (tokens : TokenStream) (n : Nat) (e : Error),
        let p := (fun p => p.step.1)^[n] (Parser.initial t tokens)
        let p' := p.step.1
        p.step.2 = .error e →
          p'.cursor = p.cursor ∧ p'.tokens = p.tokens ∧ p'.table = p.table ∧
          p'.status = p.statusAfter e ∧
          (∀ i, e = .sequencing (.tokenExhausted i) → p.status = .running ∧ p' = p) ∧
          ((p'.states = p.states ∧ p'.values = p.values) ↔ ∀ r, ¬ p.CutsShort r) ∧
          (∀ r, p.CutsShort r → p' = p.unwound r ∧ e = p.missingGoto r) ∧
          (ctx' = ctx → ∀ r, ¬ p.CutsShort r) := by
  have hg := h.wellFormed
  obtain ⟨a, hbuild, houtcome, hdone⟩ := exists_build hg alg
  refine ⟨a, hbuild, fun ctx' => ?_⟩
  obtain ⟨t, ht, htable⟩ := exists_table ctx' hdone
  refine ⟨t, ht, fun tokens n e => ?_⟩
  intro p p' he
  have hcut (r : RuleId) (hr : p.CutsShort r) : p' = p.unwound r ∧ e = p.missingGoto r := by
    have hstep := hr.step_eq
    have hp' : p' = p.step.1 := rfl
    rw [hstep] at he hp'
    exact ⟨hp', (Except.error.inj he).symm⟩
  obtain ⟨hcursor, htokens, htable', hstatus, hstack⟩ := (Parser.leaves_of_error he).keeps
  refine ⟨hcursor, htokens, htable', hstatus, ?_, (Parser.stack_eq_iff htable').trans hstack, hcut,
    ?_⟩
  · rintro i rfl
    exact Parser.step_of_tokenExhausted he
  · rintro rfl r hr
    have hinit : Parser.Sound ctx'.grammar a t tokens (.initial t tokens) := .init
    have hc := houtcome.coherent hg
    have hsound : Parser.Sound ctx'.grammar a t tokens p := hinit.iterate hg hc htable n
    rw [(hcut r hr).right] at he
    exact hsound.step_ne_invariant hg hc htable _ he

section Misread

namespace Grammar

-- The grammar `S → a T`, `T → b | ε`.
def tailedCalls : List Draft.Call :=
  [.terminal "a", .terminal "b", .nonterminal "S", .nonterminal "T",
    .rule ⟨1⟩ [.terminal ⟨2⟩, .nonterminal ⟨2⟩] none, .rule ⟨2⟩ [.terminal ⟨3⟩] none,
    .rule ⟨2⟩ [] none]

def tailed : Grammar where
  vocabulary := (Draft.afterCalls tailedCalls).vocabulary
  rules      := #[⟨.accept, [.nonterminal ⟨1⟩], 0, 0⟩] ++ (Draft.afterCalls tailedCalls).rules
  start      := ⟨1⟩

theorem tailed_isDefined : tailed.IsDefined :=
  ⟨tailedCalls, by cbv⟩

-- With the same symbols, the grammar `S → a T | b`, `T → ε`.
def misreadCalls : List Draft.Call :=
  [.terminal "a", .terminal "b", .nonterminal "S", .nonterminal "T",
    .rule ⟨1⟩ [.terminal ⟨2⟩, .nonterminal ⟨2⟩] none, .rule ⟨1⟩ [.terminal ⟨3⟩] none,
    .rule ⟨2⟩ [] none]

def misread : Grammar where
  vocabulary := (Draft.afterCalls misreadCalls).vocabulary
  rules      := #[⟨.accept, [.nonterminal ⟨1⟩], 0, 0⟩] ++ (Draft.afterCalls misreadCalls).rules
  start      := ⟨1⟩

theorem misread_isDefined : misread.IsDefined :=
  ⟨misreadCalls, by cbv⟩

end Grammar

def tailTokens : TokenStream :=
  .ofTokens [⟨"a", "1", {}⟩, ⟨"b", "2", {}⟩]

-- Both tokens have been shifted when `S → b` is reduced, with no goto for `S` behind an `a`.
theorem failing_steps_exact_on_misread : Grammar.tailed.IsDefined ∧
    ∃ a t, Automaton.build (.ofGrammar .tailed) .lr1 = .ok a ∧
      ParseTable.build a (.ofGrammar .misread) = .ok t ∧
      let p := (fun p => p.step.1)^[2] (Parser.initial t tailTokens)
      p.step.2 = .error (.invariant (.missingGoto ⟨2⟩ "S")) ∧ p.step.1.cursor = p.cursor ∧
      p.step.1.status = p.status ∧ ∃ r, p.CutsShort r ∧ p.step.1 = p.unwound r := by
  obtain ⟨a, ha, htables⟩ := @failing_steps_exact (.ofGrammar .tailed) .lr1 Grammar.tailed_isDefined
  obtain ⟨t, ht, hfails⟩ := htables (.ofGrammar .misread)
  refine ⟨Grammar.tailed_isDefined, a, t, ha, ht, ?_⟩
  intro p
  have herror : p.step.2 = .error (.invariant (.missingGoto ⟨2⟩ "S")) :=
    eq_of_run tailTokens 2 (·.step.2) (by decide +kernel) ha ht
  have hvalues : decide (p.step.1.values = p.values) = false :=
    eq_of_run tailTokens 2 (fun p => decide (p.step.1.values = p.values)) (by decide +kernel) ha ht
  obtain ⟨hcursor, _, _, hstatus, _, hstack, hcut, _⟩ := hfails tailTokens 2 _ herror
  have hshort : ∃ r, p.CutsShort r := by
    by_contra hnone
    exact of_decide_eq_false hvalues (hstack.mpr <| not_exists.mp hnone).right
  obtain ⟨r, hr⟩ := hshort
  exact ⟨herror, hcursor, hstatus, r, hr, (hcut r hr).left⟩

-- The two grammars have the same symbols and rule numbers. The second token is lost, after which
-- the parser goes on and accepts a tree without it.
theorem failing_step_loses_token_on_misread : Grammar.tailed.IsDefined ∧ Grammar.misread.IsDefined ∧
    Grammar.misread.vocabulary.terminals = Grammar.tailed.vocabulary.terminals ∧
    Grammar.misread.vocabulary.nonterminals = Grammar.tailed.vocabulary.nonterminals ∧
    Grammar.misread.ruleIds = Grammar.tailed.ruleIds ∧
    ∃ a t, Automaton.build (.ofGrammar .tailed) .lr1 = .ok a ∧
      ParseTable.build a (.ofGrammar .misread) = .ok t ∧
      let after (n : Nat) := (fun p => p.step.1)^[n] (Parser.initial t tailTokens)
      (after 2).step.2 = .error (.invariant (.missingGoto ⟨2⟩ "S")) ∧
      (after 2).values = [.leaf "a" "1", .leaf "b" "2"] ∧ (after 3).values = [.leaf "a" "1"] ∧
      (after 2).states = [⟨0⟩, ⟨2⟩, ⟨4⟩] ∧ (after 3).states = [⟨0⟩, ⟨2⟩] ∧
      (after 6).tree? = some (.node "S" [.leaf "a" "1", .node "T" []]) := by
  have hg : (Context.ofGrammar .tailed).grammar.WellFormed := Grammar.tailed_isDefined.wellFormed
  obtain ⟨a, ha, _, hdone⟩ := exists_build hg .lr1
  obtain ⟨t, ht, _⟩ := exists_table (.ofGrammar .misread) hdone
  refine ⟨Grammar.tailed_isDefined, Grammar.misread_isDefined, by decide +kernel,
    by decide +kernel, by decide +kernel, a, t, ha, ht, ?_, ?_, ?_, ?_, ?_, ?_⟩
  · exact eq_of_run tailTokens 2 (·.step.2) (by decide +kernel) ha ht
  · exact eq_of_run tailTokens 2 (·.values) (by decide +kernel) ha ht
  · exact eq_of_run tailTokens 3 (·.values) (by decide +kernel) ha ht
  · exact eq_of_run tailTokens 2 (·.states) (by decide +kernel) ha ht
  · exact eq_of_run tailTokens 3 (·.states) (by decide +kernel) ha ht
  · exact eq_of_run tailTokens 6 (·.tree?) (by decide +kernel) ha ht

end Misread
end ShiftReduce
