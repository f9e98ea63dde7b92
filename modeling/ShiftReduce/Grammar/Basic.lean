import ShiftReduce.Grammar.Vocabulary

namespace ShiftReduce

structure Rule where
  left : Nonterminal
  right : List Symbol
  -- The place in the order of declarations, which breaks ties.
  order : Nat
  priority : Int
deriving DecidableEq

namespace Rule

-- Which of two rules justifies a transition that both ask for: the one of higher priority, then the
-- one declared later.
def Outranks (a b : Rule) : Prop :=
  b.priority < a.priority ∨ (a.priority = b.priority ∧ b.order < a.order)

instance (a b : Rule) : Decidable (a.Outranks b) :=
  inferInstanceAs (Decidable (_ ∨ _))

theorem Outranks.irrefl (a : Rule) : ¬ a.Outranks a := by
  simp [Outranks]

theorem Outranks.trans {a b c : Rule} (h₁ : a.Outranks b) (h₂ : b.Outranks c) : a.Outranks c := by
  simp only [Outranks] at *
  omega

end Rule

-- The rule with the number `0` is the accept rule, which derives the start symbol from the
-- augmented one.
structure Grammar where
  vocabulary : Vocabulary
  rules : Array Rule
  start : Nonterminal

namespace Grammar

def rule? (g : Grammar) (r : RuleId) : Option Rule :=
  g.rules[r.number]?

-- A rule that is not in the grammar counts as the accept rule without a right side.
def rule (g : Grammar) (r : RuleId) : Rule :=
  g.rules.getD r.number ⟨.accept, [], 0, 0⟩

def left (g : Grammar) (r : RuleId) : Nonterminal :=
  (g.rule r).left

def right (g : Grammar) (r : RuleId) : List Symbol :=
  (g.rule r).right

def ruleIds (g : Grammar) : List RuleId :=
  (List.range g.rules.size).map RuleId.mk

-- Those of the first `count` rules that have the left side `n`, with others behind them.
def rulesBelow (g : Grammar) (n : Nonterminal) : (count : Nat) → List RuleId → List RuleId
  | 0, rest => rest
  | k + 1, rest => rulesBelow g n k (if g.left ⟨k⟩ = n then ⟨k⟩ :: rest else rest)

def rulesOf (g : Grammar) (n : Nonterminal) : List RuleId :=
  g.rulesBelow n g.rules.size []

def name (g : Grammar) (s : Symbol) : String :=
  g.vocabulary.name s

theorem rule_eq {g : Grammar} {r : RuleId} : g.rule r = (g.rule? r).getD ⟨.accept, [], 0, 0⟩ := by
  simp [rule, rule?]

theorem left_of_rule? {g : Grammar} {r : RuleId} {rule : Rule} (h : g.rule? r = some rule) :
    g.left r = rule.left := by
  simp [left, rule_eq, h]

theorem right_of_rule? {g : Grammar} {r : RuleId} {rule : Rule} (h : g.rule? r = some rule) :
    g.right r = rule.right := by
  simp [right, rule_eq, h]

-- Only a rule that is there has anything on its right side.
theorem exists_rule?_of_mem_right {g : Grammar} {r : RuleId} {s : Symbol} (h : s ∈ g.right r) :
    ∃ rule, g.rule? r = some rule ∧ s ∈ rule.right := by
  cases hr : g.rule? r
  case none      => simp [right, rule_eq, hr] at h
  case some rule => exact ⟨rule, rfl, right_of_rule? hr ▸ h⟩

theorem mem_ruleIds {g : Grammar} {r : RuleId} : r ∈ g.ruleIds ↔ (g.rule? r).isSome := by
  cases r
  simp [ruleIds, rule?]

theorem rulesBelow_eq {g : Grammar} {n : Nonterminal} {count : Nat} {rest : List RuleId} :
    g.rulesBelow n count rest =
      ((List.range count).map RuleId.mk).filter (g.left · = n) ++ rest := by
  induction count generalizing rest
  case zero => rfl
  case succ k hi =>
    rw [rulesBelow, hi]
    by_cases h : g.left ⟨k⟩ = n <;> simp [List.range_succ, h]

theorem rulesOf_eq_filter {g : Grammar} {n : Nonterminal} :
    g.rulesOf n = g.ruleIds.filter (g.left · = n) := by
  simp [rulesOf, rulesBelow_eq, ruleIds]

theorem mem_rulesOf {g : Grammar} {n : Nonterminal} {r : RuleId} :
    r ∈ g.rulesOf n ↔ (g.rule? r).isSome ∧ g.left r = n := by
  simp [rulesOf_eq_filter, mem_ruleIds]

end Grammar
end ShiftReduce
