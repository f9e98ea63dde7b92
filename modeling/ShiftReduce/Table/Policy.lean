import ShiftReduce.Grammar.Basic

namespace ShiftReduce

inductive Action
  | shift (state : StateId)
  | reduce (rule : RuleId)
  | goto (state : StateId)
  | accept
deriving DecidableEq

namespace Action

def label : Action → String
  | shift q => "s" ++ toString q.number
  | reduce r => "r" ++ toString r.number
  | goto q => "g" ++ toString q.number
  | accept => "acc"

def relabel (f : StateId → StateId) : Action → Action
  | shift q => shift (f q)
  | goto q => goto (f q)
  | a => a

def key : Action → Nat × Nat
  | shift q => (0, q.number)
  | reduce r => (1, r.number)
  | goto q => (2, q.number)
  | accept => (3, 0)

def compare (a b : Action) : Ordering :=
  (Ord.compare a.key.1 b.key.1).then (Ord.compare a.key.2 b.key.2)

end Action

structure Entry where
  action : Action
  -- For a shift or a goto the rule that won the transition, else the rule being reduced.
  rule : RuleId
deriving DecidableEq

inductive TieBreak
  -- The higher priority of the rule comes first.
  | priority
  -- Of two rules with one priority and one left side the later one comes first.
  | order
  -- A shift comes before a reduction.
  | shiftOverReduce
  -- The lower number of the rule comes first.
  | lowestRule
deriving DecidableEq

namespace TieBreak

def compare (g : Grammar) (tieBreak : TieBreak) (a b : Entry) : Ordering :=
  let ra := g.rule a.rule
  let rb := g.rule b.rule
  match tieBreak with
  | priority => Ord.compare rb.priority ra.priority
  | order =>
    if ra.priority = rb.priority ∧ ra.left = rb.left then Ord.compare rb.order ra.order else .eq
  | shiftOverReduce =>
    match a.action, b.action with
    | .shift _, .reduce _ => .lt
    | .reduce _, .shift _ => .gt
    | _, _ => .eq
  | lowestRule => Ord.compare a.rule.number b.rule.number

end TieBreak

def policy : List TieBreak :=
  [.priority, .order, .shiftOverReduce, .lowestRule]

-- The smaller of two entries comes first. The rules of the policy are consulted in order, until one
-- of them tells the two apart.
def rank (g : Grammar) (a b : Entry) : Ordering :=
  policy.foldr (fun tieBreak rest => (tieBreak.compare g a b).then rest) .eq

end ShiftReduce
