import ShiftReduce.Grammar.Draft

namespace ShiftReduce

inductive SymbolRecord
  | terminal (name : String)
  | nonterminal (name : String)
deriving DecidableEq

namespace SymbolRecord

def name : SymbolRecord → String
  | terminal name | nonterminal name => name

end SymbolRecord

structure RuleOptions where
  priority? : Option Int := none
deriving DecidableEq

structure RuleRecord where
  origin : SymbolRecord
  expansion : List SymbolRecord
  order? : Option Nat := none
  priority? : Option Int := none
  options? : Option RuleOptions := none
deriving DecidableEq

namespace RuleRecord

-- The priority of the record itself, else the one among its options, else zero.
def priority (r : RuleRecord) : Int :=
  (r.priority? <|> (r.options?.bind (·.priority?))).getD 0

end RuleRecord

namespace Draft

-- Only the success of an operation counts.
def require {α : Type} : Draft × Except ConstructionError α → Except ConstructionError (Draft × α)
  | (d, .ok x) => .ok (d, x)
  | (_, .error e) => .error e

def symbol (d : Draft) : SymbolRecord → Except ConstructionError (Draft × Symbol)
  | .terminal name => return (← require (d.terminal name)).map id .terminal
  | .nonterminal name => return (← require (d.nonterminal name)).map id .nonterminal

def symbols (d : Draft) : List SymbolRecord → Except ConstructionError (Draft × List Symbol)
  | [] => return (d, [])
  | r :: rs => do
    let (d, s) ← d.symbol r
    let (d, ss) ← d.symbols rs
    return (d, s :: ss)

-- Declares the rule of a record, where only a nonterminal can be the origin. A record without an
-- order takes its position among the records.
def record (d : Draft) (position : Nat) (r : RuleRecord) : Except ConstructionError Draft :=
  match r.origin with
  | .terminal name => .error (.symbolKindMismatch name)
  | .nonterminal name => do
    let (d, left) ← require (d.nonterminal name)
    let (d, right) ← d.symbols r.expansion
    let (d, _) ← require (d.ruleWithOrder left right (r.order?.getD position) r.priority)
    return d

def records (d : Draft) (position : Nat) : List RuleRecord → Except ConstructionError Draft
  | [] => return d
  | r :: rs => do
    let d ← d.record position r
    d.records (position + 1) rs

end Draft

namespace Grammar

def defaultStart : String := "start"

def ofRecords (records : List RuleRecord) (start : String) : Except ConstructionError Grammar := do
  let d ← Draft.initial.records 0 records
  let (d, _) ← Draft.require (d.startSymbolByName start)
  d.finish

end Grammar
end ShiftReduce
