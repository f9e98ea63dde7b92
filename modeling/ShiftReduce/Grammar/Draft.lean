import ShiftReduce.Grammar.Printer

namespace ShiftReduce

-- An operation gives the draft that it leaves together with its result, and one that fails leaves
-- the draft that it found.
structure Draft where
  vocabulary : Vocabulary
  -- The rules declared so far, from the number `RuleId.firstFree` on.
  rules : Array Rule
  start? : Option Nonterminal

namespace Draft

def initial : Draft where
  vocabulary := .initial
  rules := #[]
  start? := none

-- A draft is taken apart before one of its parts changes, so that the part has no other owner.
def terminal (d : Draft) (name : String) : Draft × Except ConstructionError Terminal :=
  let ⟨vocabulary, rules, start?⟩ := d
  let (vocabulary, result) := vocabulary.declareTerminal name
  (⟨vocabulary, rules, start?⟩, result)

def nonterminal (d : Draft) (name : String) : Draft × Except ConstructionError Nonterminal :=
  let ⟨vocabulary, rules, start?⟩ := d
  let (vocabulary, result) := vocabulary.declareNonterminal name
  (⟨vocabulary, rules, start?⟩, result)

-- The first cause to refuse a rule. Unknown symbols are looked for before reserved ones, from the
-- left side on.
def refusal? (d : Draft) (left : Nonterminal) (right : List Symbol) : Option ConstructionError :=
  match (.nonterminal left :: right).find? fun s => ¬ d.vocabulary.Declares s with
  | some s => some (.unknownSymbol s)
  | none =>
    if left = .accept ∨ right.any fun s => s.IsReserved then
      some (.reservedSymbol Vocabulary.acceptName)
    else if d.rules.any fun rule => rule.left = left ∧ rule.right = right then
      some (.duplicateRule (d.vocabulary.productionText left right))
    else if Vocabulary.capacity ≤ d.rules.size + RuleId.firstFree then
      some .tooManySymbols
    else
      none

def ruleWithOrder (d : Draft) (left : Nonterminal) (right : List Symbol) (order : Nat)
    (priority : Int) : Draft × Except ConstructionError RuleId :=
  match d.refusal? left right with
  | some e => (d, .error e)
  | none =>
    let r : RuleId := ⟨d.rules.size + RuleId.firstFree⟩
    ({ d with rules := d.rules.push ⟨left, right, order, priority⟩ }, .ok r)

-- The order of the new rule is the number of rules before it.
def rule (d : Draft) (left : Nonterminal) (right : List Symbol) (priority? : Option Int) :
    Draft × Except ConstructionError RuleId :=
  d.ruleWithOrder left right d.rules.size (priority?.getD 0)

def startSymbol (d : Draft) (n : Nonterminal) : Draft :=
  { d with start? := some n }

def startSymbolByName (d : Draft) (name : String) : Draft × Except ConstructionError Unit :=
  match d.vocabulary.symbol? name with
  | some (.nonterminal n) =>
    if n = .accept then (d, .error (.startNotFound name)) else (d.startSymbol n, .ok ())
  | _ => (d, .error (.startNotFound name))

-- Without a start symbol of its own, a draft starts at the nonterminal declared first.
def effectiveStart? (d : Draft) : Option Nonterminal :=
  match d.start? with
  | some n => some n
  | none => d.vocabulary.nonterminalIds.find? (· ≠ .accept)

def finish (d : Draft) : Except ConstructionError Grammar :=
  match d.effectiveStart? with
  | none => .error (.startNotFound "<none>")
  | some start =>
    if d.rules.any (·.left = start) then
      .ok {
        vocabulary := d.vocabulary
        rules := #[⟨.accept, [.nonterminal start], 0, 0⟩] ++ d.rules
        start := start }
    else
      .error (.startNotFound (d.vocabulary.name (.nonterminal start)))

end Draft
end ShiftReduce
