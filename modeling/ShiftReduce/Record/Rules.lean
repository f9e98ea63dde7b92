import ShiftReduce.Grammar.Record
import ShiftReduce.Json.Decode

namespace ShiftReduce

open Json (Value)

namespace SymbolRecord

def kindKey : String := "__type__"

def make? (kind name : String) : Option SymbolRecord :=
  if kind = "Terminal" then some (.terminal name)
  else if kind = "NonTerminal" then some (.nonterminal name)
  else none

-- A symbol is written as an object with its kind and its name, or as the list of the two. The kind
-- may come last, so that everything else is kept aside until then.
def decode? (depth : Nat) : Value → Option SymbolRecord
  | .object fields => do
    let fields ← Value.decodeKeys? fields
    let kind ← Value.required Value.text? (← Value.field? fields kindKey)
    let others := fields.filter (·.1 ≠ kindKey)
    guard (others.all fun f => f.2.isStorable (depth + 1))
    let name ← Value.required Value.text? (← Value.field? others "name")
    make? kind name
  | .list [kind, name] => do
    make? (← kind.text?) (← name.text?)
  | _ => none

end SymbolRecord

namespace RuleOptions

def decode? (v : Value) : Option RuleOptions :=
  match Value.fields? ["priority"] v with
  | some [priority] => do
    return { priority? := ← Value.optional Value.integer? priority }
  | _ => none

end RuleOptions

namespace RuleRecord

-- The records are in a list, a symbol in its rule or in the list of its expansion.
def decode? (v : Value) : Option RuleRecord :=
  match Value.fields? ["origin", "expansion", "order", "priority", "options"] v with
  | some [origin, expansion, order, priority, options] => do
    return {
      origin := ← Value.required (SymbolRecord.decode? 3) origin
      expansion := ← (← Value.required Value.list? expansion).mapM (SymbolRecord.decode? 4)
      order? := ← Value.optional Value.natural? order
      priority? := ← Value.optional Value.integer? priority
      options? := ← Value.optional RuleOptions.decode? options }
  | _ => none

def ofJson? (text : String) : Option (List RuleRecord) := do
  (← (← Value.parse? text).list?).mapM decode?

def ofJson (text : String) : Except ConstructionError (List RuleRecord) :=
  match ofJson? text with
  | some records => .ok records
  | none => .error .malformedRecord

end RuleRecord

namespace Grammar

def ofJson (text : String) (start : String) : Except ConstructionError Grammar := do
  ofRecords (← RuleRecord.ofJson text) start

end Grammar
end ShiftReduce
