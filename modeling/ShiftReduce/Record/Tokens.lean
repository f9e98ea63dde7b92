import ShiftReduce.Json.Decode
import ShiftReduce.Parser.Token

namespace ShiftReduce.Token

open Json (Value)

-- A token without a value has the empty one.
def decode? (v : Value) : Option Token :=
  match Value.fields? ["type", "value", "start_pos", "line", "column", "end_line", "end_column",
    "end_pos"] v with
  | some [kind, value, start, line, column, endLine, endColumn, stop] => do
    return {
      kind := ← Value.required Value.text? kind
      value := ← match value with
        | some v => v.text?
        | none => some ""
      position := {
        start := ← Value.optional Value.natural? start
        line := ← Value.optional Value.natural? line
        column := ← Value.optional Value.natural? column
        endLine := ← Value.optional Value.natural? endLine
        endColumn := ← Value.optional Value.natural? endColumn
        stop := ← Value.optional Value.natural? stop } }
  | _ => none

def ofJson? (text : String) : Option (List Token) := do
  (← (← Value.parse? text).list?).mapM decode?

def ofJson (text : String) : Except ConstructionError (List Token) :=
  match ofJson? text with
  | some tokens => .ok tokens
  | none => .error .malformedRecord

end ShiftReduce.Token
