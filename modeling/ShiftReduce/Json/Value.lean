import ShiftReduce.Json.Lexeme

namespace ShiftReduce.Json

-- The fields of an object stay in their order, repeated ones included: what they mean is up to
-- whoever decodes the value.
inductive Value
  | null
  | bool (b : Bool)
  | number (n : Numeral)
  -- Nothing if the string has no text.
  | string (s : Option String)
  | list (items : List Value)
  | object (fields : List (Option String × Value))

-- A list or an object that is not closed yet, with the latest part first.
inductive OpenValue
  | list (items : List Value)
  | object (fields : List (Option String × Value)) (key : Option String)

inductive Expectation
  | value
  -- A value or the end of a list.
  | firstValue
  | key
  -- A key or the end of an object.
  | firstKey
  | colon
  -- What may follow a complete value.
  | next (v : Value)

structure Reader where
  expects : Expectation
  opened : List OpenValue

namespace Reader

def initial : Reader where
  expects := .value
  opened := []

def begin? (opened : List OpenValue) : Lexeme → Option Reader
  | .openList => some ⟨.firstValue, .list [] :: opened⟩
  | .openObject => some ⟨.firstKey, .object [] none :: opened⟩
  | .null => some ⟨.next .null, opened⟩
  | .bool b => some ⟨.next (.bool b), opened⟩
  | .number n => some ⟨.next (.number n), opened⟩
  | .string s => some ⟨.next (.string s), opened⟩
  | _ => none

def advance? (r : Reader) (lexeme : Lexeme) : Option Reader :=
  match r.expects, r.opened, lexeme with
  | .firstValue, .list [] :: opened, .closeList => some ⟨.next (.list []), opened⟩
  | .value, opened, lexeme | .firstValue, opened, lexeme => begin? opened lexeme
  | .firstKey, .object [] _ :: opened, .closeObject => some ⟨.next (.object []), opened⟩
  | .key, .object fields _ :: opened, .string s
  | .firstKey, .object fields _ :: opened, .string s => some ⟨.colon, .object fields s :: opened⟩
  | .colon, opened, .colon => some ⟨.value, opened⟩
  | .next v, .list items :: opened, .comma => some ⟨.value, .list (v :: items) :: opened⟩
  | .next v, .list items :: opened, .closeList =>
    some ⟨.next (.list (v :: items).reverse), opened⟩
  | .next v, .object fields key :: opened, .comma =>
    some ⟨.key, .object ((key, v) :: fields) none :: opened⟩
  | .next v, .object fields key :: opened, .closeObject =>
    some ⟨.next (.object ((key, v) :: fields).reverse), opened⟩
  | _, _, _ => none

def value? (r : Reader) : Option Value :=
  match r with
  | ⟨.next v, []⟩ => some v
  | _ => none

end Reader

namespace Value

def parse? (text : String) : Option Value := do
  let lexemes ← Lexeme.scan? text.toList
  let reader ← lexemes.foldlM Reader.advance? Reader.initial
  reader.value?

end Value
end ShiftReduce.Json
