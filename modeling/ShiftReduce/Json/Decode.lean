import ShiftReduce.Json.Value

namespace ShiftReduce.Json.Value

-- Powers are those of the core library, whatever else is imported.
attribute [local instance (high)] instPowNat

-- The deepest nesting of lists and objects that is decoded, where the outermost one counts.
def maxDepth : Nat := 127

def text? : Value → Option String
  | string s => s
  | _ => none

def natural? : Value → Option Nat
  | number n => n.natural? (2 ^ (64 : Nat) - 1)
  | _ => none

def integer? : Value → Option Int
  | number n => n.integer? (2 ^ (31 : Nat))
  | _ => none

def list? : Value → Option (List Value)
  | list vs => some vs
  | _ => none

def decodeKeys? (fields : List (Option String × Value)) : Option (List (String × Value)) :=
  fields.mapM fun (key, v) => key.map (·, v)

-- The value of a field that occurs at most once.
def field? (fields : List (String × Value)) (key : String) : Option (Option Value) :=
  match fields.filter (·.1 = key) with
  | [] => some none
  | [f] => some (some f.2)
  | _ => none

-- A structure is written as an object, where unknown keys are skipped, or as the list of its fields
-- in the order of `keys`, where the last ones may be left out.
def fields? (keys : List String) : Value → Option (List (Option Value))
  | object fields => do
    let fields ← decodeKeys? fields
    keys.mapM (field? fields)
  | list vs =>
    if vs.length ≤ keys.length then
      some (vs.map some ++ List.replicate (keys.length - vs.length) none)
    else
      none
  | _ => none

def required {α : Type} (decode : Value → Option α) (v : Option Value) : Option α :=
  v.bind decode

-- A field that is left out or null has no value.
def optional {α : Type} (decode : Value → Option α) : Option Value → Option (Option α)
  | none | some null => some none
  | some v => (decode v).map some

mutual

-- Whether a value at some depth can be kept aside for a later decision. What is skipped need not
-- make sense beyond its form.
def isStorable (depth : Nat) : Value → Bool
  | null | bool _ => true
  | number n => n.isFinite
  | string s => s.isSome
  | list vs => depth ≤ maxDepth && areStorable (depth + 1) vs
  | object fields => depth ≤ maxDepth && areStorableFields (depth + 1) fields

def areStorable (depth : Nat) : List Value → Bool
  | [] => true
  | v :: vs => isStorable depth v && areStorable depth vs

def areStorableFields (depth : Nat) : List (Option String × Value) → Bool
  | [] => true
  | (key, v) :: rest => key.isSome && isStorable depth v && areStorableFields depth rest

end

end ShiftReduce.Json.Value
