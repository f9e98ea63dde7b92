import ShiftReduce.Json.Numeral

namespace ShiftReduce.Json

inductive Lexeme
  | openList
  | closeList
  | openObject
  | closeObject
  | comma
  | colon
  | null
  | bool (b : Bool)
  | number (n : Numeral)
  | string (s : Option String)
deriving DecidableEq

-- A character of a string, or the number of a UTF-16 unit, since an escape stands for one half of a
-- surrogate pair at times. A string with a half that lacks the other is a word all the same, but
-- has no text.
inductive StringUnit
  | char (c : Char)
  | code (n : Nat)
deriving DecidableEq

namespace StringUnit

def isHigh (n : Nat) : Bool :=
  0xd800 ≤ n && n ≤ 0xdbff

def isLow (n : Nat) : Bool :=
  0xdc00 ≤ n && n ≤ 0xdfff

def decode? : List StringUnit → Option (List Char)
  | [] => some []
  | .char c :: rest => (decode? rest).map (c :: ·)
  | .code high :: .code low :: rest =>
    if isHigh high && isLow low then
      (decode? rest).map (Char.ofNat (0x10000 + (high - 0xd800) * 0x400 + (low - 0xdc00)) :: ·)
    else if isHigh high || isLow high then
      none
    else
      (decode? (.code low :: rest)).map (Char.ofNat high :: ·)
  | .code n :: rest =>
    if isHigh n || isLow n then none else (decode? rest).map (Char.ofNat n :: ·)

end StringUnit

namespace Lexeme

def hexValue? (c : Char) : Option Nat :=
  if c.isDigit then some (c.toNat - '0'.toNat)
  else if 'a' ≤ c ∧ c ≤ 'f' then some (c.toNat - 'a'.toNat + 10)
  else if 'A' ≤ c ∧ c ≤ 'F' then some (c.toNat - 'A'.toNat + 10)
  else none

def hex4? (a b c d : Char) : Option Nat := do
  return (((← hexValue? a) * 16 + (← hexValue? b)) * 16 + (← hexValue? c)) * 16 + (← hexValue? d)

def escaped? : Char → Option Char
  | '"' => some '"'
  | '\\' => some '\\'
  | '/' => some '/'
  | 'b' => some '\x08'
  | 'f' => some '\x0c'
  | 'n' => some '\n'
  | 'r' => some '\r'
  | 't' => some '\t'
  | _ => none

-- The units of a string up to its closing quote, and what follows.
def stringUnits? : List Char → Option (List StringUnit × List Char)
  | [] => none
  | '"' :: rest => some ([], rest)
  | '\\' :: 'u' :: a :: b :: c :: d :: rest => do
    let n ← hex4? a b c d
    let (units, rest) ← stringUnits? rest
    return (.code n :: units, rest)
  | '\\' :: c :: rest => do
    let c ← escaped? c
    let (units, rest) ← stringUnits? rest
    return (.char c :: units, rest)
  | c :: rest =>
    if c.toNat < 0x20 then none
    else do
      let (units, rest) ← stringUnits? rest
      return (.char c :: units, rest)

def digits (cs : List Char) : List Nat × List Char :=
  ((cs.takeWhile Char.isDigit).map fun c => c.toNat - '0'.toNat, cs.dropWhile Char.isDigit)

-- The digits before the point: a single zero, or any that begin with another one.
def whole? : List Char → Option (List Nat × List Char)
  | '0' :: rest => some ([0], rest)
  | cs =>
    match digits cs with
    | ([], _) => none
    | result => some result

def fraction? : List Char → Option (List Nat × List Char)
  | '.' :: rest =>
    match digits rest with
    | ([], _) => none
    | result => some result
  | cs => some ([], cs)

def exponentSign : List Char → Int × List Char
  | '-' :: rest => (-1, rest)
  | '+' :: rest => (1, rest)
  | cs => (1, cs)

def exponent? (cs : List Char) : Option (Option Int × List Char) :=
  match cs with
  | [] => some (none, [])
  | c :: rest =>
    if c = 'e' ∨ c = 'E' then
      let (sign, rest) := exponentSign rest
      match digits rest with
      | ([], _) => none
      | (ds, rest) => some (some (sign * Numeral.ofDigits ds), rest)
    else
      some (none, cs)

def number? (negative : Bool) (cs : List Char) : Option (Lexeme × List Char) := do
  let (whole, rest) ← whole? cs
  let (fraction, rest) ← fraction? rest
  let (exponent, rest) ← exponent? rest
  return (.number { negative, whole, fraction, exponent }, rest)

def next? : List Char → Option (Lexeme × List Char)
  | '[' :: rest => some (.openList, rest)
  | ']' :: rest => some (.closeList, rest)
  | '\x7b' :: rest => some (.openObject, rest)
  | '\x7d' :: rest => some (.closeObject, rest)
  | ',' :: rest => some (.comma, rest)
  | ':' :: rest => some (.colon, rest)
  | 'n' :: 'u' :: 'l' :: 'l' :: rest => some (.null, rest)
  | 't' :: 'r' :: 'u' :: 'e' :: rest => some (.bool true, rest)
  | 'f' :: 'a' :: 'l' :: 's' :: 'e' :: rest => some (.bool false, rest)
  | '"' :: rest => do
    let (units, rest) ← stringUnits? rest
    return (.string ((StringUnit.decode? units).map String.ofList), rest)
  | '-' :: rest => number? true rest
  | cs => number? false cs

def isBlank (c : Char) : Bool :=
  c = ' ' || c = '\t' || c = '\n' || c = '\r'

-- The lexemes of a text. Each of them takes at least one character, so that `fuel` need not be more
-- than the number of characters.
def scanFor? (fuel : Nat) (cs : List Char) : Option (List Lexeme) :=
  match fuel, cs.dropWhile isBlank with
  | _, [] => some []
  | 0, _ => none
  | fuel + 1, cs => do
    let (lexeme, rest) ← next? cs
    let lexemes ← scanFor? fuel rest
    return lexeme :: lexemes

def scan? (cs : List Char) : Option (List Lexeme) :=
  scanFor? cs.length cs

end Lexeme
end ShiftReduce.Json
