namespace ShiftReduce.Json

structure Numeral where
  negative : Bool := false
  whole : List Nat
  -- The digits behind it, none if there is no point.
  fraction : List Nat := []
  exponent : Option Int := none
deriving DecidableEq

namespace Numeral

-- Powers are those of the core library, whatever else is imported.
attribute [local instance (high)] instPowNat

def ofDigits (digits : List Nat) : Nat :=
  digits.foldl (fun n d => 10 * n + d) 0

-- The value of a plain natural number up to `limit`.
def natural? (limit : Nat) (n : Numeral) : Option Nat :=
  if n.negative ∨ n.fraction ≠ [] ∨ n.exponent.isSome then none
  else
    let value := ofDigits n.whole
    if value ≤ limit then some value else none

-- The value of a plain integer with an absolute value below `bound`, or `-bound`. Zero has no sign.
def integer? (bound : Nat) (n : Numeral) : Option Int :=
  if n.fraction ≠ [] ∨ n.exponent.isSome then none
  else
    let value := ofDigits n.whole
    if n.negative then
      if 0 < value ∧ value ≤ bound then some (-(value : Int)) else none
    else
      if value < bound then some (value : Int) else none

-- The nearest number of at most 53 binary digits; of two such, the even one.
def roundToDouble (n : Nat) : Nat :=
  let unit := 2 ^ (n.log2 + 1 - 53)
  let quotient := n / unit
  let rest := n % unit
  let up := unit < 2 * rest ∨ (unit = 2 * rest ∧ quotient % 2 = 1)
  (if up then quotient + 1 else quotient) * unit

-- Products from here on round to infinity.
def doubleLimit : Nat := 2 ^ (1024 : Nat) - 2 ^ (970 : Nat)

-- The largest significand that is kept while digits are read.
def significandLimit : Nat := 2 ^ (64 : Nat) - 1

-- Reads digits while the significand stays within its limit, and gives the ones that are left.
def takeDigits (significand : Nat) : List Nat → Nat × List Nat
  | [] => (significand, [])
  | d :: ds =>
    if 10 * significand + d ≤ significandLimit then takeDigits (10 * significand + d) ds
    else (significand, d :: ds)

-- Whether the number is in the range of double precision, where digits beyond the limit of the
-- significand only count as places and the power of ten is rounded before it is applied.
def isFinite (n : Numeral) : Bool :=
  let (significand, wholeRest) := takeDigits 0 n.whole
  let (significand, fractionRest) := takeDigits significand n.fraction
  let places : Int := wholeRest.length - (n.fraction.length - fractionRest.length : Nat)
  let exponent := places + n.exponent.getD 0
  significand = 0 || exponent < 0 ||
    (exponent ≤ 308 &&
      roundToDouble significand * roundToDouble (10 ^ exponent.toNat) < doubleLimit)

end Numeral
end ShiftReduce.Json
