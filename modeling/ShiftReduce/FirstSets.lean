import ShiftReduce.Grammar.Basic
import ShiftReduce.TerminalSet

namespace ShiftReduce

structure FirstSets where
  -- In the order in which they were found.
  nullable : List Nonterminal
  -- One set for each declared nonterminal, by number.
  sets : Array TerminalSet
deriving DecidableEq

structure PassSizes where
  nullable : Nat
  first : Nat
deriving DecidableEq

namespace FirstSets

-- Sums are those of the core library, whatever else is imported.
attribute [local instance (high)] Zero.ofOfNat0

def IsNullable (f : FirstSets) (n : Nonterminal) : Prop :=
  n ∈ f.nullable

instance (f : FirstSets) (n : Nonterminal) : Decidable (f.IsNullable n) :=
  inferInstanceAs (Decidable (n ∈ f.nullable))

def IsNullableSymbol (f : FirstSets) : Symbol → Prop
  | .terminal _ => False
  | .nonterminal n => f.IsNullable n

instance (f : FirstSets) : (s : Symbol) → Decidable (f.IsNullableSymbol s)
  | .terminal _ => inferInstanceAs (Decidable False)
  | .nonterminal n => inferInstanceAs (Decidable (f.IsNullable n))

-- Nothing for a nonterminal that is not declared. The empty string is never a member.
def first? (f : FirstSets) (n : Nonterminal) : Option TerminalSet :=
  f.sets[n.number]?

def first (f : FirstSets) (n : Nonterminal) : TerminalSet :=
  (f.first? n).getD ∅

-- The terminals that begin `seq` followed by one of `lookaheads`.
def ofSeq (f : FirstSets) (seq : List Symbol) (lookaheads : TerminalSet) : TerminalSet :=
  match seq with
  | [] => lookaheads
  | .terminal t :: _ => {t}
  | .nonterminal n :: rest =>
    if f.IsNullable n then f.first n ∪ f.ofSeq rest lookaheads else f.first n

def sizes (f : FirstSets) : PassSizes where
  nullable := f.nullable.length
  first := (f.sets.toList.map TerminalSet.size).sum

-- Takes in one rule: its left side is nullable if the whole right side is, and begins with whatever
-- the right side begins with.
def absorb (f : FirstSets) (rule : Rule) : FirstSets :=
  let nullable :=
    if (rule.right.all fun s => f.IsNullableSymbol s) ∧ rule.left ∉ f.nullable then
      f.nullable ++ [rule.left]
    else
      f.nullable
  let f := { f with nullable }
  let begins := f.ofSeq rule.right ∅
  { f with sets := f.sets.modify rule.left.number (· ∪ begins) }

def pass (g : Grammar) (f : FirstSets) : FirstSets :=
  g.rules.foldl absorb f

def initial (g : Grammar) : FirstSets where
  nullable := []
  sets := Array.replicate g.vocabulary.nonterminals.size ∅

-- The approximations that follow `f`, at most `fuel` of them, up to the first pass that changes
-- nothing.
def approximationsFrom (g : Grammar) (fuel : Nat) (f : FirstSets) : List FirstSets :=
  match fuel with
  | 0 => []
  | fuel + 1 =>
    let next := f.pass g
    next :: if next = f then [] else approximationsFrom g fuel next

-- A pass that changes something adds a nullable nonterminal, or a terminal to some set. So no more
-- passes are needed than there are such additions, and one in which nothing happens.
def passBound (g : Grammar) : Nat :=
  g.vocabulary.nonterminals.size * (g.vocabulary.terminals.size + 1) + 1

def approximations (g : Grammar) : List FirstSets :=
  approximationsFrom g (passBound g) (initial g)

def ofGrammar (g : Grammar) : FirstSets :=
  (approximations g).getLastD (initial g)

def passes (g : Grammar) : List PassSizes :=
  (approximations g).map sizes

end FirstSets

structure Context where
  grammar : Grammar
  first : FirstSets
  passes : List PassSizes
  first_eq : first = .ofGrammar grammar
  passes_eq : passes = FirstSets.passes grammar

namespace Context

def ofGrammar (g : Grammar) : Context :=
  let approximations := FirstSets.approximations g
  { grammar := g
    first := approximations.getLastD (.initial g)
    passes := approximations.map FirstSets.sizes
    first_eq := rfl
    passes_eq := rfl }

end Context
end ShiftReduce
