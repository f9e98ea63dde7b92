namespace ShiftReduce

structure Terminal where
  number : Nat
deriving DecidableEq

namespace Terminal

def endOfInput : Terminal := ⟨0⟩

-- The lookahead that marks what a kernel item passes on. No rule and no token refers to it.
def marker : Terminal := ⟨1⟩

-- The first number that a declared terminal gets.
def firstFree : Nat := 2

def IsReserved (t : Terminal) : Prop :=
  t.number < firstFree

instance (t : Terminal) : Decidable t.IsReserved :=
  inferInstanceAs (Decidable (t.number < firstFree))

theorem endOfInput_ne_marker : endOfInput ≠ marker := by
  decide

theorem isReserved_iff {t : Terminal} : t.IsReserved ↔ t = endOfInput ∨ t = marker := by
  cases t
  simp only [IsReserved, firstFree, endOfInput, marker, Terminal.mk.injEq]
  omega

end Terminal

structure Nonterminal where
  number : Nat
deriving DecidableEq

namespace Nonterminal

-- The augmented start symbol, the left side of the accept rule and of no other.
def accept : Nonterminal := ⟨0⟩

def firstFree : Nat := 1

end Nonterminal

inductive Symbol
  | terminal (t : Terminal)
  | nonterminal (n : Nonterminal)
deriving DecidableEq

namespace Symbol

-- Terminals come before nonterminals; within one kind the number decides.
def compare : Symbol → Symbol → Ordering
  | .terminal a, .terminal b => Ord.compare a.number b.number
  | .terminal _, .nonterminal _ => .lt
  | .nonterminal _, .terminal _ => .gt
  | .nonterminal a, .nonterminal b => Ord.compare a.number b.number

instance : Ord Symbol := ⟨compare⟩

def IsReserved : Symbol → Prop
  | .terminal t => t.IsReserved
  | .nonterminal n => n = .accept

instance : (s : Symbol) → Decidable s.IsReserved
  | .terminal t => inferInstanceAs (Decidable t.IsReserved)
  | .nonterminal n => inferInstanceAs (Decidable (n = .accept))

end Symbol

structure RuleId where
  number : Nat
deriving DecidableEq

namespace RuleId

-- The rule that derives the start symbol from the augmented one.
def accept : RuleId := ⟨0⟩

def firstFree : Nat := 1

end RuleId

structure StateId where
  number : Nat
deriving DecidableEq

namespace StateId

def start : StateId := ⟨0⟩

end StateId
end ShiftReduce
