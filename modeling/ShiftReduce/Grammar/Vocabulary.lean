import Std.Data.TreeMap
import ShiftReduce.Error

namespace ShiftReduce

-- Symbols are numbered in the order of their declaration, the reserved ones first. The name of the
-- marker is not among `symbols`: a user may declare a symbol that looks the same.
structure Vocabulary where
  terminals : Array String
  nonterminals : Array String
  symbols : Std.TreeMap String Symbol

namespace Vocabulary

def endOfInputName : String := "$END"
def markerName : String := "#"
def acceptName : String := "$accept"

def unknownName : String := "<unknown>"

-- Every declared number of a terminal, a nonterminal or a rule is below this one.
def capacity : Nat := 65535

def initial : Vocabulary where
  terminals := #[endOfInputName, markerName]
  nonterminals := #[acceptName]
  symbols := (∅ : Std.TreeMap String Symbol)
    |>.insert endOfInputName (.terminal .endOfInput)
    |>.insert acceptName (.nonterminal .accept)

def symbol? (v : Vocabulary) (name : String) : Option Symbol :=
  v.symbols[name]?

-- The terminal that a token of type `name` stands for.
def terminal? (v : Vocabulary) (name : String) : Option Terminal :=
  match v.symbol? name with
  | some (.terminal t) => if t = .marker then none else some t
  | _ => none

def Declares (v : Vocabulary) : Symbol → Prop
  | .terminal t => t.number < v.terminals.size
  | .nonterminal n => n.number < v.nonterminals.size

instance (v : Vocabulary) : (s : Symbol) → Decidable (v.Declares s)
  | .terminal t => inferInstanceAs (Decidable (t.number < v.terminals.size))
  | .nonterminal n => inferInstanceAs (Decidable (n.number < v.nonterminals.size))

def name? (v : Vocabulary) : Symbol → Option String
  | .terminal t => v.terminals[t.number]?
  | .nonterminal n => v.nonterminals[n.number]?

def name (v : Vocabulary) (s : Symbol) : String :=
  (v.name? s).getD unknownName

def terminalIds (v : Vocabulary) : List Terminal :=
  (List.range v.terminals.size).map Terminal.mk

def nonterminalIds (v : Vocabulary) : List Nonterminal :=
  (List.range v.nonterminals.size).map Nonterminal.mk

-- Every terminal that a token can carry, the end of input included.
def inputTerminals (v : Vocabulary) : List Terminal :=
  v.terminalIds.filter (· ≠ .marker)

-- Declaring a name again gives the symbol that it has. A name that is refused changes nothing.
def declareTerminal (v : Vocabulary) (name : String) :
    Vocabulary × Except ConstructionError Terminal :=
  match v.symbol? name with
  | some (.terminal t) => (v, if t.IsReserved then .error (.reservedSymbol name) else .ok t)
  | some (.nonterminal n) =>
    (v, .error (if n = .accept then .reservedSymbol name else .symbolKindMismatch name))
  | none =>
    let t : Terminal := ⟨v.terminals.size⟩
    if t.number < capacity then
      ({ v with
        terminals := v.terminals.push name
        symbols := v.symbols.insert name (.terminal t) }, .ok t)
    else
      (v, .error .tooManySymbols)

def declareNonterminal (v : Vocabulary) (name : String) :
    Vocabulary × Except ConstructionError Nonterminal :=
  match v.symbol? name with
  | some (.nonterminal n) => (v, if n = .accept then .error (.reservedSymbol name) else .ok n)
  | some (.terminal t) =>
    (v, .error (if t = .endOfInput then .reservedSymbol name else .symbolKindMismatch name))
  | none =>
    let n : Nonterminal := ⟨v.nonterminals.size⟩
    if n.number < capacity then
      ({ v with
        nonterminals := v.nonterminals.push name
        symbols := v.symbols.insert name (.nonterminal n) }, .ok n)
    else
      (v, .error .tooManySymbols)

theorem name?_isSome_iff {v : Vocabulary} {s : Symbol} : (v.name? s).isSome ↔ v.Declares s := by
  cases s <;> simp [name?, Declares]

theorem mem_terminalIds {v : Vocabulary} {t : Terminal} :
    t ∈ v.terminalIds ↔ v.Declares (.terminal t) := by
  cases t
  simp [terminalIds, Declares]

theorem mem_nonterminalIds {v : Vocabulary} {n : Nonterminal} :
    n ∈ v.nonterminalIds ↔ v.Declares (.nonterminal n) := by
  cases n
  simp [nonterminalIds, Declares]

theorem mem_inputTerminals {v : Vocabulary} {t : Terminal} :
    t ∈ v.inputTerminals ↔ v.Declares (.terminal t) ∧ t ≠ .marker := by
  simp [inputTerminals, mem_terminalIds]

end Vocabulary
end ShiftReduce
