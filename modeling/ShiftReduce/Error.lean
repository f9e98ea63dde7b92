import ShiftReduce.Algorithm
import ShiftReduce.Symbol
import ShiftReduce.Text.Layout

namespace ShiftReduce

def RuleId.describe (r : RuleId) : String :=
  "RuleID \x7b raw: " ++ toString r.number ++ " \x7d"

def Symbol.describe : Symbol → String
  | .terminal t => "T(TerminalID \x7b raw: " ++ toString t.number ++ " \x7d)"
  | .nonterminal n => "N(NonterminalID \x7b raw: " ++ toString n.number ++ " \x7d)"

inductive ConstructionError
  | startNotFound (name : String)
  | dotOutOfRange (rule : RuleId) (dot length : Nat)
  | itemKindMismatch
  | symbolKindMismatch (name : String)
  | reservedSymbol (name : String)
  | duplicateRule (rule : String)
  | unknownSymbol (symbol : Symbol)
  | unknownRule (rule : RuleId)
  | tooManySymbols
  | malformedRecord
deriving DecidableEq

def ConstructionError.message : ConstructionError → String
  | startNotFound name => "no rule derives the start symbol `" ++ name ++ "'"
  | dotOutOfRange rule dot length =>
    "dot index " ++ toString dot ++ " is out of range for rule " ++ rule.describe ++
      " (length " ++ toString length ++ ")"
  | itemKindMismatch => "LR(0) and LR(1) items cannot be mixed in this operation"
  | symbolKindMismatch name =>
    "the symbol `" ++ name ++ "' is used both as a terminal and a nonterminal"
  | reservedSymbol name => "the symbol name `" ++ name ++ "' is reserved"
  | duplicateRule rule => "duplicate production rule: " ++ rule
  | unknownSymbol symbol =>
    "the symbol " ++ symbol.describe ++ " is not declared in this grammar"
  | unknownRule rule => "unknown rule: " ++ rule.describe
  | tooManySymbols => "too many symbols or rules in the grammar"
  | malformedRecord => "malformed record"

-- An operation was asked for at a time that cannot serve it. Whoever raised this is left as it was.
inductive SequencingError
  | automatonNotDone
  | wrongAlgorithm (expected actual : Algorithm)
  | phaseMismatch (expected actual : Phase)
  | tokenExhausted (index : Nat)
  | tokensAlreadyLoaded
  | tokensNotLoaded
  | parserHalted
  | tableNotBuilt
deriving DecidableEq

def SequencingError.message : SequencingError → String
  | automatonNotDone => "the automaton construction has not finished yet"
  | wrongAlgorithm expected actual =>
    "this operation requires the " ++ expected.title ++ " algorithm, but the automaton uses " ++
      actual.title
  | phaseMismatch expected actual =>
    "this operation belongs to the " ++ expected.title ++ " phase, but the automaton is in " ++
      actual.title
  | tokenExhausted index => "the token stream is exhausted at index " ++ toString index
  | tokensAlreadyLoaded => "tokens have already been loaded into this session"
  | tokensNotLoaded => "no tokens have been loaded into this session"
  | parserHalted => "the parser has already halted"
  | tableNotBuilt => "the parse table has not been built yet"

structure UnexpectedToken where
  value : String
  kind : String
  state : StateId
  -- The names of the terminals with an action in that state, sorted.
  expected : List String
deriving DecidableEq

def UnexpectedToken.message (e : UnexpectedToken) : String :=
  "unexpected token `" ++ e.value ++ "' (" ++ e.kind ++ ") in state " ++ toString e.state.number ++
    ", expected one of: " ++ Text.joined ", " e.expected

-- A construction or a table does not belong to the grammar that it is used with.
inductive InvariantError
  | missingKernelItem (state : StateId) (item : String)
  | missingTransition (state : StateId) (symbol : String)
  | missingGoto (state : StateId) (symbol : String)
  | stackUnderflow (rule : RuleId)
  | deadState (state : StateId)
deriving DecidableEq

def InvariantError.message : InvariantError → String
  | missingKernelItem state item =>
    "kernel item `" ++ item ++ "' is missing from state " ++ toString state.number
  | missingTransition state symbol =>
    "no transition from state " ++ toString state.number ++ " on `" ++ symbol ++ "'"
  | missingGoto state symbol =>
    "no GOTO entry for state " ++ toString state.number ++ " on `" ++ symbol ++ "'"
  | stackUnderflow rule => "the parser stack underflowed while reducing " ++ rule.describe
  | deadState state => "the state " ++ toString state.number ++ " has been merged away"

inductive Error
  | construction (e : ConstructionError)
  | sequencing (e : SequencingError)
  | parse (e : UnexpectedToken)
  | invariant (e : InvariantError)
deriving DecidableEq

namespace Error

def message : Error → String
  | construction e => e.message
  | sequencing e => e.message
  | parse e => e.message
  | invariant e => e.message

def isSequencing : Error → Bool
  | sequencing _ => true
  | _ => false

instance : Coe ConstructionError Error := ⟨construction⟩
instance : Coe SequencingError Error := ⟨sequencing⟩
instance : Coe UnexpectedToken Error := ⟨parse⟩
instance : Coe InvariantError Error := ⟨invariant⟩

end Error
end ShiftReduce
