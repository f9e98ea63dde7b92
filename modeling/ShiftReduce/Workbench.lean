import ShiftReduce.Parser.Basic
import ShiftReduce.Settings

namespace ShiftReduce

-- Every stage of one run. An operation that comes too early or too late fails and leaves the
-- workbench as it was; `parse` makes up for all stages that are missing.
structure Workbench where
  context : Context
  settings : Settings
  automaton : Automaton
  table? : Option ParseTable
  parser? : Option Parser

namespace Workbench

def ofGrammar (g : Grammar) (settings : Settings) : Workbench :=
  let context := Context.ofGrammar g
  { context
    settings
    automaton := .initial context settings.algorithm
    table? := none
    parser? := none }

def ofRecords (records : List RuleRecord) (settings : Settings) :
    Except ConstructionError Workbench := do
  return ofGrammar (← Grammar.ofRecords records settings.start) settings

def stepAutomaton (w : Workbench) : Workbench × Except Error ConstructionStep :=
  let (automaton, result) := w.automaton.step w.context
  ({ w with automaton }, result)

def buildAutomaton (w : Workbench) : Workbench × Except Error Nat :=
  let (automaton, result) := w.automaton.run w.context
  ({ w with automaton }, result)

-- Makes the table of the complete automaton. A parser of an earlier table is dropped.
def buildTable (w : Workbench) : Workbench × Except Error ParseTable :=
  match ParseTable.build w.automaton w.context with
  | .error e => (w, .error e)
  | .ok table => ({ w with table? := some table, parser? := none }, .ok table)

def loadTokens (w : Workbench) (tokens : List Token) : Workbench × Except Error Unit :=
  match w.parser?, w.table? with
  | some _, _ => (w, .error (.sequencing .tokensAlreadyLoaded))
  | none, none => (w, .error (.sequencing .tableNotBuilt))
  | none, some table =>
    ({ w with parser? := some (.initial table (.ofTokens tokens)) }, .ok ())

def stepParse (w : Workbench) : Workbench × Except Error ParseStep :=
  match w.table?, w.parser? with
  | none, _ => (w, .error (.sequencing .tableNotBuilt))
  | some _, none => (w, .error (.sequencing .tokensNotLoaded))
  | some _, some parser =>
    let (parser, result) := parser.step
    ({ w with parser? := some parser }, result)

def resetParse (w : Workbench) : Workbench :=
  { w with parser? := none }

-- Runs the parser to its end, which takes at most `fuel` steps or has no result.
def runParse (fuel : Nat) (w : Workbench) : Workbench × Except Error (Option ParseTree) :=
  match w.parser? with
  | none => (w, .error (.sequencing .tokensNotLoaded))
  | some parser =>
    let (parser, result) := parser.runFor fuel
    ({ w with parser? := some parser }, result)

def andThen {α β : Type} (r : Workbench × Except Error α)
    (next : Workbench → Workbench × Except Error β) : Workbench × Except Error β :=
  match r with
  | (w, .error e) => (w, .error e)
  | (w, .ok _) => next w

def ensureAutomaton (w : Workbench) : Workbench × Except Error Unit :=
  if w.automaton.IsDone then (w, .ok ()) else andThen w.buildAutomaton (·, .ok ())

def ensureTable (w : Workbench) : Workbench × Except Error Unit :=
  if w.table?.isSome then (w, .ok ()) else andThen w.buildTable (·, .ok ())

-- Goes through all stages that are missing, and parses the tokens with a new parser.
def parse (fuel : Nat) (w : Workbench) (tokens : List Token) :
    Workbench × Except Error (Option ParseTree) :=
  andThen w.ensureAutomaton fun w =>
    andThen w.ensureTable fun w =>
      andThen (w.resetParse.loadTokens tokens) (·.runParse fuel)

end Workbench
end ShiftReduce
