import ShiftReduce.Parser.Token
import ShiftReduce.Parser.Tree
import ShiftReduce.Table.Basic

namespace ShiftReduce

structure Frame where
  state : StateId
  tree : ParseTree
deriving DecidableEq

inductive Status
  | running
  | accepted
  | failed
deriving DecidableEq

-- The frames stand on top of the initial state of the table.
structure Parser where
  table : ParseTable
  tokens : TokenStream
  -- The number of tokens that have been shifted.
  cursor : Nat
  -- The top comes first.
  stack : List Frame
  status : Status

inductive ParseStep
  -- The next token and the new state; also the token after it, if there is one.
  | shift (token : Token) (state : StateId) (pending : Option Token)
  -- The rule, how many frames it took off the stack, the state below them, the state that followed
  -- and the new tree.
  | reduce (rule : RuleId) (popped : Nat) (exposed state : StateId) (node : ParseTree)
  | accept
deriving DecidableEq

namespace Parser

def initial (table : ParseTable) (tokens : TokenStream) : Parser where
  table
  tokens
  cursor := 0
  stack := []
  status := .running

def topState (table : ParseTable) : List Frame → StateId
  | [] => table.initialState
  | frame :: _ => frame.state

def state (p : Parser) : StateId :=
  topState p.table p.stack

-- All states on the stack, from the initial one on.
def states (p : Parser) : List StateId :=
  p.table.initialState :: (p.stack.map (·.state)).reverse

def values (p : Parser) : List ParseTree :=
  (p.stack.map (·.tree)).reverse

def tree? (p : Parser) : Option ParseTree :=
  if p.status = .accepted then p.stack.head?.map (·.tree) else none

def action? (p : Parser) (token : Token) : Option Action :=
  (p.table.grammar.vocabulary.terminal? token.kind).bind (p.table.action? p.state)

-- The names of the terminals that the current state has an action for, sorted.
def expectedNames (p : Parser) : List String :=
  ((p.table.expected p.state).map fun t => p.table.grammar.name (.terminal t)).mergeSort (· ≤ ·)

def unexpected (p : Parser) (token : Token) : UnexpectedToken where
  value := token.value
  kind := token.kind
  state := p.state
  expected := p.expectedNames

def shift (p : Parser) (token : Token) (q : StateId) : Parser × ParseStep :=
  let cursor := p.cursor + 1
  ({ p with cursor, stack := ⟨q, .leaf token.kind token.value⟩ :: p.stack },
    .shift token q (p.tokens.get? cursor))

-- Takes the right side of a rule off the stack and goes on from the state below it. If the table
-- does not say where to, what was taken off is lost.
def reduce (p : Parser) (r : RuleId) : Parser × Except Error ParseStep :=
  let g := p.table.grammar
  let popped := (g.right r).length
  let taken := p.stack.take popped
  if taken.length < popped then
    (p, .error (.invariant (.stackUnderflow r)))
  else
    let rest := p.stack.drop popped
    let exposed := topState p.table rest
    let symbol := g.name (.nonterminal (g.left r))
    match p.table.goto? exposed (g.left r) with
    | none => ({ p with stack := rest }, .error (.invariant (.missingGoto exposed symbol)))
    | some q =>
      let node := .node symbol (taken.map (·.tree)).reverse
      ({ p with stack := ⟨q, node⟩ :: rest }, .ok (.reduce r popped exposed q node))

-- Does one shift, one reduction together with its goto, or the acceptance.
def step (p : Parser) : Parser × Except Error ParseStep :=
  if p.status ≠ .running then
    (p, .error (.sequencing .parserHalted))
  else
    match p.tokens.get p.cursor with
    | .error e => (p, .error e)
    | .ok token =>
      match p.action? token with
      | none => ({ p with status := .failed }, .error (.parse (p.unexpected token)))
      | some (.shift q) =>
        let (p, step) := p.shift token q
        (p, .ok step)
      | some (.reduce r) => p.reduce r
      | some .accept => ({ p with status := .accepted }, .ok .accept)
      | some (.goto _) => (p, .error (.invariant (.missingGoto p.state token.kind)))

-- Takes steps while the parser runs, at most `fuel` of them. Nothing if that was not enough.
def runFor (fuel : Nat) (p : Parser) : Parser × Except Error (Option ParseTree) :=
  if p.status = .running then
    match fuel with
    | 0 => (p, .ok none)
    | fuel + 1 =>
      match p.step with
      | (p, .error e) => (p, .error e)
      | (p, .ok _) => runFor fuel p
  else
    match p.tree? with
    | some tree => (p, .ok (some tree))
    | none => (p, .error (.sequencing .parserHalted))

end Parser
end ShiftReduce
