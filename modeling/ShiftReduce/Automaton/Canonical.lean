import ShiftReduce.Automaton.Merging
import ShiftReduce.Automaton.Propagation

namespace ShiftReduce

structure GotoStep where
  state : StateId
  -- Each symbol with its target, and whether this step created that state.
  transitions : List (Symbol × StateId × Bool)
deriving DecidableEq

-- The items of a state that have one symbol after the dot, each advanced over it, and the best of
-- their rules.
structure Successor where
  symbol : Symbol
  kernel : List Item
  rule : RuleId
deriving DecidableEq

namespace Successor

def insert (g : Grammar) (symbol : Symbol) (item : Item) : List Successor → List Successor
  | [] => [⟨symbol, [item.advance], item.rule⟩]
  | s :: rest =>
    if s.symbol = symbol then
      { s with
        kernel := s.kernel ++ [item.advance]
        rule := if (g.rule item.rule).Outranks (g.rule s.rule) then item.rule else s.rule } :: rest
    else
      s :: insert g symbol item rest

-- The successors of a closure, in the order in which their symbols occur.
def ofClosure (g : Grammar) (closure : List Item) : List Successor :=
  closure.foldl (fun successors item =>
    match item.next? g with
    | some symbol => insert g symbol item successors
    | none => successors) []

end Successor

namespace Automaton

def findState? (kind : ItemKind) (kernel : List Item) (nodes : Array Node) : Option StateId :=
  (nodes.findIdx? fun n => n.live ∧ SameKernel kind n.items.kernel kernel).map StateId.mk

-- Finds or creates the target of each successor, in order.
def connect (g : Grammar) (kind : ItemKind) (nodes : Array Node) :
    List Successor → Array Node × List (Edge × Bool)
  | [] => (nodes, [])
  | s :: rest =>
    match findState? kind s.kernel nodes with
    | some target =>
      let (nodes, edges) := connect g kind nodes rest
      (nodes, (⟨s.symbol, target, s.rule⟩, false) :: edges)
    | none =>
      let target : StateId := ⟨nodes.size⟩
      let (nodes, edges) := connect g kind (nodes.push { items := .ofKernel g s.kernel }) rest
      (nodes, (⟨s.symbol, target, s.rule⟩, true) :: edges)

-- Goes on to the state under the pointer, or to what follows the canonical collection.
def enterState (a : Automaton) : Automaton :=
  match a.nodes[a.pointer]? with
  | some n => { a with phase := if n.items.closed then .goto else .closure }
  | none =>
    match a.algorithm with
    | .lr0 | .lr1 => { a with phase := .done }
    | .lalrByMerging => a.startMerging
    | .lalrByPropagation => a.startPropagation

def gotoStep (ctx : Context) (a : Automaton) : Except Error (Automaton × GotoStep) := do
  a.expectPhase .goto
  let q : StateId := ⟨a.pointer⟩
  let node ← a.node q
  let successors := Successor.ofClosure ctx.grammar node.items.closure
  let (nodes, edges) := connect ctx.grammar a.algorithm.itemKind a.nodes successors
  let a := { a with nodes }
  let a := a.modifyNode q fun n => { n with edges := edges.map (·.1) }
  let a := { a with pointer := a.pointer + 1 }.enterState
  return (a, ⟨q, edges.map fun (e, created) => (e.symbol, e.target, created)⟩)

end Automaton
end ShiftReduce
