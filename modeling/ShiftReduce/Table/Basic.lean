import ShiftReduce.Automaton.Construction
import ShiftReduce.Table.Cells

namespace ShiftReduce

structure ParseTable where
  grammar : Grammar
  algorithm : Algorithm
  states : List StateId
  actions : Cells Terminal
  gotos : Cells Nonterminal
  conflict : Bool

namespace Automaton

def shiftEntries (a : Automaton) : List ((StateId × Terminal) × Entry) :=
  a.transitions.filterMap fun (q, e) =>
    match e.symbol with
    | .terminal t => some ((q, t), ⟨.shift e.target, e.rule⟩)
    | .nonterminal _ => none

def gotoEntries (a : Automaton) : List ((StateId × Nonterminal) × Entry) :=
  a.transitions.filterMap fun (q, e) =>
    match e.symbol with
    | .terminal _ => none
    | .nonterminal n => some ((q, n), ⟨.goto e.target, e.rule⟩)

-- The terminals on which a complete item is reduced: all of them if the automaton has no
-- lookaheads.
def reduceOn (g : Grammar) (algorithm : Algorithm) (item : Item) : List Terminal :=
  match algorithm, item.lookaheads with
  | .lr0, _ | _, none => g.vocabulary.inputTerminals
  | _, some lookaheads => lookaheads.toList.filter (· ≠ .marker)

-- The entries for one item in the closure of a state, if it is complete.
def completeEntries (g : Grammar) (algorithm : Algorithm) (q : StateId) (item : Item) :
    List ((StateId × Terminal) × Entry) :=
  if item.IsEnd g then
    if g.left item.rule = .accept then
      [((q, .endOfInput), ⟨.accept, item.rule⟩)]
    else
      (reduceOn g algorithm item).map fun t => ((q, t), ⟨.reduce item.rule, item.rule⟩)
  else
    []

def reduceEntries (g : Grammar) (a : Automaton) : List ((StateId × Terminal) × Entry) :=
  a.states.flatMap fun (q, n) => n.items.closure.flatMap (completeEntries g a.algorithm q)

end Automaton

namespace ParseTable

def build (a : Automaton) (ctx : Context) : Except Error ParseTable :=
  if a.IsDone then
    let g := ctx.grammar
    let (actions, conflict₁) := Cells.empty.insertAll g (a.shiftEntries ++ a.reduceEntries g)
    let (gotos, conflict₂) := Cells.empty.insertAll g a.gotoEntries
    .ok {
      grammar := g
      algorithm := a.algorithm
      states := a.states.map (·.1)
      actions
      gotos
      conflict := conflict₁ || conflict₂ }
  else
    .error (.sequencing .automatonNotDone)

def initialState (_ : ParseTable) : StateId :=
  .start

-- Every action in a cell, the best one first.
def actionCell (t : ParseTable) (q : StateId) (x : Terminal) : List Entry :=
  t.actions.cell (q, x)

def gotoCell (t : ParseTable) (q : StateId) (n : Nonterminal) : List Entry :=
  t.gotos.cell (q, n)

-- The action that the parser takes.
def action? (t : ParseTable) (q : StateId) (x : Terminal) : Option Action :=
  (t.actionCell q x).head?.map (·.action)

def goto? (t : ParseTable) (q : StateId) (n : Nonterminal) : Option StateId :=
  match (t.gotoCell q n).head? with
  | some ⟨.goto target, _⟩ => some target
  | _ => none

-- The terminals with an action in a state, in the order in which they got one.
def expected (t : ParseTable) (q : StateId) : List Terminal :=
  t.actions.symbolsOf q

end ParseTable
end ShiftReduce
