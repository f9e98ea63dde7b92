import ShiftReduce.Automaton.Basic

namespace ShiftReduce

structure MergeStep where
  removed : StateId
  into : StateId
  -- Every merge so far.
  mergeMap : List (StateId × StateId)
deriving DecidableEq

structure Retargeting where
  source : StateId
  symbol : Symbol
  old : StateId
  new : StateId
deriving DecidableEq

structure RetargetStep where
  mergeMap : List (StateId × StateId)
  changed : List Retargeting
deriving DecidableEq

namespace Automaton

-- The first state that shares its cores with a later one, and the first such later one.
def firstMergeable? : List (StateId × Node) → Option (StateId × StateId)
  | [] => none
  | (q, n) :: rest =>
    match rest.find? fun m => SameKernel .lr0 n.items.kernel m.2.items.kernel with
    | some m => some (q, m.1)
    | none => firstMergeable? rest

def mergeable? (a : Automaton) : Option (StateId × StateId) :=
  firstMergeable? (a.states.filter (a.mergeCursor ≤ ·.1.number))

def startMerging (a : Automaton) : Automaton :=
  let a := { a with mergeCursor := 0 }
  { a with phase := if a.mergeable?.isSome then .mergeStates else .retarget }

-- Lets `into` take in `removed`, whose transitions lead where those of `into` lead.
def merge (a : Automaton) (into removed : StateId) (source : ItemSet) : Automaton :=
  let a := a.modifyItems into (·.absorb source)
  let a := a.modifyNode removed fun n => { n with live := false, edges := [] }
  { a with redirects := a.redirects ++ [(removed, into)], mergeCursor := into.number }

-- Merges the next pair of states, or moves on if there is none.
def mergeStep (a : Automaton) : Except Error (Automaton × Option MergeStep) := do
  a.expectAlgorithm .lalrByMerging
  a.expectPhase .mergeStates
  match a.mergeable? with
  | none => return ({ a with phase := .retarget }, none)
  | some (into, removed) =>
    let source ← a.node removed
    let _ ← a.node into
    let a := a.merge into removed source.items
    let a := if a.mergeable?.isSome then a else { a with phase := .retarget }
    return (a, some ⟨removed, into, a.mergeMap⟩)

def retarget (a : Automaton) : Except Error (Automaton × RetargetStep) := do
  a.expectAlgorithm .lalrByMerging
  a.expectPhase .retarget
  let resolution := a.resolution
  let resolved (q : StateId) : StateId := resolution.getD q.number q
  let changed := a.transitions.filterMap fun (source, e) =>
    if resolved e.target = e.target then none
    else some ⟨source, e.symbol, e.target, resolved e.target⟩
  let redirect (e : Edge) : Edge := { e with target := resolved e.target }
  let nodes := a.nodes.map fun n => { n with edges := n.edges.map redirect }
  return ({ a with nodes, phase := .done }, ⟨a.mergeMap, changed⟩)

end Automaton
end ShiftReduce
