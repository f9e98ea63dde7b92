import ShiftReduce.Table.Basic
import ShiftReduce.Worklist

namespace ShiftReduce

structure NormalTable where
  -- Sorted by key.
  actions : List ((StateId × Terminal) × List Action)
  gotos : List ((StateId × Nonterminal) × List Action)
deriving DecidableEq

namespace ParseTable

-- The state that a cell leads to, if its best action is a shift or a goto.
def leadsTo? (cell : List Entry) : Option StateId :=
  match cell.head? with
  | some ⟨.shift q, _⟩ | some ⟨.goto q, _⟩ => some q
  | _ => none

-- Where the best actions of a state lead, ordered by symbol: terminals come first.
def successors (t : ParseTable) (q : StateId) : List StateId :=
  (t.actions.rowOf q).filterMap (leadsTo? ·.2) ++ (t.gotos.rowOf q).filterMap (leadsTo? ·.2)

-- Where the best actions of all states lead, by the number of the state and ordered by symbol.
def targetsByState {σ : Type} [Numbered σ] (cells : Cells σ) : Std.TreeMap Nat (List StateId) :=
  cells.entries.toList.foldr (fun c m =>
    match leadsTo? c.2 with
    | some q => m.insert c.1.1.number (q :: m.getD c.1.1.number [])
    | none => m) ∅

theorem getD_targetsByState {σ : Type} [Numbered σ] {cells : Cells σ} {q : StateId} :
    (targetsByState cells).getD q.number [] = (cells.rowOf q).filterMap (leadsTo? ·.2) := by
  unfold targetsByState Cells.rowOf
  generalize cells.entries.toList = entries
  induction entries
  case nil => simp
  case cons c rest hi =>
    obtain ⟨⟨⟨i⟩, x⟩, cell⟩ := c
    obtain ⟨j⟩ := q
    rw [List.foldr_cons]
    by_cases h : i = j <;> split <;> simp_all [Std.TreeMap.getD_insert]

-- The states that the best actions lead to, in breadth-first order. Each of them but the first is
-- the target of some cell.
def visitOrder (t : ParseTable) : List StateId :=
  let shifts := targetsByState t.actions
  let gotos := targetsByState t.gotos
  Worklist.traverse (fun q => shifts.getD q.number [] ++ gotos.getD q.number [])
    (t.actions.size + t.gotos.size + 1) (.ofList [t.initialState])

theorem visitOrder_eq {t : ParseTable} :
    t.visitOrder =
      Worklist.traverse t.successors (t.actions.size + t.gotos.size + 1)
        (.ofList [t.initialState]) := by
  simp only [visitOrder, getD_targetsByState]
  rfl

def renumber (order : List StateId) (q : StateId) : StateId :=
  match order.findIdx? (· = q) with
  | some k => ⟨k⟩
  | none => q

-- The cells with their states renumbered. Should two cells get the same key, the one that got its
-- first entry later stays.
def normalCells {σ : Type} [Numbered σ] (order : List StateId) (cells : Cells σ) :
    List ((StateId × σ) × List Action) :=
  let renumbered := cells.inOrder.map fun key =>
    ((renumber order key.1, key.2),
      (cells.cell key).map fun e => e.action.relabel (renumber order))
  (renumbered.foldl (fun m c => m.insert c.1 c.2)
    (∅ : Std.TreeMap (StateId × σ) (List Action) compareKeys)).toList

-- States are numbered in breadth-first order from the initial state. One that is not found in this
-- way keeps its number.
def normalized (t : ParseTable) : NormalTable :=
  let order := t.visitOrder
  { actions := normalCells order t.actions
    gotos := normalCells order t.gotos }

end ParseTable
end ShiftReduce
