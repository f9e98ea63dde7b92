import ShiftReduce.Table.Basic

namespace ShiftReduce.ParseTable

def cellText (cell : List Entry) : String :=
  Text.joined "/" (cell.map (·.action.label))

def nonterminalColumns (t : ParseTable) : List Nonterminal :=
  t.grammar.vocabulary.nonterminalIds.filter (· ≠ .accept)

def header (t : ParseTable) : List String :=
  "state" :: t.grammar.vocabulary.inputTerminals.map (t.grammar.name <| .terminal ·) ++
    t.nonterminalColumns.map (t.grammar.name <| .nonterminal ·)

def rowTexts (t : ParseTable) (q : StateId) : List String :=
  toString q.number ::
    t.grammar.vocabulary.inputTerminals.map (fun x => cellText (t.actionCell q x)) ++
    t.nonterminalColumns.map fun n => cellText (t.gotoCell q n)

def widths (rows : List (List String)) : List Nat :=
  match rows with
  | [] => []
  | row :: rows =>
    rows.foldl (fun ws row => List.zipWith (fun w s => max w s.length) ws row)
      (row.map (·.length))

def gridLine (widths : List Nat) (row : List String) : String :=
  String.join (List.zipWith (fun w s => "| " ++ Text.padRight w s ++ " ") widths row) ++ "|\n"

def text (t : ParseTable) : String :=
  let rows := t.header :: t.states.map t.rowTexts
  let conflicts := if t.conflict then "## conflicts detected\n" else ""
  "#### " ++ t.algorithm.title ++ " parse table\n" ++ conflicts ++
    String.join (rows.map (gridLine (widths rows)))

end ShiftReduce.ParseTable
