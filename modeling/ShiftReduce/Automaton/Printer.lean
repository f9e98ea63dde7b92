import ShiftReduce.Automaton.Basic

namespace ShiftReduce.Automaton

def edgeText (g : Grammar) (e : Edge) : String :=
  "- " ++ g.name e.symbol ++ " => " ++ Text.twoDigits e.target.number ++ "\n"

def stateText (g : Grammar) (q : StateId) (n : Node) : String :=
  n.items.text g q ++ "## transitions\n" ++ String.join (n.edges.map (edgeText g))

def text (g : Grammar) (a : Automaton) : String :=
  Text.joined "\n" (a.states.map fun (q, n) => stateText g q n)

end ShiftReduce.Automaton
