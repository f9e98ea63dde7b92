import ShiftReduce.Grammar.Basic

namespace ShiftReduce

-- The text of a production, with nothing after the arrow if the right side is empty.
def Vocabulary.productionText (v : Vocabulary) (left : Nonterminal) (right : List Symbol) :
    String :=
  v.name (.nonterminal left) ++ " ->" ++ String.join (right.map fun s => " " ++ v.name s)

namespace Grammar

def ruleText (g : Grammar) (r : RuleId) : String :=
  g.vocabulary.productionText (g.left r) (g.right r) ++ if g.right r = [] then " ε" else ""

-- The text of a rule on a line of its own, which also tells a priority other than zero.
def ruleLine (g : Grammar) (r : RuleId) : String :=
  let priority := (g.rule r).priority
  g.ruleText r ++ (if priority = 0 then "" else " (priority=" ++ toString priority ++ ")") ++ "\n"

def text (g : Grammar) : String :=
  "## terminals: " ++ Text.joined ", " g.vocabulary.terminals.toList ++
    "\n## nonterminals: " ++ Text.joined ", " g.vocabulary.nonterminals.toList ++
    "\n## rules:\n" ++ String.join (g.ruleIds.map g.ruleLine)

end Grammar
end ShiftReduce
