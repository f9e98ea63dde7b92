import ShiftReduce.FirstSets
import ShiftReduce.Grammar.Printer

namespace ShiftReduce

structure Core where
  rule : RuleId
  dot : Nat
deriving DecidableEq

structure Item where
  core : Core
  -- Nothing in an LR(0) item.
  lookaheads : Option TerminalSet
deriving DecidableEq

namespace Core

def next? (g : Grammar) (c : Core) : Option Symbol :=
  (g.right c.rule)[c.dot]?

-- The symbols behind the one after the dot.
def afterNext (g : Grammar) (c : Core) : List Symbol :=
  (g.right c.rule).drop (c.dot + 1)

def IsEnd (g : Grammar) (c : Core) : Prop :=
  (g.right c.rule).length ≤ c.dot

instance (g : Grammar) (c : Core) : Decidable (c.IsEnd g) :=
  inferInstanceAs (Decidable (_ ≤ _))

def advance (c : Core) : Core :=
  { c with dot := c.dot + 1 }

theorem next?_eq_none_iff {g : Grammar} {c : Core} : c.next? g = none ↔ c.IsEnd g := by
  simp [next?, IsEnd]

end Core

namespace Item

def make (g : Grammar) (rule : RuleId) (dot : Nat) (lookaheads : Option TerminalSet) :
    Except ConstructionError Item :=
  match g.rule? rule with
  | none => .error (.unknownRule rule)
  | some r =>
    if dot ≤ r.right.length then
      .ok ⟨⟨rule, dot⟩, lookaheads⟩
    else
      .error (.dotOutOfRange rule dot r.right.length)

-- The item that every construction begins with.
def start : ItemKind → Item
  | .lr0 => ⟨⟨.accept, 0⟩, none⟩
  | .lr1 => ⟨⟨.accept, 0⟩, some {.endOfInput}⟩

def rule (i : Item) : RuleId :=
  i.core.rule

def kind (i : Item) : ItemKind :=
  if i.lookaheads.isSome then .lr1 else .lr0

-- The lookaheads, or the empty set for an LR(0) item.
def lookaheadSet (i : Item) : TerminalSet :=
  i.lookaheads.getD ∅

def next? (g : Grammar) (i : Item) : Option Symbol :=
  i.core.next? g

def IsEnd (g : Grammar) (i : Item) : Prop :=
  i.core.IsEnd g

instance (g : Grammar) (i : Item) : Decidable (i.IsEnd g) :=
  inferInstanceAs (Decidable (i.core.IsEnd g))

def advance (i : Item) : Item :=
  { i with core := i.core.advance }

-- Equality, which only makes sense for two items of one kind.
def equal (i j : Item) : Except ConstructionError Bool :=
  if i.kind = j.kind then .ok (i = j) else .error .itemKindMismatch

-- Whether the cores agree and the lookaheads of `i` cover those of `j`.
def includes (i j : Item) : Except ConstructionError Bool :=
  if i.kind = j.kind then
    .ok (i.core = j.core ∧ j.lookaheadSet ⊆ i.lookaheadSet)
  else
    .error .itemKindMismatch

-- Adds the lookaheads of `j`, if both are LR(1) items.
def join (i j : Item) : Item :=
  match i.lookaheads, j.lookaheads with
  | some a, some b => { i with lookaheads := some (a ∪ b) }
  | _, _ => i

-- An LR(0) item becomes an LR(1) item without lookaheads.
def promote (i : Item) : Item :=
  { i with lookaheads := some i.lookaheadSet }

-- The items that the nonterminal after the dot predicts, in the order of their rules.
def predictions (ctx : Context) (i : Item) : List Item :=
  match i.next? ctx.grammar with
  | some (.nonterminal n) =>
    let lookaheads := i.lookaheads.map (ctx.first.ofSeq (i.core.afterNext ctx.grammar))
    (ctx.grammar.rulesOf n).map fun r => ⟨⟨r, 0⟩, lookaheads⟩
  | _ => []

def text (g : Grammar) (i : Item) : String :=
  let right := g.right i.rule
  let spelled (symbols : List Symbol) := String.join (symbols.map fun s => " " ++ g.name s)
  let dot := if i.core.dot ≤ right.length then " ·" else ""
  let lookaheads :=
    match i.lookaheads with
    | some s => " ; " ++ Text.joined " " (s.toList.map fun t => g.name (.terminal t))
    | none => ""
  "[" ++ g.name (.nonterminal (g.left i.rule)) ++ " ->" ++ spelled (right.take i.core.dot) ++ dot ++
    spelled (right.drop i.core.dot) ++ lookaheads ++ "]"

@[simp]
theorem core_join {i j : Item} : (i.join j).core = i.core := by
  unfold join
  split <;> rfl

@[simp]
theorem core_promote {i : Item} : i.promote.core = i.core :=
  rfl

end Item
end ShiftReduce
