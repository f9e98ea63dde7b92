import ShiftReduce.Item.ItemSet

namespace ShiftReduce

structure Edge where
  symbol : Symbol
  target : StateId
  rule : RuleId
deriving DecidableEq

structure Node where
  items : ItemSet
  edges : List Edge := []
  live : Bool := true
deriving DecidableEq

structure KernelRef where
  state : StateId
  index : Nat
deriving DecidableEq

-- A state is a number, and its node is found at that place. A merged state leaves a node that is
-- not live, so that numbers never change; `redirects` tells where it went.
structure Automaton where
  algorithm : Algorithm
  nodes : Array Node
  -- Which kernel items pass their lookaheads on, and to which others, the latest ones first.
  effects : List (KernelRef × List KernelRef)
  -- The merged states and the states that took them in, in the order of merging.
  redirects : List (StateId × StateId)
  -- The number of the state that the construction works on.
  pointer : Nat
  phase : Phase
  -- No state before this one can be merged any more.
  mergeCursor : Nat
  passes : Nat
deriving DecidableEq

namespace Automaton

def initial (ctx : Context) (algorithm : Algorithm) : Automaton where
  algorithm
  nodes := #[{ items := .ofKernel ctx.grammar [.start algorithm.itemKind] }]
  effects := []
  redirects := []
  pointer := 0
  phase := .closure
  mergeCursor := 0
  passes := 0

def IsDone (a : Automaton) : Prop :=
  a.phase = .done

instance (a : Automaton) : Decidable a.IsDone :=
  inferInstanceAs (Decidable (a.phase = .done))

-- The node of a state that has not been merged away.
def node? (a : Automaton) (q : StateId) : Option Node :=
  a.nodes[q.number]?.filter (·.live)

def node (a : Automaton) (q : StateId) : Except Error Node :=
  match a.node? q with
  | some n => .ok n
  | none => .error (.invariant (.deadState q))

def modifyNode (a : Automaton) (q : StateId) (f : Node → Node) : Automaton :=
  { a with nodes := a.nodes.modify q.number f }

def modifyItems (a : Automaton) (q : StateId) (f : ItemSet → ItemSet) : Automaton :=
  a.modifyNode q fun n => { n with items := f n.items }

def numbered (a : Automaton) : List (StateId × Node) :=
  a.nodes.toList.zipIdx.map fun (n, k) => (⟨k⟩, n)

-- The live states, in the order of their numbers.
def states (a : Automaton) : List (StateId × Node) :=
  a.numbered.filter (·.2.live)

def stateCount (a : Automaton) : Nat :=
  a.states.length

def transitions (a : Automaton) : List (StateId × Edge) :=
  a.numbered.flatMap fun (q, n) => n.edges.map (q, ·)

def edge? (a : Automaton) (q : StateId) (s : Symbol) : Option Edge :=
  a.nodes[q.number]?.bind fun n => n.edges.find? (·.symbol = s)

def transition? (a : Automaton) (q : StateId) (s : Symbol) : Option StateId :=
  (a.edge? q s).map (·.target)

def transitionRule? (a : Automaton) (q : StateId) (s : Symbol) : Option RuleId :=
  (a.edge? q s).map (·.rule)

-- Where a state went. A state is merged once and takes in no other afterwards, so that one walk
-- over the redirects in their order follows them all.
def resolve (a : Automaton) (q : StateId) : StateId :=
  a.redirects.foldl (fun q r => if q = r.1 then r.2 else q) q

def resolution (a : Automaton) : Std.TreeMap Nat StateId :=
  a.redirects.foldr (fun r m => m.insert r.1.number (m.getD r.2.number r.2)) ∅

-- The merged states, each with the live state that stands for it.
def mergeMap (a : Automaton) : List (StateId × StateId) :=
  let resolution := a.resolution
  a.redirects.map fun r => (r.1, resolution.getD r.1.number r.1)

def effectsInOrder (a : Automaton) : List (KernelRef × List KernelRef) :=
  (a.effects.map fun e => (e.1, e.2.reverse)).reverse

def expectAlgorithm (a : Automaton) (expected : Algorithm) : Except Error Unit :=
  if a.algorithm = expected then .ok ()
  else .error (.sequencing (.wrongAlgorithm expected a.algorithm))

def expectPhase (a : Automaton) (expected : Phase) : Except Error Unit :=
  if a.phase = expected then .ok () else .error (.sequencing (.phaseMismatch expected a.phase))

theorem getD_resolution {a : Automaton} {q : StateId} :
    a.resolution.getD q.number q = a.resolve q := by
  unfold resolution resolve
  generalize a.redirects = redirects
  induction redirects generalizing q
  case nil => simp
  case cons r rest hi =>
    obtain ⟨⟨i⟩, target⟩ := r
    obtain ⟨j⟩ := q
    by_cases h : j = i
    case pos =>
      subst h
      simp [hi]
    case neg => simp [Std.TreeMap.getD_insert, Ne.symm h, ← hi, h]

theorem node_eq_ok_iff {a : Automaton} {q : StateId} {n : Node} :
    a.node q = .ok n ↔ a.node? q = some n := by
  unfold node
  split <;> simp_all

end Automaton
end ShiftReduce
