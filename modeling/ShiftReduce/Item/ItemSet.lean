import ShiftReduce.Item.Basic

namespace ShiftReduce

-- The closure begins with the kernel, and `searched` counts the items that have been expanded. An
-- item that is found again is added only for the lookaheads that no item of its core has yet, so
-- that a core can occur several times until `mergeLookaheads` joins its items.
structure ItemSet where
  kernel : List Item
  closure : List Item
  searched : Nat
  closed : Bool
  -- Some expanded item is at its end.
  accepting : Bool
  -- The accept rule is complete.
  final : Bool
deriving DecidableEq

-- Whether an expansion found an item for the first time.
inductive Discovery
  | added
  | present
deriving DecidableEq

inductive ClosureStep
  | expanded (item : Item) (found : List (Item × Discovery))
  -- The closure was complete, nothing changed.
  | alreadyComputed
deriving DecidableEq

-- As many items, and those of the first, or in the LR(0) sense their cores, are in the second.
def SameKernel (kind : ItemKind) (xs ys : List Item) : Prop :=
  xs.length = ys.length ∧
    ∀ x ∈ xs, ∃ y ∈ ys,
      match kind with
      | .lr0 => x.core = y.core
      | .lr1 => x = y

def isSameKernel (kind : ItemKind) (xs ys : List Item) : Bool :=
  xs.length == ys.length &&
    xs.all fun x => ys.any fun y =>
      match kind with
      | .lr0 => x.core = y.core
      | .lr1 => x = y

theorem isSameKernel_iff {kind : ItemKind} {xs ys : List Item} :
    isSameKernel kind xs ys = true ↔ SameKernel kind xs ys := by
  cases kind <;> simp [isSameKernel, SameKernel]

instance (kind : ItemKind) (xs ys : List Item) : Decidable (SameKernel kind xs ys) :=
  decidable_of_iff _ isSameKernel_iff

-- Joins the lookaheads of `item` into the first of `items` that has the same core, if any.
def joinFirst : List Item → Item → List Item
  | [], _ => []
  | x :: xs, item => if x.core = item.core then x.join item :: xs else x :: joinFirst xs item

def joinByCore (items : List Item) : List Item :=
  items.foldl (fun joined item =>
    if joined.any (·.core = item.core) then joinFirst joined item else joined ++ [item]) []

-- The lookaheads that the items of a core have together, if there is such an item.
def coveredLookaheads? (items : List Item) (core : Core) : Option TerminalSet :=
  items.foldl (fun s i => if i.core = core then some (s.getD ∅ ∪ i.lookaheadSet) else s) none

-- Adds a predicted item to a closure, trimmed to the lookaheads that are not covered yet, and tells
-- what became of it.
def discover (closure : List Item) (item : Item) : List Item × Item × Discovery :=
  match item.lookaheads with
  | none =>
    if closure.any (·.core = item.core) then (closure, item, .present)
    else (closure ++ [item], item, .added)
  | some lookaheads =>
    match coveredLookaheads? closure item.core with
    | none => (closure ++ [item], item, .added)
    | some covered =>
      let rest := lookaheads \ covered
      let trimmed := { item with lookaheads := some rest }
      if rest = ∅ then (closure, trimmed, .present) else (closure ++ [trimmed], trimmed, .added)

def discoverAll (closure : List Item) : List Item → List Item × List (Item × Discovery)
  | [] => (closure, [])
  | item :: items =>
    let (closure, found) := discover closure item
    let (closure, rest) := discoverAll closure items
    (closure, found :: rest)

namespace ItemSet

-- Sums are those of the core library, whatever else is imported.
attribute [local instance (high)] Zero.ofOfNat0

-- A kernel whose items are all at their ends has nothing to expand: its closure is complete.
def ofKernel (g : Grammar) (kernel : List Item) : ItemSet :=
  if kernel.all (·.IsEnd g) then
    { kernel
      closure := kernel
      searched := kernel.length
      closed := true
      accepting := !kernel.isEmpty
      final := kernel.any (g.left ·.rule = .accept) }
  else
    { kernel
      closure := kernel
      searched := 0
      closed := false
      accepting := false
      final := false }

def reset (g : Grammar) (s : ItemSet) : ItemSet :=
  ofKernel g s.kernel

def closureStep (ctx : Context) (kind : ItemKind) (s : ItemSet) :
    Except ConstructionError (ItemSet × ClosureStep) :=
  if s.closed then
    .ok (s, .alreadyComputed)
  else
    match s.closure[s.searched]? with
    | none => .ok ({ s with closed := true }, .alreadyComputed)
    | some item =>
      if item.kind ≠ kind then
        .error .itemKindMismatch
      else
        let (closure, found) := discoverAll s.closure (item.predictions ctx)
        let isEnd : Bool := item.IsEnd ctx.grammar
        .ok ({ s with
          closure
          searched := s.searched + 1
          closed := closure.length ≤ s.searched + 1
          accepting := s.accepting || isEnd
          final := s.final || (isEnd && ctx.grammar.left item.rule = .accept) },
          .expanded item found)

-- Takes closure steps, at most `fuel` of them, until the closure is complete.
def computeClosureFor (ctx : Context) (kind : ItemKind) (fuel : Nat) (s : ItemSet) :
    ItemSet × Except ConstructionError (List ClosureStep) :=
  match fuel with
  | 0 => (s, .ok [])
  | fuel + 1 =>
    match s.closureStep ctx kind with
    | .error e => (s, .error e)
    | .ok (s, .alreadyComputed) => (s, .ok [])
    | .ok (s, step) =>
      let (s, steps) := computeClosureFor ctx kind fuel s
      (s, steps.map (step :: ·))

-- Every item that a closure step adds is the first of its core, or has a lookahead that its core
-- did not have: one that begins some rule, or one of those that were there from the start.
def closureBound (ctx : Context) (s : ItemSet) : Nat :=
  let lookaheads := (s.closure.map (·.lookaheadSet.size)).sum
  s.closure.length +
    ctx.grammar.rules.size * (ctx.grammar.vocabulary.terminals.size + lookaheads + 1) + 1

-- Completes the closure. An error keeps what had been found before it.
def computeClosure (ctx : Context) (kind : ItemKind) (s : ItemSet) :
    ItemSet × Except ConstructionError (List ClosureStep) :=
  s.computeClosureFor ctx kind (s.closureBound ctx)

-- Joins the items behind the kernel that share a core, and counts how many that removes.
def mergeLookaheads (s : ItemSet) : ItemSet × Nat :=
  let closure := s.closure.take s.kernel.length ++ joinByCore (s.closure.drop s.kernel.length)
  ({ s with closure, searched := if s.closed then closure.length else s.searched },
    s.closure.length - closure.length)

-- Joins the lookaheads of another set, item by item.
def absorb (s other : ItemSet) : ItemSet :=
  { s with
    kernel := other.kernel.foldl joinFirst s.kernel
    closure := other.closure.foldl joinFirst s.closure }

def promote (s : ItemSet) : ItemSet :=
  { s with kernel := s.kernel.map Item.promote, closure := s.closure.map Item.promote }

-- Adds lookaheads to one item of the kernel, and to nothing else.
def addLookaheads (s : ItemSet) (index : Nat) (lookaheads : TerminalSet) : ItemSet :=
  { s with kernel := s.kernel.modify index fun i => i.join ⟨i.core, some lookaheads⟩ }

def text (g : Grammar) (id : StateId) (s : ItemSet) : String :=
  let status := if s.final then " (end)" else if s.accepting then " (accepting)" else ""
  let line (bullet : String) (i : Item) := bullet ++ " " ++ i.text g ++ "\n"
  "#### State " ++ Text.twoDigits id.number ++ status ++ "\n" ++
    String.join ((s.closure.take s.kernel.length).map (line "*")) ++
    String.join ((s.closure.drop s.kernel.length).map (line "-"))

@[simp]
theorem kernel_ofKernel {g : Grammar} {kernel : List Item} :
    (ofKernel g kernel).kernel = kernel := by
  unfold ofKernel
  split <;> rfl

@[simp]
theorem closure_ofKernel {g : Grammar} {kernel : List Item} :
    (ofKernel g kernel).closure = kernel := by
  unfold ofKernel
  split <;> rfl

end ItemSet
end ShiftReduce
