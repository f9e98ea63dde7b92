import ShiftReduce.Automaton.Basic

namespace ShiftReduce

structure SpontaneousStep where
  state : StateId
  -- The kernel items that got lookaheads, and which.
  generated : List (KernelRef × TerminalSet)
  links : List (KernelRef × KernelRef)
deriving DecidableEq

structure PropagationPass where
  -- The number of this pass, from one on.
  pass : Nat
  -- The kernel items that gained a lookahead, in the order in which they did.
  grown : List KernelRef
deriving DecidableEq

def PropagationPass.changed (p : PropagationPass) : Bool :=
  !p.grown.isEmpty

structure RecloseStep where
  state : StateId
  closureSteps : Nat
  -- The number of items that joining their lookaheads removed.
  merged : Nat
deriving DecidableEq

namespace Automaton

-- Every item becomes an LR(1) item, and the start item can be followed by the end of input.
def startPropagation (a : Automaton) : Automaton :=
  let nodes := a.nodes.map fun n => { n with items := n.items.promote }
  let a := { a with nodes, pointer := 0, passes := 0, phase := .spontaneous }
  a.modifyItems .start (·.addLookaheads 0 {.endOfInput})

-- Adds a target to those of a source that has some.
def extendEffect (source target : KernelRef) :
    List (KernelRef × List KernelRef) → List (KernelRef × List KernelRef)
  | [] => []
  | (s, ts) :: rest =>
    if s = source then (s, target :: ts) :: rest else (s, ts) :: extendEffect source target rest

-- Adds a link as the latest one of its source. Nothing if it is there already.
def insertLink? (source target : KernelRef) (effects : List (KernelRef × List KernelRef)) :
    Option (List (KernelRef × List KernelRef)) :=
  match effects.find? (·.1 = source) with
  | none => some ((source, [target]) :: effects)
  | some (_, targets) =>
    if target ∈ targets then none else some (extendEffect source target effects)

-- The closure of a kernel item under the marker shows which lookaheads its successors get whatever
-- its own are, and to which of them it passes its own on. The latest finds come first.
structure Survey where
  automaton : Automaton
  generated : List (KernelRef × TerminalSet)
  links : List (KernelRef × KernelRef)

namespace Survey

def link (s : Survey) (source target : KernelRef) : Survey :=
  match insertLink? source target s.automaton.effects with
  | none => s
  | some effects =>
    { s with
      automaton := { s.automaton with effects }
      links := (source, target) :: s.links }

def generate (s : Survey) (target : KernelRef) (lookaheads : TerminalSet) : Survey :=
  { s with
    automaton := s.automaton.modifyItems target.state (·.addLookaheads target.index lookaheads)
    generated := (target, lookaheads) :: s.generated }

-- Where an item of the closure goes when its next symbol has been read, if there is one.
def destination? (g : Grammar) (a : Automaton) (q : StateId) (item : Item) :
    Except Error (Option KernelRef) :=
  match item.next? g with
  | none => return none
  | some symbol =>
    match a.transition? q symbol with
    | none => .error (.invariant (.missingTransition q (g.name symbol)))
    | some target => do
      let node ← a.node target
      match node.items.kernel.findIdx? (·.core = item.core.advance) with
      | none => .error (.invariant (.missingKernelItem target (item.advance.text g)))
      | some index => return some ⟨target, index⟩

def take (g : Grammar) (source : KernelRef) (s : Survey) (item : Item) : Except Error Survey := do
  match ← destination? g s.automaton source.state item with
  | none => return s
  | some target =>
    let s := if .marker ∈ item.lookaheadSet then s.link source target else s
    let rest := item.lookaheadSet.erase .marker
    return if rest = ∅ then s else s.generate target rest

-- The closure of a kernel item whose only lookahead is the marker.
def probe (ctx : Context) (core : Core) : Except Error (List Item) := do
  let seed ← (Item.make ctx.grammar core.rule core.dot (some {.marker})).mapError .construction
  let (probe, steps) := (ItemSet.ofKernel ctx.grammar [seed]).computeClosure ctx .lr1
  let _ ← steps.mapError .construction
  return probe.closure

def takeAll (g : Grammar) (source : KernelRef) (s : Survey) :
    List Item → Survey × Except Error Unit
  | [] => (s, .ok ())
  | item :: items =>
    match s.take g source item with
    | .error e => (s, .error e)
    | .ok s => s.takeAll g source items

-- Surveys the kernel items of a state from `index` on. An error keeps what was found before.
def kernel (ctx : Context) (q : StateId) (s : Survey) (index : Nat) :
    List Core → Survey × Except Error Unit
  | [] => (s, .ok ())
  | core :: cores =>
    match probe ctx core with
    | .error e => (s, .error e)
    | .ok items =>
      match s.takeAll ctx.grammar ⟨q, index⟩ items with
      | (s, .error e) => (s, .error e)
      | (s, .ok _) => s.kernel ctx q (index + 1) cores

end Survey

-- The state under the pointer, in the given phase of the propagation.
def propagating (a : Automaton) (phase : Phase) : Except Error Node := do
  a.expectAlgorithm .lalrByPropagation
  a.expectPhase phase
  a.node ⟨a.pointer⟩

def advancePointer (a : Automaton) (next : Phase) : Automaton :=
  { a with
    pointer := a.pointer + 1
    phase := if a.nodes.size ≤ a.pointer + 1 then next else a.phase }

def spontaneousStep (ctx : Context) (a : Automaton) : Automaton × Except Error SpontaneousStep :=
  match a.propagating .spontaneous with
  | .error e => (a, .error e)
  | .ok node =>
    let q : StateId := ⟨a.pointer⟩
    match Survey.kernel ctx q ⟨a, [], []⟩ 0 (node.items.kernel.map (·.core)) with
    | (s, .error e) => (s.automaton, .error e)
    | (s, .ok _) =>
      (s.automaton.advancePointer .propagate, .ok ⟨q, s.generated.reverse, s.links.reverse⟩)

def kernelLookaheads (a : Automaton) (r : KernelRef) : TerminalSet :=
  match a.nodes[r.state.number]?.bind (·.items.kernel[r.index]?) with
  | some i => i.lookaheadSet
  | none => ∅

-- Passes lookaheads on to each target, and tells which targets grew.
def passOn (lookaheads : TerminalSet) (a : Automaton) : List KernelRef → Automaton × List KernelRef
  | [] => (a, [])
  | target :: targets =>
    if lookaheads ⊆ a.kernelLookaheads target then
      passOn lookaheads a targets
    else
      let a := a.modifyItems target.state (·.addLookaheads target.index lookaheads)
      let (a, grown) := passOn lookaheads a targets
      (a, target :: grown)

def passAllOn (a : Automaton) : List (KernelRef × List KernelRef) → Automaton × List KernelRef
  | [] => (a, [])
  | (source, targets) :: rest =>
    let (a, grown₁) := passOn (a.kernelLookaheads source) a targets
    let (a, grown₂) := passAllOn a rest
    (a, grown₁ ++ grown₂)

def propagationPass (a : Automaton) : Except Error (Automaton × PropagationPass) := do
  a.expectAlgorithm .lalrByPropagation
  a.expectPhase .propagate
  let (a, grown) := passAllOn { a with passes := a.passes + 1 } a.effectsInOrder
  let a := if grown = [] then { a with pointer := 0, phase := .reclose } else a
  return (a, ⟨a.passes, grown⟩)

def recloseStep (ctx : Context) (a : Automaton) : Except Error (Automaton × RecloseStep) := do
  let node ← a.propagating .reclose
  let q : StateId := ⟨a.pointer⟩
  let (items, steps) := (node.items.reset ctx.grammar).computeClosure ctx .lr1
  let steps ← steps.mapError .construction
  let (items, merged) := items.mergeLookaheads
  let a := a.modifyItems q fun _ => items
  return (a.advancePointer .done, ⟨q, steps.length, merged⟩)

end Automaton
end ShiftReduce
