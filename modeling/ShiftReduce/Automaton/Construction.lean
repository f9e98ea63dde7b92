import ShiftReduce.Automaton.Canonical
import ShiftReduce.Round

namespace ShiftReduce

inductive ConstructionStep
  | closure (state : StateId) (step : ClosureStep)
  | mergeLookaheads (state : StateId) (removed : Nat)
  | goto (step : GotoStep)
  | mergeStates (step : MergeStep)
  | retarget (step : RetargetStep)
  | spontaneous (step : SpontaneousStep)
  | propagate (pass : PropagationPass)
  | reclose (step : RecloseStep)
  -- The construction was complete, nothing changed.
  | finished
deriving DecidableEq

namespace Automaton

-- Powers and sums are those of the core library, whatever else is imported.
attribute [local instance (high)] instPowNat Zero.ofOfNat0

def closureStep (ctx : Context) (a : Automaton) : Except Error (Automaton × ConstructionStep) := do
  let q : StateId := ⟨a.pointer⟩
  let kind := a.algorithm.itemKind
  let node ← a.node q
  let (items, step) ← (node.items.closureStep ctx kind).mapError .construction
  let a := a.modifyItems q fun _ => items
  let next : Phase := if kind = .lr0 then .goto else .mergeLookaheads
  return ({ a with phase := if items.closed then next else a.phase }, .closure q step)

def mergeLookaheadsStep (a : Automaton) : Except Error (Automaton × ConstructionStep) := do
  let q : StateId := ⟨a.pointer⟩
  let node ← a.node q
  let (items, removed) := node.items.mergeLookaheads
  let a := a.modifyItems q fun _ => items
  return ({ a with phase := .goto }, .mergeLookaheads q removed)

-- A merge, or the retargeting of the transitions if there is nothing left to merge.
def mergeStatesStep (a : Automaton) : Except Error (Automaton × ConstructionStep) := do
  match ← a.mergeStep with
  | (a, some step) => return (a, .mergeStates step)
  | (a, none) => return (← a.retarget).map id .retarget

-- What the automaton is after an operation that fails as a whole.
def attempt (a : Automaton) {α : Type} :
    Except Error (Automaton × α) → Automaton × Except Error α
  | .ok (a', x) => (a', .ok x)
  | .error e => (a, .error e)

def step (ctx : Context) (a : Automaton) : Automaton × Except Error ConstructionStep :=
  match a.phase with
  | .closure => a.attempt (a.closureStep ctx)
  | .mergeLookaheads => a.attempt a.mergeLookaheadsStep
  | .goto => a.attempt ((a.gotoStep ctx).map (·.map id .goto))
  | .mergeStates => a.attempt a.mergeStatesStep
  | .retarget => a.attempt (a.retarget.map (·.map id .retarget))
  | .spontaneous => (a.spontaneousStep ctx).map id (·.map .spontaneous)
  | .propagate => a.attempt (a.propagationPass.map (·.map id .propagate))
  | .reclose => a.attempt ((a.recloseStep ctx).map (·.map id .reclose))
  | .done => (a, .ok .finished)

-- Takes steps, at most `fuel` of them, until the construction is complete, and counts them.
def runFor (ctx : Context) (fuel : Nat) (a : Automaton) : Automaton × Except Error Nat :=
  match fuel with
  | 0 => (a, .ok 0)
  | fuel + 1 =>
    if a.IsDone then
      (a, .ok 0)
    else
      match a.step ctx with
      | (a, .error e) => (a, .error e)
      | (a, .ok _) =>
        let (a, steps) := runFor ctx fuel a
        (a, steps.map (· + 1))

-- One step of a run, together with the number of the steps before it.
def round (ctx : Context) :
    Automaton × Nat → Round (Automaton × Nat) (Automaton × Except Error Nat)
  | (a, steps) =>
    if a.IsDone then
      .ended (a, .ok steps)
    else
      match a.step ctx with
      | (a, .error e) => .ended (a, .error e)
      | (a, .ok _) => .next (a, steps + 1)

-- A construction takes fewer than `2 ^ a.stepBits ctx` steps. A kernel has every core at most once,
-- with some set of lookaheads; this bounds the number of states, and the rest of the work is small
-- beside it.
def stepBits (ctx : Context) (a : Automaton) : Nat :=
  let cores := (ctx.grammar.rules.toList.map (·.right.length + 1)).sum +
    (a.nodes.toList.map (·.items.closure.length)).sum
  (ctx.grammar.vocabulary.terminals.size + 4) * (cores + 4)

-- What a run has come to, when the rounds that it may last are over.
def runResult :
    Round (Automaton × Nat) (Automaton × Except Error Nat) → Automaton × Except Error Nat
  | .next (a, steps) => (a, .ok steps)
  | .ended result => result

-- Completes the construction, and counts the steps that this took.
def run (ctx : Context) (a : Automaton) : Automaton × Except Error Nat :=
  runResult (Round.doubling (round ctx) (a.stepBits ctx) (a, 0))

theorem runResult_times_round {ctx : Context} {a : Automaton} {fuel steps : Nat} :
    runResult (Round.times (round ctx) fuel (a, steps)) =
      (a.runFor ctx fuel).map id (·.map (· + steps)) := by
  induction fuel generalizing a steps
  case zero => simp [Round.times, runResult, runFor, Except.map]
  case succ fuel hi =>
    rw [Round.times, round, runFor]
    by_cases hdone : a.IsDone
    case pos => simp [hdone, runResult, Except.map]
    case neg =>
      obtain ⟨b, result⟩ := a.step ctx
      cases result
      case error => simp [hdone, runResult, Except.map]
      case ok =>
        simp only [hdone, if_false, hi]
        obtain ⟨_, result⟩ := runFor ctx fuel b
        cases result
        case error => rfl
        case ok    => simp [Except.map, Nat.add_assoc, Nat.add_comm steps]

theorem run_eq_runFor {ctx : Context} {a : Automaton} :
    a.run ctx = a.runFor ctx (2 ^ a.stepBits ctx - 1) := by
  rw [run, Round.doubling_eq_times, runResult_times_round]
  obtain ⟨_, result⟩ := a.runFor ctx _
  cases result <;> rfl

def build (ctx : Context) (algorithm : Algorithm) : Except Error Automaton :=
  match (initial ctx algorithm).run ctx with
  | (a, .ok _) => .ok a
  | (_, .error e) => .error e

end Automaton
end ShiftReduce
