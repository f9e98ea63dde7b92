import ShiftReduce.Proofs.Construction.Phases

namespace ShiftReduce
namespace Automaton

-- What can be called on an automaton under construction.
inductive Operation
  | step
  | gotoStep
  | mergeStep
  | retarget
  | spontaneousStep
  | propagationPass
  | recloseStep
deriving DecidableEq

namespace Operation

-- The phase that an operation belongs to. A plain step belongs to every phase.
def phase? : Operation → Option Phase
  | step            => none
  | gotoStep        => some .goto
  | mergeStep       => some .mergeStates
  | retarget        => some .retarget
  | spontaneousStep => some .spontaneous
  | propagationPass => some .propagate
  | recloseStep     => some .reclose

def Suits (op : Operation) (a : Automaton) : Prop :=
  ∀ p, op.phase? = some p → a.phase = p

end Operation

-- The automaton after a call, and what the call returns.
def perform (ctx : Context) (a : Automaton) :
    Operation → Automaton × Except Error (Option ConstructionStep)
  | .step            => (a.step ctx).map id (·.map some)
  | .gotoStep        => a.attempt ((a.gotoStep ctx).map (·.map id (some <| .goto ·)))
  | .mergeStep       => a.attempt (a.mergeStep.map (·.map id (·.map .mergeStates)))
  | .retarget        => a.attempt (a.retarget.map (·.map id (some <| .retarget ·)))
  | .spontaneousStep => (a.spontaneousStep ctx).map id (·.map (some <| .spontaneous ·))
  | .propagationPass => a.attempt (a.propagationPass.map (·.map id (some <| .propagate ·)))
  | .recloseStep     => a.attempt ((a.recloseStep ctx).map (·.map id (some <| .reclose ·)))

variable {ctx : Context} {a : Automaton} {op : Operation}

section Guards

variable {phase : Phase} {α : Type}

theorem expectPhase_eq (h : a.phase ≠ phase) :
    a.expectPhase phase = .error (.sequencing (.phaseMismatch phase a.phase)) :=
  if_neg h

-- Both guards come first, so that nothing else of the operation matters.
theorem exists_refusal (h : a.phase ≠ phase) (alg : Algorithm) (f : Unit → Except Error α) :
    ∃ e, (a.expectAlgorithm alg >>= fun _ => a.expectPhase phase >>= f) =
      .error (.sequencing e) := by
  by_cases halg : a.algorithm = alg
  case pos => exact ⟨_, by rw [expectAlgorithm, if_pos halg, expectPhase_eq h]; rfl⟩
  case neg => exact ⟨_, by rw [expectAlgorithm, if_neg halg]; rfl⟩

theorem perform_of_not_suits (ctx : Context) (h : ¬ op.Suits a) :
    ∃ e, a.perform ctx op = (a, .error (.sequencing e)) := by
  simp only [Operation.Suits, not_forall, exists_prop] at h
  obtain ⟨phase, hop, hp⟩ := h
  cases op <;> cases hop
  case gotoStep =>
    exact ⟨_, by rw [perform, gotoStep, expectPhase_eq hp]; rfl⟩
  case mergeStep =>
    obtain ⟨e, he⟩ := exists_refusal hp .lalrByMerging _
    exact ⟨e, by rw [perform, mergeStep, he]; rfl⟩
  case retarget =>
    obtain ⟨e, he⟩ := exists_refusal hp .lalrByMerging _
    exact ⟨e, by rw [perform, Automaton.retarget, he]; rfl⟩
  case spontaneousStep =>
    obtain ⟨e, he⟩ := exists_refusal hp .lalrByPropagation _
    exact ⟨e, by rw [perform, spontaneousStep, propagating, he]; rfl⟩
  case propagationPass =>
    obtain ⟨e, he⟩ := exists_refusal hp .lalrByPropagation _
    exact ⟨e, by rw [perform, propagationPass, he]; rfl⟩
  case recloseStep =>
    obtain ⟨e, he⟩ := exists_refusal hp .lalrByPropagation _
    exact ⟨e, by rw [perform, recloseStep, propagating, he]; rfl⟩

end Guards

-- The states to merge are looked for anew, although the phase is only entered with some at hand.
theorem mergeStep_ne_none (h : a.phase = .mergeStates → a.mergeable?.isSome) (b : Automaton) :
    a.mergeStep ≠ .ok (b, none) := by
  intro hm
  by_cases hp : a.phase = .mergeStates
  case pos =>
    obtain ⟨⟨q, r⟩, hpair⟩ := Option.isSome_iff_exists.mp (h hp)
    rw [mergeStep, hpair] at hm
    simp only [bind, Except.bind, pure, Except.pure] at hm
    repeat' split at hm
    all_goals simp at hm
  case neg =>
    obtain ⟨e, he⟩ := exists_refusal hp .lalrByMerging _
    rw [mergeStep, he] at hm
    cases hm

theorem perform_of_suits (h : op.Suits a) (hm : a.phase = .mergeStates → a.mergeable?.isSome) :
    a.perform ctx op = (a.step ctx).map id (·.map some) := by
  cases op
  case step => rfl
  case gotoStep =>
    rw [perform, Automaton.step, h _ rfl]
    cases a.gotoStep ctx <;> rfl
  case mergeStep =>
    rw [perform, Automaton.step, h _ rfl]
    simp only [mergeStatesStep]
    cases hs : a.mergeStep
    case error => rfl
    case ok merged =>
      obtain ⟨b, done⟩ := merged
      cases done
      case none => exact absurd hs <| mergeStep_ne_none hm b
      case some => rfl
  case retarget =>
    rw [perform, Automaton.step, h _ rfl]
    cases a.retarget <;> rfl
  case spontaneousStep =>
    rw [perform, Automaton.step, h _ rfl]
    obtain ⟨_, result⟩ := a.spontaneousStep ctx
    cases result <;> rfl
  case propagationPass =>
    rw [perform, Automaton.step, h _ rfl]
    cases a.propagationPass <;> rfl
  case recloseStep =>
    rw [perform, Automaton.step, h _ rfl]
    cases a.recloseStep ctx <;> rfl

-- A call either takes the next step or leaves the automaton alone.
theorem perform_eq_or_eq (ctx : Context) (op : Operation)
    (h : a.phase = .mergeStates → a.mergeable?.isSome) :
    (a.perform ctx op).1 = (a.step ctx).1 ∨ (a.perform ctx op).1 = a := by
  by_cases hop : op.Suits a
  case pos => exact .inl <| by rw [perform_of_suits hop h]; rfl
  case neg =>
    obtain ⟨e, he⟩ := perform_of_not_suits ctx hop
    exact .inr <| by rw [he]

theorem exists_iterate_foldl_perform (hg : ctx.grammar.WellFormed) (alg : Algorithm)
    (ops : List Operation) :
    ∃ k, ops.foldl (fun a op => (a.perform ctx op).1) (initial ctx alg) =
      (fun a => (a.step ctx).1)^[k] (initial ctx alg) := by
  induction ops using List.reverseRecOn
  case nil => exact ⟨0, rfl⟩
  case append_singleton ops op hi =>
    obtain ⟨k, hk⟩ := hi
    rw [List.foldl_append, List.foldl_cons, List.foldl_nil, hk]
    cases perform_eq_or_eq ctx op (Underway.iterate (k := k) hg).isSome_mergeable?
    case inl hstep => exact ⟨k + 1, by rw [hstep, Function.iterate_succ_apply']⟩
    case inr hsame => exact ⟨k, hsame⟩

end Automaton

variable {ctx : Context}

open Automaton

-- Whatever has been called, the automaton is one that plain stepping goes through. A call that does
-- not suit its phase is refused and changes nothing, any other succeeds and takes the next step. A
-- run still ends with the automaton that is built at once.
theorem operations_in_any_order (h : ctx.grammar.IsDefined) (alg : Algorithm)
    (ops : List Operation) :
    let a := ops.foldl (fun a op => (a.perform ctx op).1) (initial ctx alg)
    (∃ k, a = (fun a => (a.step ctx).1)^[k] (initial ctx alg)) ∧
    (∀ op : Operation, ¬ op.Suits a → ∃ e, a.perform ctx op = (a, .error (.sequencing e))) ∧
    (∀ op : Operation, op.Suits a → ∃ b s,
      a.step ctx = (b, .ok s) ∧ a.perform ctx op = (b, .ok (some s))) ∧
    (∀ b, a.mergeStep ≠ .ok (b, none)) ∧
    ∃ b n, build ctx alg = .ok b ∧ a.run ctx = (b, .ok n) ∧ b.IsDone := by
  have hg := h.wellFormed
  intro a
  obtain ⟨k, hk⟩ := exists_iterate_foldl_perform hg alg ops
  have hk : a = (fun a => (a.step ctx).1)^[k] (initial ctx alg) := hk
  have hunderway : Underway ctx alg a := hk ▸ Underway.iterate hg
  have hmergeable := hunderway.isSome_mergeable?
  refine ⟨⟨k, hk⟩, fun op hop => perform_of_not_suits ctx hop, fun op hop => ?_,
    mergeStep_ne_none hmergeable, ?_⟩
  · obtain ⟨b, s, hstep, _⟩ := hunderway.step hg
    exact ⟨b, s, hstep, by rw [perform_of_suits hop hmergeable, hstep]; rfl⟩
  · obtain ⟨b, n, hreaches, _, hdone, hn⟩ := exists_reaches_within hg alg
    have hrest := hreaches.drop (k := k) hdone
    rw [← hk] at hrest
    exact ⟨b, n - k, hreaches.build hdone (hn _),
      hrest.run hdone <| (Nat.sub_le n k).trans_lt (hn a), hdone⟩

theorem operations_in_any_order_on_repetition : Grammar.repetition.IsDefined ∧
    let ctx : Context := .ofGrammar .repetition
    let ops : List Operation := [.gotoStep, .step, .mergeStep, .step, .recloseStep, .retarget]
    let a := ops.foldl (fun a op => (a.perform ctx op).1) (initial ctx .lalrByMerging)
    ∃ b n, build ctx .lalrByMerging = .ok b ∧ a.run ctx = (b, .ok n) ∧ b.IsDone :=
  ⟨Grammar.repetition_isDefined, (@operations_in_any_order (.ofGrammar .repetition)
    Grammar.repetition_isDefined .lalrByMerging
    [.gotoStep, .step, .mergeStep, .step, .recloseStep, .retarget]).right.right.right.right⟩

end ShiftReduce
