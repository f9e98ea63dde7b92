import Mathlib.Data.List.Induction
import ShiftReduce.Proofs.Workbench.Stages

namespace ShiftReduce
namespace Workbench

-- What can be called on a workbench.
inductive Call
  | stepAutomaton
  | buildAutomaton
  | buildTable
  | loadTokens (tokens : List Token)
  | stepParse
  | resetParse
  | parse (fuel : Nat) (tokens : List Token)

-- The workbench after a call, and whether the call has failed.
def perform (w : Workbench) : Call → Workbench × Except Error Unit
  | .stepAutomaton     => w.stepAutomaton.map id (·.map fun _ => ())
  | .buildAutomaton    => w.buildAutomaton.map id (·.map fun _ => ())
  | .buildTable        => w.buildTable.map id (·.map fun _ => ())
  | .loadTokens tokens => w.loadTokens tokens
  | .stepParse         => w.stepParse.map id (·.map fun _ => ())
  | .resetParse        => (w.resetParse, .ok ())
  | .parse fuel tokens => (w.parse fuel tokens).map id (·.map fun _ => ())

-- Steps the parser until it accepts or fails, at most `fuel` times. Nothing if that was not enough.
def stepParseFor (fuel : Nat) (w : Workbench) : Workbench × Except Error (Option ParseTree) :=
  match fuel with
  | 0 => (w, .ok none)
  | fuel + 1 =>
    match w.stepParse with
    | (w, .error e)    => (w, .error e)
    | (w, .ok .accept) => (w, .ok (w.parser?.bind (·.tree?)))
    | (w, .ok _)       => stepParseFor fuel w

end Workbench

open Workbench Automaton

variable {ctx : Context} {settings : Settings} {alg : Algorithm} {a b : Automaton} {t : ParseTable}
  {w : Workbench} {p : Parser} {tokens : List Token} {fuel : Nat} {e : SequencingError} {c : Call}

theorem eq_error_of_map {α β : Type} {r : Except Error α} {f : α → β} {e : Error}
    (h : r.map f = .error e) : r = .error e := by
  cases r <;> simp_all [Except.map]

theorem Workbench.buildTable_of_error {e : Error} (he : w.buildTable.2 = .error e) :
    w.buildTable.1 = w := by
  rw [Workbench.buildTable] at he ⊢
  split
  case h_1     => rfl
  case h_2 hok => simp [hok] at he

theorem Workbench.loadTokens_of_error {e : Error} (he : (w.loadTokens tokens).2 = .error e) :
    (w.loadTokens tokens).1 = w := by
  rw [Workbench.loadTokens] at he ⊢
  split
  case h_1 | h_2 => rfl
  case h_3 hp ht => simp [hp, ht] at he

namespace Staged

theorem perform (h : Staged ctx settings b t w) (hf : Finished ctx alg b t) :
    Staged ctx settings b t (w.perform c).1 := by
  cases c
  case stepAutomaton =>
    obtain ⟨_, _, hstaged⟩ := h.stepAutomaton hf
    exact hstaged
  case buildAutomaton =>
    obtain ⟨_, hbuild⟩ := h.buildAutomaton_eq hf
    rw [Workbench.perform, hbuild]
    exact h.setComplete
  case buildTable   => exact h.buildTable hf
  case loadTokens   => exact h.loadTokens
  case stepParse    => exact h.stepParse
  case resetParse   => exact h.resetParse
  case parse        => exact h.parse hf

theorem foldl_perform (hf : Finished ctx alg b t) (h : Staged ctx settings b t w)
    (calls : List Call) : Staged ctx settings b t (calls.foldl (fun w c => (w.perform c).1) w) := by
  induction calls generalizing w
  case nil             => exact h
  case cons _ calls hi => exact hi <| h.perform hf

-- A parser that is out of sequence has nothing to act on.
theorem stepParse_of_sequencing (h : Staged ctx settings b t w)
    (he : w.stepParse.2 = .error (.sequencing e)) : w.stepParse.1 = w := by
  cases hp : w.parser?
  case none =>
    rw [Workbench.stepParse, hp]
    cases w.table? <;> rfl
  case some p =>
    rw [Workbench.stepParse_eq (h.parser p hp).right hp] at he ⊢
    have hsame : p.step.1 = p := Parser.step_of_not_meets <| Parser.not_meets_of_sequencing he
    rw [hsame, ← hp]

-- The construction never fails, and a parse has all that it needs.
theorem perform_of_sequencing (h : Staged ctx settings b t w) (hf : Finished ctx alg b t)
    (he : (w.perform c).2 = .error (.sequencing e)) : (w.perform c).1 = w := by
  cases c
  case stepAutomaton =>
    obtain ⟨s, hs, _⟩ := h.stepAutomaton hf
    have he : w.stepAutomaton.2 = .error _ := eq_error_of_map he
    rw [hs] at he
    contradiction
  case buildAutomaton =>
    obtain ⟨n, hbuild⟩ := h.buildAutomaton_eq hf
    have he : w.buildAutomaton.2 = .error _ := eq_error_of_map he
    rw [hbuild] at he
    contradiction
  case buildTable => exact buildTable_of_error <| eq_error_of_map he
  case loadTokens => exact loadTokens_of_error he
  case stepParse  => exact h.stepParse_of_sequencing <| eq_error_of_map he
  case resetParse => contradiction
  case parse fuel tokens =>
    have he : (w.parse fuel tokens).2 = .error _ := eq_error_of_map he
    rw [h.parse_eq hf] at he
    exact absurd he hf.runFor_ne_sequencing

theorem iterate_stepAutomaton {m : Nat} (h : Staged ctx settings b t w)
    (hf : Finished ctx alg b t) :
    Staged ctx settings b t ((fun w => w.stepAutomaton.1)^[m] w) := by
  induction m generalizing w
  case zero => exact h
  case succ m hi =>
    obtain ⟨_, _, hstaged⟩ := h.stepAutomaton hf
    exact hi hstaged

theorem iterate_stepAutomaton_eq {m : Nat} (h : w.context = ctx) :
    (fun w => w.stepAutomaton.1)^[m] w =
      { w with automaton := (fun a => (a.step ctx).1)^[m] w.automaton } := by
  induction m generalizing w
  case zero => rfl
  case succ m hi =>
    subst h
    exact hi rfl

-- To step a parser to its end is to run it.
theorem stepParseFor_eq (hf : Finished ctx alg b t) (ht : w.table? = some t)
    (hs : Parser.Sound ctx.grammar b t (.ofTokens tokens) p) (hp : p.status = .running) :
    ({ w with parser? := some p } : Workbench).stepParseFor fuel =
      ({ w with parser? := some (p.runFor fuel).1 }, (p.runFor fuel).2) := by
  induction fuel generalizing p
  case zero => simp [stepParseFor, Parser.runFor, hp]
  case succ fuel hi =>
    have hsound := hs.step hf.grammar hf.coherent hf.isTableOf
    have hstep := Workbench.stepParse_eq (w := { w with parser? := some p }) (p := p) ht rfl
    rw [stepParseFor, hstep, Parser.runFor, if_pos hp]
    generalize hr : p.step = stepped at hsound
    obtain ⟨p', result⟩ := stepped
    cases result
    case error => rfl
    case ok s =>
      have hstatus := Parser.status_of_step hr
      cases s
      case shift | reduce => exact hi hsound hstatus
      case accept =>
        obtain ⟨tree, htree, _⟩ := hsound.exists_tree? hstatus
        have hrun : p'.runFor fuel = (p', .ok (some tree)) :=
          Parser.runFor_of_tree? (by simp [hstatus]) htree
        simp [hrun, htree]

end Staged

-- After any calls a parser runs on the table at hand, and a table is that of the complete
-- automaton. A call that is out of sequence changes nothing. A parse gives what it gives at first,
-- and so do the stages one by one: the construction step by step, the table, the tokens, and the
-- steps of the parser.
theorem parsing_forgets_history {g : Grammar} (h : g.IsDefined) (settings : Settings)
    (calls : List Call) :
    let fresh := Workbench.ofGrammar g settings
    let w := calls.foldl (fun w c => (w.perform c).1) fresh
    (∀ p, w.parser? = some p → w.table? = some p.table) ∧
    (∀ t, w.table? = some t → w.automaton.IsDone ∧ ParseTable.build w.automaton w.context = .ok t) ∧
    (∀ c e, (w.perform c).2 = .error (.sequencing e) → (w.perform c).1 = w) ∧
    (∀ fuel tokens, w.parse fuel tokens = fresh.parse fuel tokens) ∧
    (∃ m, ((fun w => w.stepAutomaton.1)^[m] w).automaton.IsDone) ∧
    ∀ m tokens, let stepped := (fun w => w.stepAutomaton.1)^[m] w
      stepped.automaton.IsDone → ∃ t loaded, stepped.buildTable.2 = .ok t ∧
        stepped.buildTable.1.loadTokens tokens = (loaded, .ok ()) ∧
        ∀ fuel, loaded.stepParseFor fuel = fresh.parse fuel tokens := by
  intro fresh w
  obtain ⟨b, t, hf, hfresh⟩ := exists_staged h.wellFormed settings
  have hw : Staged (.ofGrammar g) settings b t w := hfresh.foldl_perform hf calls
  refine ⟨fun p hp => ?_, fun u hu => ?_, fun c e => hw.perform_of_sequencing hf,
    fun fuel tokens => (hw.parse_eq hf).trans (hfresh.parse_eq hf).symm, ?_, ?_⟩
  · obtain ⟨htable, ht⟩ := hw.parser p hp
    rw [htable, ht]
  · obtain ⟨rfl, hb⟩ := hw.table u hu
    rw [hb, hw.context]
    exact ⟨hf.isDone, hf.build⟩
  · obtain ⟨n, hreaches, _⟩ := hw.automaton
    refine ⟨n, ?_⟩
    rw [Staged.iterate_stepAutomaton_eq hw.context, hreaches.iterate]
    exact hf.isDone
  · intro m tokens stepped hdone
    have hstepped : Staged (.ofGrammar g) settings b t stepped := hw.iterate_stepAutomaton hf
    rw [hstepped.buildTable_eq hf hdone]
    refine ⟨t, _, rfl, rfl, fun fuel => ?_⟩
    rw [hfresh.parse_eq hf, Staged.stepParseFor_eq hf rfl .init rfl, hstepped.context,
      hstepped.settings, hstepped.eq_of_isDone hdone]

theorem parsing_forgets_history_on_repetition : Grammar.repetition.IsDefined ∧
    let fresh := Workbench.ofGrammar .repetition {}
    let calls : List Call := [.stepAutomaton, .buildTable, .parse 2 [], .stepParse, .loadTokens []]
    let w := calls.foldl (fun w c => (w.perform c).1) fresh
    (∀ c e, (w.perform c).2 = .error (.sequencing e) → (w.perform c).1 = w) ∧
      ∀ fuel tokens, w.parse fuel tokens = fresh.parse fuel tokens := by
  obtain ⟨_, _, hsame, hparse, _⟩ := parsing_forgets_history Grammar.repetition_isDefined {}
    [.stepAutomaton, .buildTable, .parse 2 [], .stepParse, .loadTokens []]
  exact ⟨Grammar.repetition_isDefined, hsame, hparse⟩

end ShiftReduce
