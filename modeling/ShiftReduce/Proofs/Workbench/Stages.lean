import ShiftReduce.Proofs.Construction.Outcome
import ShiftReduce.Proofs.Parser.Runs
import ShiftReduce.Workbench

namespace ShiftReduce

open Automaton

-- The complete automaton of an algorithm, and its table.
structure Finished (ctx : Context) (alg : Algorithm) (b : Automaton) (t : ParseTable) : Prop where
  grammar : ctx.grammar.WellFormed
  outcome : IsOutcome ctx alg b
  build   : ParseTable.build b ctx = .ok t

-- An automaton on the way to the complete one, and a table and a parser only if it is complete.
structure Staged (ctx : Context) (settings : Settings) (b : Automaton) (t : ParseTable)
    (w : Workbench) : Prop where
  context   : w.context = ctx
  settings  : w.settings = settings
  automaton : ∃ n, Reaches ctx w.automaton n b ∧ ∀ c : Automaton, n < 2 ^ c.stepBits ctx
  table     : ∀ u, w.table? = some u → u = t ∧ w.automaton = b
  parser    : ∀ p, w.parser? = some p → p.table = t ∧ w.table? = some t

variable {ctx : Context} {settings : Settings} {alg : Algorithm} {a b : Automaton} {t : ParseTable}
  {w : Workbench} {p : Parser} {tokens : List Token} {fuel : Nat} {e : SequencingError}

namespace Finished

theorem isTableOf (h : Finished ctx alg b t) : IsTableOf ctx b t :=
  isTableOf_of_build h.build

theorem coherent (h : Finished ctx alg b t) : b.Coherent ctx :=
  h.outcome.coherent h.grammar

theorem isDone (h : Finished ctx alg b t) : b.IsDone :=
  h.outcome.isDone

theorem runFor_ne_sequencing (h : Finished ctx alg b t) :
    ((Parser.initial t (.ofTokens tokens)).runFor fuel).2 ≠ .error (.sequencing e) :=
  Parser.Sound.init.runFor_ne_sequencing h.grammar h.coherent h.isTableOf (by simp [Parser.initial])

end Finished

theorem exists_staged {g : Grammar} (hg : g.WellFormed) (settings : Settings) : ∃ b t,
    Finished (.ofGrammar g) settings.algorithm b t ∧
      Staged (.ofGrammar g) settings b t (.ofGrammar g settings) := by
  have hg : (Context.ofGrammar g).grammar.WellFormed := hg
  obtain ⟨b, n, hreaches, houtcome, hdone, hn⟩ := exists_reaches_within hg settings.algorithm
  obtain ⟨t, ht, _⟩ := exists_table (.ofGrammar g) hdone
  refine ⟨b, t, ⟨hg, houtcome, ht⟩, rfl, rfl, ⟨n, hreaches, hn⟩, ?_, ?_⟩
  all_goals simp [Workbench.ofGrammar]

theorem Workbench.stepParse_eq (ht : w.table? = some t) (hp : w.parser? = some p) :
    w.stepParse = ({ w with parser? := some p.step.1 }, p.step.2) := by
  rw [stepParse]
  simp only [ht, hp]

namespace Staged

theorem eq_of_isDone (h : Staged ctx settings b t w) (hdone : w.automaton.IsDone) :
    w.automaton = b := by
  obtain ⟨_, hreaches, _⟩ := h.automaton
  exact hreaches.eq_of_isDone hdone

-- The construction may go on at any time.
theorem setAutomaton (h : Staged ctx settings b t w)
    (ha : ∃ n, Reaches ctx a n b ∧ ∀ c : Automaton, n < 2 ^ c.stepBits ctx)
    (hb : w.automaton = b → a = b) : Staged ctx settings b t { w with automaton := a } where
  context    := h.context
  settings   := h.settings
  automaton  := ha
  table u hu := ⟨(h.table u hu).left, hb (h.table u hu).right⟩
  parser     := h.parser

theorem setComplete (h : Staged ctx settings b t w) :
    Staged ctx settings b t { w with automaton := b } :=
  h.setAutomaton ⟨0, .refl, fun _ => Nat.two_pow_pos _⟩ fun _ => rfl

theorem setParser (h : Staged ctx settings b t w) (hp : p.table = t) (ht : w.table? = some t) :
    Staged ctx settings b t { w with parser? := some p } where
  context   := h.context
  settings  := h.settings
  automaton := h.automaton
  table     := h.table
  parser    := by
    rintro _ ⟨⟩
    exact ⟨hp, ht⟩

theorem resetParse (h : Staged ctx settings b t w) : Staged ctx settings b t w.resetParse where
  context   := h.context
  settings  := h.settings
  automaton := h.automaton
  table     := h.table
  parser    := by simp [Workbench.resetParse]

theorem loadTokens (h : Staged ctx settings b t w) :
    Staged ctx settings b t (w.loadTokens tokens).1 := by
  rw [Workbench.loadTokens]
  split
  case h_1 | h_2 => exact h
  case h_3 u hp ht =>
    obtain ⟨rfl, _⟩ := h.table u ht
    exact h.setParser rfl ht

theorem stepParse (h : Staged ctx settings b t w) : Staged ctx settings b t w.stepParse.1 := by
  cases hp : w.parser?
  case none =>
    rw [Workbench.stepParse, hp]
    cases w.table? <;> exact h
  case some p =>
    obtain ⟨htable, ht⟩ := h.parser p hp
    obtain ⟨_, _, _, hframe⟩ := p.exists_step_eq
    rw [Workbench.stepParse_eq ht hp]
    exact h.setParser (by rw [hframe, ← htable]) ht

section Construction

variable (h : Staged ctx settings b t w) (hf : Finished ctx alg b t)

include h hf

theorem stepAutomaton : ∃ s, w.stepAutomaton.2 = .ok s ∧
    Staged ctx settings b t w.stepAutomaton.1 := by
  obtain ⟨n, hreaches, hn⟩ := h.automaton
  obtain ⟨s, hs⟩ := hreaches.exists_step hf.isDone
  have hstep : w.stepAutomaton =
      ({ w with automaton := (w.automaton.step ctx).1 }, (w.automaton.step ctx).2) := by
    rw [← h.context]
    rfl
  rw [hstep]
  refine ⟨s, hs, h.setAutomaton ⟨n - 1, ?_, fun c => (Nat.sub_le n 1).trans_lt (hn c)⟩ ?_⟩
  · exact hreaches.drop (k := 1) hf.isDone
  · intro heq
    rw [heq, step_of_isDone hf.isDone]

theorem buildAutomaton_eq : ∃ n, w.buildAutomaton = ({ w with automaton := b }, .ok n) := by
  obtain ⟨n, hreaches, hn⟩ := h.automaton
  refine ⟨n, ?_⟩
  rw [Workbench.buildAutomaton, h.context, hreaches.run hf.isDone (hn _)]

theorem buildTable_eq (hdone : w.automaton.IsDone) :
    w.buildTable = ({ w with table? := some t, parser? := none }, .ok t) := by
  rw [Workbench.buildTable, h.eq_of_isDone hdone, h.context, hf.build]

theorem buildTable : Staged ctx settings b t w.buildTable.1 := by
  by_cases hdone : w.automaton.IsDone
  case pos =>
    rw [h.buildTable_eq hf hdone]
    refine ⟨h.context, h.settings, h.automaton, ?_, by simp⟩
    rintro _ ⟨⟩
    exact ⟨rfl, h.eq_of_isDone hdone⟩
  case neg =>
    rw [Workbench.buildTable, ParseTable.build, if_neg hdone]
    exact h

-- What a parse leaves behind and what it returns have nothing to do with what was there before.
theorem parse_eq : w.parse fuel tokens =
    let r := (Parser.initial t (.ofTokens tokens)).runFor fuel
    (⟨ctx, settings, b, some t, some r.1⟩, r.2) := by
  have hautomaton : w.ensureAutomaton = ({ w with automaton := b }, .ok ()) := by
    rw [Workbench.ensureAutomaton]
    split
    case isTrue hdone => rw [← h.eq_of_isDone hdone]
    case isFalse =>
      obtain ⟨n, hbuild⟩ := h.buildAutomaton_eq hf
      rw [hbuild]
      rfl
  have hcomplete := h.setComplete
  obtain ⟨parser?, htable⟩ : ∃ parser?, ({ w with automaton := b } : Workbench).ensureTable =
      ({ w with automaton := b, table? := some t, parser? }, .ok ()) := by
    rw [Workbench.ensureTable]
    split
    case isTrue hsome =>
      obtain ⟨u, hu⟩ := Option.isSome_iff_exists.mp hsome
      obtain ⟨rfl, _⟩ := hcomplete.table u hu
      exact ⟨w.parser?, by rw [← hu]⟩
    case isFalse =>
      rw [hcomplete.buildTable_eq hf hf.isDone]
      exact ⟨none, rfl⟩
  have hcontext := h.context
  have hsettings := h.settings
  subst hcontext hsettings
  rw [Workbench.parse, hautomaton]
  simp only [Workbench.andThen, htable, Workbench.resetParse, Workbench.loadTokens,
    Workbench.runParse]

theorem parse : Staged ctx settings b t (w.parse fuel tokens).1 := by
  rw [h.parse_eq hf]
  refine ⟨rfl, rfl, ⟨0, .refl, fun _ => Nat.two_pow_pos _⟩, ?_, ?_⟩
  · rintro _ ⟨⟩
    exact ⟨rfl, rfl⟩
  · rintro _ ⟨⟩
    exact ⟨Parser.table_runFor, rfl⟩

end Construction
end Staged
end ShiftReduce
