import ShiftReduce.Proofs.Lalr.Agreement
import ShiftReduce.Proofs.Lalr.Refinement

namespace ShiftReduce

open Automaton

variable {ctx : Context} {a b c : Automaton}

theorem Collected.matchesCores_lr0 (hg : ctx.grammar.WellFormed) (ha : Collected ctx .lr1 a)
    (hb : Collected ctx .lr0 b) (hc : Merged ctx c) : MatchesCores (project ctx) a b := by
  have hmatch := (matchesCores_leader hg ha hc).comp (matchesCores_project hg hc hb)
  refine hmatch.congr fun q hq => ?_
  exact project_leader <| (ha.unites hg).mem_liveStates_iff.mp hq

theorem Propagated.stateCount_eq (ha : Propagated ctx a) (hb : Collected ctx .lr0 b) :
    a.stateCount = b.stateCount := by
  have hlive : a.liveStates = b.liveStates := by
    ext q
    refine ha.live_iff.trans ⟨hb.mem_liveStates, fun hq => ?_⟩
    obtain ⟨n, hn⟩ := mem_liveStates.mp hq
    exact (hb.kernel_eq hn).left
  refine Nat.le_antisymm (stateCount_le_of_onto (μ := id) ?_) (stateCount_le_of_onto (μ := id) ?_)
  · exact fun q hq => ⟨q, hlive ▸ hq, rfl⟩
  · exact fun q hq => ⟨q, hlive ▸ hq, rfl⟩

theorem Merged.stateCount_eq (hg : ctx.grammar.WellFormed) (ha : Propagated ctx a)
    (hb : Merged ctx b) : b.stateCount = a.stateCount := by
  simpa [stateCount] using (congrArg List.length <| map_project_states hg ha hb).symm

-- Without their lookaheads, the states of the LR(1) automaton are those of the LR(0) automaton, and
-- so are their transitions.
theorem lr1_projects_onto_lr0 (h : ctx.grammar.IsDefined) :
    ∃ a b c d μ, Automaton.build ctx .lr1 = .ok a ∧ Automaton.build ctx .lr0 = .ok b ∧
      Automaton.build ctx .lalrByPropagation = .ok c ∧ Automaton.build ctx .lalrByMerging = .ok d ∧
      MatchesCores μ a b ∧ μ .start = .start ∧
      (∀ q ∈ a.liveStates, ∀ x, b.transition? (μ q) x = (a.transition? q x).map μ) ∧
      b.stateCount ≤ a.stateCount ∧ c.stateCount = b.stateCount ∧ d.stateCount = b.stateCount := by
  have hg := h.wellFormed
  obtain ⟨a, hbuild, ha, _⟩ := exists_build hg .lr1
  obtain ⟨b, hbuild', hb, _⟩ := exists_build hg .lr0
  obtain ⟨c, hbuild'', hc, _⟩ := exists_build hg .lalrByPropagation
  obtain ⟨d, hbuild''', hd, _⟩ := exists_build hg .lalrByMerging
  have ha : Collected ctx .lr1 a := ha.left
  have hb : Collected ctx .lr0 b := hb.left
  have hc : Propagated ctx c := hc
  have hd : Merged ctx d := hd
  have hmatch := ha.matchesCores_lr0 hg hb hd
  have hcount := hc.stateCount_eq hb
  exact ⟨a, b, c, d, project ctx, hbuild, hbuild', hbuild'', hbuild''', hmatch, project_start hg,
    fun q hq x => hb.transition?_map_project hg (ha.unites hg) hq, hmatch.stateCount_le, hcount,
    (hd.stateCount_eq hg hc).trans hcount⟩

-- Three of the LR(1) states are projected onto states that others are projected onto as well.
theorem lr1_projects_onto_lr0_on_nesting : Grammar.nesting.IsDefined ∧
    ∃ a b c d μ, Automaton.build (.ofGrammar .nesting) .lr1 = .ok a ∧
      Automaton.build (.ofGrammar .nesting) .lr0 = .ok b ∧
      Automaton.build (.ofGrammar .nesting) .lalrByPropagation = .ok c ∧
      Automaton.build (.ofGrammar .nesting) .lalrByMerging = .ok d ∧
      MatchesCores μ a b ∧ μ ⟨5⟩ = ⟨4⟩ ∧ μ ⟨7⟩ = ⟨4⟩ ∧
      a.stateCount = 8 ∧ b.stateCount = 5 ∧ c.stateCount = 5 ∧ d.stateCount = 5 := by
  have h := Grammar.nesting_isDefined
  obtain ⟨a, b, c, d, μ, ha, hb, hc, hd, hmatch, _, _, _, hcount, hcount'⟩ :=
    @lr1_projects_onto_lr0 (.ofGrammar .nesting) h
  obtain ⟨houter, hinner⟩ := kernelCores_nesting ha
  have hcores : b.kernelCores ⟨4⟩ = {⟨⟨1⟩, 3⟩} :=
    eq_of_build (·.kernelCores ⟨4⟩) (by decide +kernel) hb
  have hfive : b.stateCount = 5 := eq_of_build (·.stateCount) (by decide +kernel) hb
  exact ⟨h, a, b, c, d, μ, ha, hb, hc, hd, hmatch,
    hmatch.apply_eq (by simp [houter]) (hcores.trans houter.symm),
    hmatch.apply_eq (by simp [hinner]) (hcores.trans hinner.symm),
    eq_of_build (·.stateCount) (by decide +kernel) ha, hfive, hcount.trans hfive,
    hcount'.trans hfive⟩

end ShiftReduce
