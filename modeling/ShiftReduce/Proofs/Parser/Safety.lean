import ShiftReduce.Proofs.Derivation.Sentences
import ShiftReduce.Proofs.Derivation.ViablePrefixes
import ShiftReduce.Proofs.Parser.Soundness
import ShiftReduce.Proofs.Table.Ranking

namespace ShiftReduce

open Automaton Grammar

-- The kinds of the tokens before an index.
def TokenStream.kindsBefore (s : TokenStream) (index : Nat) : List String :=
  (s.tokens.toList.take index).map (·.kind)

variable {ctx : Context} {alg : Algorithm} {g : Grammar} {a : Automaton} {t : ParseTable}
  {tokens : TokenStream} {token : Token} {p : Parser} {stack : List Frame} {r : RuleId}

theorem Linked.exists_path (h : Linked g a stack) : ∃ γ, a.follow? γ = some (topOf stack) ∧
    DerivesAll g γ (stack.map (·.tree)).reverse := by
  induction h
  case nil => exact ⟨[], rfl, .nil⟩
  case push s _ htransition hd hi =>
    obtain ⟨γ, hγ, htrees⟩ := hi
    refine ⟨γ ++ [s], ?_, ?_⟩
    · rw [follow?_concat, hγ]
      exact htransition
    · rw [List.map_cons, List.reverse_cons]
      exact htrees.append <| .cons hd .nil

namespace Parser.Sound

-- The symbols of the trees on the stack are a path, and the shifted tokens derive from them.
theorem exists_path (h : Sound g a t tokens p) : ∃ γ w, a.follow? γ = some (topOf p.stack) ∧
    g.DerivesTo γ (word w) ∧ g.Spells (tokens.kindsBefore p.cursor) w := by
  obtain ⟨γ, hγ, htrees⟩ := h.linked.exists_path
  obtain ⟨w, hw, hspells⟩ := htrees.exists_derivesTo
  refine ⟨γ, w, hγ, hw, ?_⟩
  have hleaves : ParseTree.leavesOfAll (p.stack.map (·.tree)).reverse = _ := h.leaves
  rw [hleaves, List.map_map] at hspells
  exact hspells

theorem exists_sentence (h : Sound ctx.grammar a t tokens p) (hg : ctx.grammar.WellFormed)
    (hp : ctx.grammar.IsProductive) (hc : a.Coherent ctx) (hf : a.Foresees ctx) :
    ∃ w u, ctx.grammar.Spells (tokens.kindsBefore p.cursor) w ∧ ctx.grammar.IsSentence u ∧
      w <+: u := by
  obtain ⟨γ, w, hγ, hw, hspells⟩ := h.exists_path
  have hviable := (isSome_follow?_iff hg hp hc hf).mp <| Option.isSome_iff_exists.mpr ⟨_, hγ⟩
  obtain ⟨u, hu, hprefix⟩ := hviable.exists_isSentence hg hp hw
  exact ⟨w, u, hspells, hu, hprefix⟩

-- A reduction that is due succeeds.
theorem step_of_reduce (h : Sound ctx.grammar a t tokens p) (hg : ctx.grammar.WellFormed)
    (hc : a.Coherent ctx) (htable : IsTableOf ctx a t) (hp : p.Meets token)
    (ha : p.action? token = some (.reduce r)) : (ctx.grammar.right r).length ≤ p.stack.length ∧
    let k := (ctx.grammar.right r).length
    let exposed := topState t (p.stack.drop k)
    ∃ q tree, t.goto? exposed (ctx.grammar.left r) = some q ∧
      p.step.2 = .ok (.reduce r k exposed q tree) := by
  obtain ⟨x, _, haction⟩ := h.exists_of_action? htable ha
  obtain ⟨hle, q, tree, hq, hreduce, _⟩ := h.reduce hg hc htable hp.status haction
  refine ⟨hle, q, tree, ?_, ?_⟩
  · rw [topState_eq]
    exact htable.goto?_eq_of_transition? hc hq
  · rw [hp.step_eq, ha, topState_eq]
    exact congrArg Prod.snd hreduce

theorem step_ne_invariant (h : Sound ctx.grammar a t tokens p) (hg : ctx.grammar.WellFormed)
    (hc : a.Coherent ctx) (htable : IsTableOf ctx a t) (e : InvariantError) :
    p.step.2 ≠ .error (.invariant e) := by
  have hperforms := p.performs_step
  generalize p.step = result at hperforms
  cases hperforms
  case halted | exhausted | unexpected | shift | accept => simp
  case reduce hmeets ha =>
    obtain ⟨_, _, ha⟩ := h.exists_of_action? htable ha
    obtain ⟨_, _, _, _, hreduce, _⟩ := h.reduce hg hc htable hmeets.status ha
    simp [hreduce]
  case goto ha =>
    obtain ⟨_, _, ha⟩ := h.exists_of_action? htable ha
    exact absurd ha <| htable.action?_ne_goto hg hc

end Parser.Sound

-- No sequence of steps ends in an invariant error, on any stream and with any conflicts. A
-- reduction finds all that it takes off both stacks, the one of the states and the one of the
-- trees, and a goto for the left side of its rule in the state that it exposes.
theorem parser_never_stuck (h : ctx.grammar.IsDefined) :
    ∃ a t, Automaton.build ctx alg = .ok a ∧ ParseTable.build a ctx = .ok t ∧
      ∀ (tokens : TokenStream) (n : Nat),
        let p := (fun p => p.step.1)^[n] (Parser.initial t tokens)
        (∀ e, p.step.2 ≠ .error (.invariant e)) ∧
        ∀ token r, p.status = .running → tokens.get? p.cursor = some token →
          p.action? token = some (.reduce r) →
          let k := (ctx.grammar.right r).length
          let exposed := Parser.topState t (p.stack.drop k)
          k ≤ p.values.length ∧ k < p.states.length ∧ ∃ q node,
            t.goto? exposed (ctx.grammar.left r) = some q ∧
            p.step.2 = .ok (.reduce r k exposed q node) := by
  have hg := h.wellFormed
  obtain ⟨a, hbuild, houtcome, hdone⟩ := exists_build hg alg
  obtain ⟨t, ht, htable⟩ := exists_table ctx hdone
  have hc := houtcome.coherent hg
  refine ⟨a, t, hbuild, ht, fun tokens n => ?_⟩
  have hinit : Parser.Sound ctx.grammar a t tokens (.initial t tokens) := .init
  have hsound := hinit.iterate hg hc htable n
  intro p
  refine ⟨hsound.step_ne_invariant hg hc htable, fun token r hp hnext ha => ?_⟩
  have hnext : p.tokens.get? p.cursor = some token := by rw [hsound.stream, hnext]
  obtain ⟨hle, hreduce⟩ := hsound.step_of_reduce hg hc htable ⟨hp, hnext⟩ ha
  have hvalues : p.values.length = p.stack.length := by simp [Parser.values]
  have hstates : p.states.length = p.stack.length + 1 := by simp [Parser.states]
  exact ⟨hvalues ▸ hle, hstates ▸ Nat.lt_succ_of_le hle, hreduce⟩

theorem parser_never_stuck_on_knotted : knotted.IsDefined ∧
    ∃ a t, Automaton.build (.ofGrammar knotted) .lalrByMerging = .ok a ∧
      ParseTable.build a (.ofGrammar knotted) = .ok t ∧ t.conflict = true ∧
      ∀ (tokens : TokenStream) (n : Nat) (e : InvariantError),
        ((fun p => p.step.1)^[n] (Parser.initial t tokens)).step.2 ≠ .error (.invariant e) := by
  obtain ⟨a, t, ha, ht, hsafe⟩ :=
    @parser_never_stuck (.ofGrammar knotted) .lalrByMerging knotted_isDefined
  have hconflict : t.conflict = true := eq_of_builds (·.conflict) (by decide +kernel) ha ht
  exact ⟨knotted_isDefined, a, t, ha, ht, hconflict, fun tokens n => (hsafe tokens n).left⟩

-- With every algorithm and whatever conflicts, the tokens that have been shifted begin a sentence
-- after every number of steps.
theorem valid_prefix_property (h : ctx.grammar.IsDefined) (hp : ctx.grammar.IsProductive) :
    ∃ a t, Automaton.build ctx alg = .ok a ∧ ParseTable.build a ctx = .ok t ∧
      ∀ (tokens : TokenStream) (n : Nat),
        let p := (fun p => p.step.1)^[n] (Parser.initial t tokens)
        ∃ w u, ctx.grammar.Spells (tokens.kindsBefore p.cursor) w ∧ ctx.grammar.IsSentence u ∧
          w <+: u := by
  have hg := h.wellFormed
  obtain ⟨a, hbuild, houtcome, hdone⟩ := exists_build hg alg
  obtain ⟨t, ht, htable⟩ := exists_table ctx hdone
  have hc := houtcome.coherent hg
  refine ⟨a, t, hbuild, ht, fun tokens n => ?_⟩
  have hinit : Parser.Sound ctx.grammar a t tokens (.initial t tokens) := .init
  exact (hinit.iterate hg hc htable n).exists_sentence hg hp hc <| houtcome.foresees hg

theorem valid_prefix_property_on_repetition : Grammar.repetition.IsDefined ∧
    Grammar.repetition.IsProductive ∧
    ∃ a t, Automaton.build (.ofGrammar .repetition) .lr0 = .ok a ∧
      ParseTable.build a (.ofGrammar .repetition) = .ok t ∧
      ∀ (tokens : TokenStream) (n : Nat),
        let p := (fun p => p.step.1)^[n] (Parser.initial t tokens)
        ∃ w u, Grammar.repetition.Spells (tokens.kindsBefore p.cursor) w ∧
          Grammar.repetition.IsSentence u ∧ w <+: u := by
  obtain ⟨a, t, ha, ht, hprefix⟩ :=
    @valid_prefix_property (.ofGrammar .repetition) .lr0 Grammar.repetition_isDefined
      Grammar.repetition_isProductive
  exact ⟨Grammar.repetition_isDefined, Grammar.repetition_isProductive, a, t, ha, ht, hprefix⟩

end ShiftReduce
