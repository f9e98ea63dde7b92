import Mathlib.Logic.Relation
import ShiftReduce.Proofs.Derivation.Rightmost

namespace ShiftReduce
namespace Grammar

open Relation

-- Any nonterminal becomes the right side of one of its rules. A rightmost derivation would be stuck
-- behind one that derives no string of terminals.
inductive Rewrites (g : Grammar) : List Symbol → List Symbol → Prop
  | rule {δ r ρ} :
    (g.rule? r).isSome →
    Rewrites g (δ ++ .nonterminal (g.left r) :: ρ) (δ ++ (g.right r ++ ρ))

def Yields (g : Grammar) : List Symbol → List Symbol → Prop :=
  ReflTransGen g.Rewrites

variable {g : Grammar} {ss ss' ss'' δ ρ : List Symbol} {r : RuleId} {x : Terminal}

section Splitting

theorem vanishes_append : g.Vanishes (ss ++ ss') ↔ g.Vanishes ss ∧ g.Vanishes ss' := by
  constructor
  case mp =>
    intro h
    induction ss
    case nil => exact ⟨.nil, h⟩
    case cons s ss hi =>
      cases h
      case cons hr hright hrest =>
        obtain ⟨hss, hss'⟩ := hi hrest
        exact ⟨.cons hr hright hss, hss'⟩
  case mpr => exact fun h => h.left.append h.right

theorem begins_append :
    g.Begins (ss ++ ss') x ↔ g.Begins ss x ∨ (g.Vanishes ss ∧ g.Begins ss' x) := by
  constructor
  case mp =>
    intro h
    induction ss
    case nil => exact .inr ⟨.nil, h⟩
    case cons s ss hi =>
      cases h
      case terminal             => exact .inl .terminal
      case inside hr hright     => exact .inl <| .inside hr hright
      case behind hr hright hss =>
        exact (hi hss).imp (.behind hr hright) fun h => ⟨.cons hr hright h.left, h.right⟩
  case mpr =>
    intro h
    cases h
    case inl h => exact h.append
    case inr h => exact h.right.append_left h.left

end Splitting

namespace Rewrites

theorem append (h : g.Rewrites ss ss') : g.Rewrites (δ ++ ss ++ ρ) (δ ++ ss' ++ ρ) := by
  cases h
  case rule δ' r ρ' hr =>
    have := Rewrites.rule (δ := δ ++ δ') (ρ := ρ' ++ ρ) hr
    simpa using this

-- Both are kept on the way back from the derived form.
theorem vanishes (h : g.Rewrites ss ss') (hv : g.Vanishes ss') : g.Vanishes ss := by
  cases h
  case rule hr =>
    obtain ⟨hδ, hrest⟩ := vanishes_append.mp hv
    obtain ⟨hright, hρ⟩ := vanishes_append.mp hrest
    exact hδ.append <| .cons hr hright hρ

theorem begins (h : g.Rewrites ss ss') (hb : g.Begins ss' x) : g.Begins ss x := by
  cases h
  case rule hr =>
    refine begins_append.mpr <| (begins_append.mp hb).imp_right fun ⟨hδ, hrest⟩ => ⟨hδ, ?_⟩
    cases begins_append.mp hrest
    case inl hright => exact .inside hr hright
    case inr hrest  => exact .behind hr hrest.left hrest.right

end Rewrites

namespace Yields

theorem trans (h : g.Yields ss ss') (h' : g.Yields ss' ss'') : g.Yields ss ss'' :=
  ReflTransGen.trans h h'

theorem append (h : g.Yields ss ss') : g.Yields (δ ++ ss ++ ρ) (δ ++ ss' ++ ρ) :=
  h.lift (δ ++ · ++ ρ) fun _ _ hr => hr.append

theorem rule (hr : (g.rule? r).isSome) : g.Yields (.nonterminal (g.left r) :: ρ) (g.right r ++ ρ) :=
  .single <| Rewrites.rule (δ := []) hr

theorem of_derivesTo (h : g.DerivesTo ss ss') : g.Yields ss ss' := by
  refine ReflTransGen.mono (fun _ _ hr => ?_) _ _ h
  cases hr
  case rule hr => exact .rule hr

end Yields

theorem vanishes_iff : g.Vanishes ss ↔ g.Yields ss [] := by
  constructor
  case mp => exact fun h => .of_derivesTo h.derivesTo
  case mpr =>
    intro h
    induction h using ReflTransGen.head_induction_on
    case refl             => exact .nil
    case head hstep _ hi  => exact hstep.vanishes hi

theorem begins_iff : g.Begins ss x ↔ ∃ ρ, g.Yields ss (.terminal x :: ρ) := by
  constructor
  case mp =>
    intro h
    induction h
    case terminal ss => exact ⟨ss, .refl⟩
    case inside ss _ hr _ hi =>
      obtain ⟨ρ, hright⟩ := hi
      have hright := hright.append (δ := []) (ρ := ss)
      exact ⟨ρ ++ ss, (Yields.rule hr).trans hright⟩
    case behind ss _ hr hright _ hi =>
      obtain ⟨ρ, hss⟩ := hi
      have hright := (vanishes_iff.mp hright).append (δ := []) (ρ := ss)
      exact ⟨ρ, ((Yields.rule hr).trans hright).trans hss⟩
  case mpr =>
    rintro ⟨ρ, h⟩
    induction h using ReflTransGen.head_induction_on
    case refl            => exact .terminal
    case head hstep _ hi => exact hstep.begins hi

end Grammar

namespace FirstSets

variable {g : Grammar} {n : Nonterminal} {seq : List Symbol} {x : Terminal}

theorem nullableSeq_iff_yields (hg : g.WellFormed) :
    (ofGrammar g).NullableSeq seq ↔ g.Yields seq [] :=
  ((Context.ofGrammar g).nullableSeq_iff hg).trans Grammar.vanishes_iff

theorem isNullableSymbol_iff (hg : g.WellFormed) {s : Symbol} :
    (ofGrammar g).IsNullableSymbol s ↔ g.Yields [s] [] := by
  rw [← nullableSeq_iff_yields hg]
  simp [NullableSeq]

theorem mem_ofSeq_empty_iff (hg : g.WellFormed) :
    x ∈ (ofGrammar g).ofSeq seq ∅ ↔ ∃ ρ, g.Yields seq (.terminal x :: ρ) :=
  ((Context.ofGrammar g).mem_ofSeq_iff hg).trans Grammar.begins_iff

theorem mem_first_iff {f : FirstSets} : x ∈ f.first n ↔ ∃ s, f.first? n = some s ∧ x ∈ s := by
  rw [first]
  cases f.first? n <;> simp

-- The passes go on up to the first one that changes nothing, which the bound on their number lets
-- happen. What has been found then is exact.
theorem first_sets_exact (h : g.IsDefined) :
    (∃ k, approximations g = (List.range (k + 1)).map (fun j => (pass g)^[j + 1] (initial g)) ∧
      ofGrammar g = (pass g)^[k + 1] (initial g) ∧
      ∀ j ≤ k, (pass g)^[j + 1] (initial g) = (pass g)^[j] (initial g) ↔ j = k) ∧
    (∀ n, (ofGrammar g).IsNullable n ↔ g.Yields [.nonterminal n] []) ∧
    (∀ n, ((ofGrammar g).first? n).isSome ↔ g.vocabulary.Declares (.nonterminal n)) ∧
    (∀ n x, (∃ s, (ofGrammar g).first? n = some s ∧ x ∈ s) ↔
      ∃ ρ, g.Yields [.nonterminal n] (.terminal x :: ρ)) ∧
    ∀ seq lookaheads x, x ∈ (ofGrammar g).ofSeq seq lookaheads ↔
      (∃ ρ, g.Yields seq (.terminal x :: ρ)) ∨
        ((∀ s ∈ seq, g.Yields [s] []) ∧ x ∈ lookaheads) := by
  have hg := h.wellFormed
  refine ⟨exists_approximations_eq hg, fun n => ?_, fun n => ?_, fun n x => ?_,
    fun seq lookaheads x => ?_⟩
  · exact isNullableSymbol_iff hg (s := .nonterminal n)
  · have hsize := (ofGrammar_isBounded hg).size
    simp [first?, Vocabulary.Declares, hsize]
  · rw [← mem_first_iff, ← mem_ofSeq_nonterminal, mem_ofSeq_empty_iff hg]
  · rw [mem_ofSeq, mem_ofSeq_empty_iff hg]
    simp only [NullableSeq, isNullableSymbol_iff hg]

theorem first_sets_exact_on_repetition : Grammar.repetition.IsDefined ∧
    Grammar.repetition.Yields [.nonterminal ⟨1⟩] [] ∧
    (∃ ρ, Grammar.repetition.Yields [.nonterminal ⟨1⟩, .nonterminal ⟨1⟩] (.terminal ⟨2⟩ :: ρ)) ∧
    ¬ ∃ ρ, Grammar.repetition.Yields [.nonterminal ⟨1⟩, .terminal ⟨2⟩]
      (.terminal .endOfInput :: ρ) := by
  have h := Grammar.repetition_isDefined
  obtain ⟨_, hnullable, _, _, hseq⟩ := first_sets_exact h
  have hs : (ofGrammar .repetition).IsNullable ⟨1⟩ := by decide +kernel
  have ha : (⟨2⟩ : Terminal) ∈
      (ofGrammar .repetition).ofSeq [.nonterminal ⟨1⟩, .nonterminal ⟨1⟩] ∅ := by decide +kernel
  have hend : .endOfInput ∉
      (ofGrammar .repetition).ofSeq [.nonterminal ⟨1⟩, .terminal ⟨2⟩] ∅ := by decide +kernel
  refine ⟨h, (hnullable _).mp hs, ?_, fun hyields => hend <| (hseq _ _ _).mpr <| .inl hyields⟩
  exact ((hseq _ _ _).mp ha).resolve_right fun hempty => TerminalSet.not_mem_empty hempty.right

end FirstSets
end ShiftReduce
