import Mathlib.Tactic.Ring
import ShiftReduce.Proofs.Lalr.Merging
import ShiftReduce.Proofs.Lalr.Propagation

namespace ShiftReduce

open Automaton

def IsOutcome (ctx : Context) (alg : Algorithm) (a : Automaton) : Prop :=
  match alg with
  | .lr0 | .lr1          => Collected ctx alg a ∧ a.IsDone
  | .lalrByMerging       => Merged ctx a
  | .lalrByPropagation   => Propagated ctx a

variable {ctx : Context} {alg : Algorithm} {a b : Automaton} {g : Grammar} {x y n : Nat}

section Bounds

theorem map_getD_range {α β : Type} (xs : Array α) (d : α) (f : α → β) :
    (List.range xs.size).map (fun k => f (xs.getD k d)) = xs.toList.map f := by
  refine List.ext_getElem (by simp) fun k hk _ => ?_
  have hk : k < xs.size := by simpa using hk
  simp [Array.getD, hk]

theorem length_validCores :
    (validCores g).length = (g.rules.toList.map (·.right.length + 1)).sum := by
  have := map_getD_range g.rules ⟨.accept, [], 0, 0⟩ (·.right.length + 1)
  rw [← this]
  simp [validCores, Grammar.ruleIds, List.length_flatMap, Grammar.right, Grammar.rule,
    Function.comp_def]

theorem card_kernelMarks_le :
    (kernelMarks g).card ≤ (validCores g).length * (g.vocabulary.terminals.size + 1) := by
  have hcores := (validCores g).toFinset_card_le
  have hterminals := g.vocabulary.terminalIds.toFinset_card_le
  rw [kernelMarks, Finset.card_product, Finset.card_insertNone]
  refine Nat.mul_le_mul hcores <| Nat.succ_le_succ ?_
  simpa [Vocabulary.terminalIds] using hterminals

theorem mul_add_lt_two_pow : x * (2 * y + 3) + 8 < 2 ^ (x + y + 4) := by
  have hx : x + 1 ≤ 2 ^ x := Nat.lt_two_pow_self
  have hy : y + 1 ≤ 2 ^ y := Nat.lt_two_pow_self
  have hmul := Nat.mul_le_mul hx hy
  have hsum : (x + 1) * (y + 1) = x * y + x + y + 1 := by ring
  have hprod : x * (2 * y + 3) = 2 * (x * y) + 3 * x := by ring
  rw [Nat.pow_add, Nat.pow_add]
  omega

theorem collectingWork_initial_le (ctx : Context) (alg : Algorithm) :
    collectingWork ctx (initial ctx alg) ≤
      2 ^ (kernelMarks ctx.grammar).card * (closureCap ctx.grammar + 3) := by
  have hpos : 0 < 2 ^ (kernelMarks ctx.grammar).card := Nat.two_pow_pos _
  have hwork : workBehind ctx.grammar 0 + (closureCap ctx.grammar + 3) =
      2 ^ (kernelMarks ctx.grammar).card * (closureCap ctx.grammar + 3) := by
    rw [workBehind, ← Nat.succ_mul]
    congr 1
    omega
  have hstate := stateWork_le ctx (.ofKernel ctx.grammar [.start alg.itemKind]) .closure
  have hinitial : collectingWork ctx (initial ctx alg) = workBehind ctx.grammar 0 +
      stateWork ctx.grammar (.ofKernel ctx.grammar [.start alg.itemKind]) .closure := rfl
  omega

theorem le_stepBits : (ctx.grammar.vocabulary.terminals.size + 4) *
    ((validCores ctx.grammar).length + 4) ≤ a.stepBits ctx := by
  rw [stepBits, length_validCores]
  exact Nat.mul_le_mul_left _ <| Nat.add_le_add_right (Nat.le_add_right ..) _

-- What all phases take together is within the bound of every automaton over the grammar, so that a
-- construction can also be completed from its midst.
theorem total_lt (hg : ctx.grammar.WellFormed) {kind : ItemKind}
    (hn : n ≤ collectingWork ctx (initial ctx alg) + ((collection ctx kind).length +
      ((collection ctx kind).length * (kernelMarks ctx.grammar).card + 1) +
      (collection ctx kind).length)) : n < 2 ^ a.stepBits ctx := by
  have hcollecting := collectingWork_initial_le ctx alg
  have hstates : (collection ctx kind).length ≤ _ := length_collection_le hg
  have hmul := Nat.mul_le_mul_right (kernelMarks ctx.grammar).card hstates
  have hmarks := card_kernelMarks_le (g := ctx.grammar)
  have hcap : closureCap ctx.grammar ≤
      (validCores ctx.grammar).length + (kernelMarks ctx.grammar).card :=
    Nat.add_le_add_right (List.toFinset_card_le _) _
  have hpos : 0 < 2 ^ (kernelMarks ctx.grammar).card := Nat.two_pow_pos _
  have hbits : _ ≤ a.stepBits ctx := le_stepBits
  generalize (collection ctx kind).length = states at *
  generalize (kernelMarks ctx.grammar).card = marks at *
  generalize (validCores ctx.grammar).length = cores at *
  generalize ctx.grammar.vocabulary.terminals.size = terminals at *
  generalize closureCap ctx.grammar = cap at *
  have hbound := mul_add_lt_two_pow (x := cores) (y := terminals)
  have hfactor : cap + marks + 6 ≤ cores * (2 * terminals + 3) + 8 := by
    have : cores * (2 * terminals + 3) = cores + 2 * (cores * (terminals + 1)) := by ring
    omega
  have hn : n ≤ 2 ^ marks * (cap + marks + 6) := by
    have : 2 ^ marks * (cap + marks + 6) =
        2 ^ marks * (cap + 3) + 2 ^ marks * marks + 3 * 2 ^ marks := by ring
    omega
  calc
    n ≤ 2 ^ marks * (cap + marks + 6) := hn
    _ < 2 ^ marks * 2 ^ (cores + terminals + 4) :=
      Nat.mul_lt_mul_of_pos_left (hfactor.trans_lt hbound) hpos
    _ = 2 ^ (marks + (cores + terminals + 4)) := (Nat.pow_add ..).symm
    _ ≤ 2 ^ a.stepBits ctx := by
      refine Nat.pow_le_pow_right (by decide) <| Nat.le_trans ?_ hbits
      have : (terminals + 4) * (cores + 4) =
          cores * (terminals + 1) + 3 * cores + 4 * terminals + 16 := by ring
      omega

end Bounds

section States

variable {n m : Node} {p q : StateId}

namespace Propagated

theorem live_iff (h : Propagated ctx a) :
    (a.node? q).isSome ↔ q.number < (collection ctx .lr0).length := by
  rw [Option.isSome_iff_exists, ← h.size]
  constructor
  case mp  => exact fun ⟨n, hn⟩ => (Array.getElem?_eq_some_iff.mp (node?_eq_some_iff.mp hn).left).1
  case mpr =>
    intro hlt
    have hn := Array.getElem?_eq_getElem hlt
    exact ⟨_, node?_eq_some_iff.mpr ⟨hn, h.live _ <| Array.mem_of_getElem? hn⟩⟩

theorem isCut (h : Propagated ctx a) : a.IsCut := by
  intro n hn hdead
  simp [h.live n hn] at hdead

theorem kinds (h : Propagated ctx a) (hm : a.node? p = some m) :
    ∀ i ∈ m.items.kernel, i.kind = .lr1 :=
  fun i hi => (h.completes hm).kinds i <| (h.completes hm).subset.subset hi

end Propagated

namespace Merged

theorem mem_liveStates (h : Merged ctx b) : q ∈ b.liveStates ↔
    q.number < (collection ctx .lr1).length ∧ leader ctx q = q :=
  h.live_iff

theorem isLeader (h : Merged ctx b) (hn : b.node? q = some n) :
    q.number < (collection ctx .lr1).length ∧ leader ctx q = q :=
  h.live_iff.mp <| Option.isSome_iff_exists.mpr ⟨n, hn⟩

end Merged

end States

theorem IsOutcome.isDone (h : IsOutcome ctx alg a) : a.IsDone := by
  cases alg
  case lr0 | lr1         => exact h.right
  case lalrByMerging     => exact Merged.done h
  case lalrByPropagation => exact Propagated.done h

-- The canonical automata are complete as they are.
theorem Collected.isOutcome (h : Collected ctx alg a) (halg : alg = .lr0 ∨ alg = .lr1) :
    IsOutcome ctx alg a.enterState := by
  have hdone : a.enterState = { a with phase := .done } := by
    obtain rfl | rfl := halg <;> simp [enterState, h.pointer, h.algorithm]
  have hcollected : Collected ctx alg a.enterState := hdone ▸
    ⟨h.algorithm, h.effects, h.redirects, h.kernels, h.pointer, h.nodes⟩
  obtain rfl | rfl := halg <;> exact ⟨hcollected, by rw [hdone]; rfl⟩

-- What follows when every state has been expanded.
theorem Collected.exists_outcome (hg : ctx.grammar.WellFormed) (h : Collected ctx alg a) :
    ∃ b n, Reaches ctx a.enterState n b ∧ IsOutcome ctx alg b ∧ b.IsDone ∧
      n ≤ (collection ctx alg.itemKind).length +
        ((collection ctx alg.itemKind).length * (kernelMarks ctx.grammar).card + 1) +
        (collection ctx alg.itemKind).length := by
  cases alg
  case lr0 | lr1 =>
    have houtcome := h.isOutcome <| by simp
    exact ⟨_, 0, .refl, houtcome, houtcome.isDone, Nat.zero_le _⟩
  case lalrByMerging =>
    obtain ⟨b, n, hb, hm, hn⟩ := exists_reaches_merged hg h
    have hn : n ≤ (collection ctx Algorithm.lalrByMerging.itemKind).length + 1 := hn
    exact ⟨b, n, hb, hm, hm.done, by omega⟩
  case lalrByPropagation =>
    obtain ⟨b, n, hb, hp, hn⟩ := exists_reaches_propagated hg h
    exact ⟨b, n, hb, hp, hp.done, hn⟩

theorem exists_reaches_within (hg : ctx.grammar.WellFormed) (alg : Algorithm) :
    ∃ a n, Reaches ctx (initial ctx alg) n a ∧ IsOutcome ctx alg a ∧ a.IsDone ∧
      ∀ b : Automaton, n < 2 ^ b.stepBits ctx := by
  obtain ⟨c, m, hc, hcollected, hm⟩ := exists_reaches_collected hg alg
  obtain ⟨b, n, hb, houtcome, hdone, hn⟩ := hcollected.exists_outcome hg
  exact ⟨b, m + n, hc.trans hb, houtcome, hdone, fun _ => total_lt hg (Nat.add_le_add hm hn)⟩

theorem exists_reaches_outcome (hg : ctx.grammar.WellFormed) (alg : Algorithm) :
    ∃ a n, Reaches ctx (initial ctx alg) n a ∧ IsOutcome ctx alg a ∧ a.IsDone ∧
      n < 2 ^ (initial ctx alg).stepBits ctx := by
  obtain ⟨a, n, hreaches, houtcome, hdone, hn⟩ := exists_reaches_within hg alg
  exact ⟨a, n, hreaches, houtcome, hdone, hn _⟩

-- The construction of an automaton never fails.
theorem exists_build (hg : ctx.grammar.WellFormed) (alg : Algorithm) :
    ∃ a, Automaton.build ctx alg = .ok a ∧ IsOutcome ctx alg a ∧ a.IsDone := by
  obtain ⟨a, n, hreaches, houtcome, hdone, hn⟩ := exists_reaches_outcome hg alg
  exact ⟨a, hreaches.build hdone hn, houtcome, hdone⟩

-- The construction with every algorithm comes to its end after so many steps, and until then and
-- afterwards no step fails. A closure that a step computes as a whole is complete: its items are
-- all of one kind, and the bound on its length does not cut it.
theorem construction_total (h : ctx.grammar.IsDefined) (alg : Algorithm) :
    (∃ a n, (initial ctx alg).run ctx = (a, .ok n) ∧ a.IsDone ∧ ∀ k,
      let b := (fun b => (b.step ctx).1)^[k] (initial ctx alg)
      (∃ s, (b.step ctx).2 = .ok s) ∧ (b.IsDone ↔ n ≤ k) ∧ (n ≤ k → b = a)) ∧
    ∀ kind kernel, (∀ i ∈ kernel, i.kind = kind) → ∃ s steps,
      (ItemSet.ofKernel ctx.grammar kernel).computeClosure ctx kind = (s, .ok steps) ∧
        s.closed = true := by
  have hg := h.wellFormed
  constructor
  case right =>
    intro kind kernel hk
    obtain ⟨s, steps, hrun, _, hclosed⟩ := computeClosure_ofKernel hg hk
    exact ⟨s, steps, hrun, hclosed⟩
  case left =>
    obtain ⟨a, n, hreaches, _, hdone, hn⟩ := exists_reaches_outcome hg alg
    refine ⟨a, n, hreaches.run hdone hn, hdone, fun k => ?_⟩
    intro b
    cases Nat.lt_or_ge k n
    case inl hk =>
      obtain ⟨hrunning, hstep⟩ := hreaches.step_iterate hk
      have hk : ¬ n ≤ k := Nat.not_le_of_lt hk
      exact ⟨hstep, iff_of_false hrunning hk, fun h => absurd h hk⟩
    case inr hk =>
      have hb : b = a := hreaches.iterate_of_le hdone hk
      rw [hb, step_of_isDone hdone]
      exact ⟨⟨_, rfl⟩, iff_of_true hdone hk, fun _ => rfl⟩

theorem construction_total_on_repetition : Grammar.repetition.IsDefined ∧
    ∃ a n, (initial (.ofGrammar .repetition) .lalrByPropagation).run (.ofGrammar .repetition) =
      (a, .ok n) ∧ a.IsDone := by
  obtain ⟨a, n, hrun, hdone, _⟩ :=
    (@construction_total (.ofGrammar .repetition) Grammar.repetition_isDefined
      .lalrByPropagation).left
  exact ⟨Grammar.repetition_isDefined, a, n, hrun, hdone⟩

end ShiftReduce
