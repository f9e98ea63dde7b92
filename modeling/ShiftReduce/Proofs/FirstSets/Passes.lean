import Mathlib.Algebra.Order.BigOperators.Group.List
import Mathlib.Algebra.Order.Ring.Nat
import Mathlib.Data.List.Perm.Subperm
import ShiftReduce.Proofs.FirstSets

namespace ShiftReduce

namespace TerminalSet

variable {a b : TerminalSet}

theorem nodup_toList (s : TerminalSet) : s.toList.Nodup := by
  rw [toList_eq]
  refine (List.nodup_range.filter _).map fun i j h => ?_
  exact Terminal.mk.inj h

theorem toList_subperm (h : ∀ t ∈ a, t ∈ b) : a.toList.Subperm b.toList :=
  (nodup_toList a).subperm fun t ht => mem_toList.mpr <| h t <| mem_toList.mp ht

theorem size_le (h : ∀ t ∈ a, t ∈ b) : a.size ≤ b.size :=
  (toList_subperm h).length_le

theorem eq_of_size_le (h : ∀ t ∈ a, t ∈ b) (hs : b.size ≤ a.size) : a = b := by
  have hperm := (toList_subperm h).perm_of_length_le hs
  exact ext_mem fun t => by rw [← mem_toList, hperm.mem_iff, mem_toList]

end TerminalSet

namespace PassSizes

def zero : PassSizes :=
  ⟨0, 0⟩

def Within (p q : PassSizes) : Prop :=
  p.nullable ≤ q.nullable ∧ p.first ≤ q.first

-- What comes after `p` is larger in one respect.
def Grew (p q : PassSizes) : Prop :=
  p.nullable < q.nullable ∨ p.first < q.first

end PassSizes

namespace FirstSets

variable {g : Grammar} {f f' : FirstSets} {c : Nonterminal × Option Terminal} {rule : Rule}
  {j k : Nat}

section Sizes

theorem sizes_first : f.sizes.first =
    ((List.range f.sets.size).map fun k => (f.first ⟨k⟩).size).sum := by
  have hlength : (f.sets.toList.map TerminalSet.size).length = f.sets.size := by
    rw [List.length_map, Array.length_toList]
  refine congrArg List.sum <| List.ext_getElem ?_ fun k hk _ => ?_
  case refine_1 => rw [hlength, List.length_map, List.length_range]
  case refine_2 =>
    have hk : k < f.sets.size := hlength ▸ hk
    simp only [List.getElem_map, Array.getElem_toList, List.getElem_range, first, first?,
      getElem?_pos, hk, Option.getD_some]

theorem sizes_initial : (initial g).sizes = .zero := by
  have hempty : TerminalSet.size ∅ = 0 := rfl
  simp [sizes, initial, PassSizes.zero, hempty]

theorem Le.within (h : Le f f') : f.sizes.Within f'.sizes := by
  refine ⟨h.nullable.length_le, ?_⟩
  rw [sizes_first, sizes_first, h.size]
  exact List.sum_le_sum fun k _ => TerminalSet.size_le <| h.first ⟨k⟩

-- No approximation takes the place of another one of the same sizes.
theorem Le.grew (h : Le f f') (hne : f ≠ f') : f.sizes.Grew f'.sizes := by
  by_contra hsame
  obtain ⟨hnullable, hfirst⟩ := not_or.mp hsame
  have hnullable : f'.nullable.length ≤ f.nullable.length := Nat.le_of_not_lt hnullable
  rw [sizes_first, sizes_first, h.size] at hfirst
  refine hne <| ext_first (h.nullable.eq_of_length_le hnullable) h.size fun n t => ?_
  obtain ⟨k⟩ := n
  suffices heq : f.first ⟨k⟩ = f'.first ⟨k⟩ by rw [heq]
  by_cases hk : k < f'.sets.size
  case neg => simp [FirstSets.first, first?, h.size, hk]
  case pos =>
    refine TerminalSet.eq_of_size_le (h.first ⟨k⟩) <| Nat.le_of_not_lt fun hlt => hfirst ?_
    exact List.sum_lt_sum _ _ (fun i _ => TerminalSet.size_le <| h.first ⟨i⟩)
      ⟨k, List.mem_range.mpr hk, hlt⟩

end Sizes

section Iterates

open Finset

theorem iterate_isBounded (h : g.WellFormed) (k : Nat) :
    IsBounded g ((pass g)^[k] (initial g)) := by
  induction k
  case zero      => exact .init
  case succ k hi => exact Function.iterate_succ_apply' (pass g) k _ ▸ hi.pass h

theorem le_iterate (h : j ≤ k) : Le ((pass g)^[j] f) ((pass g)^[k] f) := by
  induction h
  case refl        => exact .refl
  case step m _ hi => exact hi.trans <| Function.iterate_succ_apply' (pass g) m f ▸ le_pass

theorem says_absorb : (f.absorb rule).Says c → f.Says c ∨ c.1 = rule.left := by
  obtain ⟨n, t?⟩ := c
  intro hs
  cases t?
  case none   => exact (mem_nullable_absorb.mp hs).imp_right And.left
  case some t => exact (mem_first_absorb.mp hs).imp_right And.left

theorem says_pass : (f.pass g).Says c → f.Says c ∨ ∃ rule ∈ g.rules, c.1 = rule.left := by
  refine pass_induction (P := fun f' => f'.Says c → _) .inl fun f' rule hr h hs => ?_
  exact (says_absorb hs).elim h fun he => .inr ⟨rule, hr, he⟩

-- A nonterminal without rules stays out of it.
theorem says_iterate : ((pass g)^[k] (initial g)).Says c → ∃ rule ∈ g.rules, c.1 = rule.left := by
  induction k
  case zero =>
    obtain ⟨n, t?⟩ := c
    intro hs
    cases t?
    case none   => simp [Says, IsNullable, initial] at hs
    case some t => exact absurd hs not_mem_first_initial
  case succ k hi =>
    rw [Function.iterate_succ_apply']
    exact fun hs => (says_pass hs).elim hi id

theorem card_facts_iterate_le : (facts g ((pass g)^[k] (initial g))).card ≤
    g.rules.size * (g.vocabulary.terminals.size + 1) := by
  have hsub : facts g ((pass g)^[k] (initial g)) ⊆
      (g.rules.toList.map Rule.left).toFinset ×ˢ
        insertNone g.vocabulary.terminalIds.toFinset := by
    intro c hc
    obtain ⟨hclaim, hs⟩ := mem_filter.mp hc
    obtain ⟨rule, hrule, hleft⟩ := says_iterate hs
    refine mem_product.mpr ⟨?_, (mem_product.mp hclaim).right⟩
    refine List.mem_toFinset.mpr <| List.mem_map.mpr ⟨rule, ?_, hleft.symm⟩
    exact Array.mem_toList_iff.mpr hrule
  have hleft := (g.rules.toList.map Rule.left).toFinset_card_le
  have hterminals := g.vocabulary.terminalIds.toFinset_card_le
  rw [List.length_map, Array.length_toList] at hleft
  rw [Vocabulary.terminalIds, List.length_map, List.length_range] at hterminals
  calc
    _ ≤ _ := card_le_card hsub
    _ = (g.rules.toList.map Rule.left).toFinset.card *
        (g.vocabulary.terminalIds.toFinset.card + 1) := by rw [card_product, card_insertNone]
    _ ≤ _ := Nat.mul_le_mul hleft <| Nat.succ_le_succ hterminals

theorem le_card_facts_iterate (h : g.WellFormed)
    (hne : ∀ j < k, (pass g)^[j + 1] (initial g) ≠ (pass g)^[j] (initial g)) :
    k ≤ (facts g ((pass g)^[k] (initial g))).card := by
  induction k
  case zero => exact Nat.zero_le _
  case succ k hi =>
    have hlast := hne k <| Nat.lt_succ_self k
    rw [Function.iterate_succ_apply'] at hlast ⊢
    have hlt := card_lt_card <| facts_pass_ssubset (iterate_isBounded h k) h hlast
    exact (hi fun j hj => hne j <| Nat.lt_succ_of_lt hj).trans_lt hlt

end Iterates

-- Two nonterminals at least are declared, the augmented start symbol and the one that it derives.
theorem mul_succ_lt_bound (h : g.WellFormed) :
    g.rules.size * (g.vocabulary.terminals.size + 1) <
      (g.vocabulary.terminals.size + g.vocabulary.nonterminals.size) * g.rules.size := by
  have hrules : 0 < g.rules.size := (Array.getElem?_eq_some_iff.mp h.accept_rule).choose
  have hdeclares : g.start.number < g.vocabulary.nonterminals.size :=
    h.declares_right h.accept_rule _ (.head _)
  have hstart : g.start.number ≠ 0 := by
    intro he
    refine h.rule_right h.accept_rule _ (.head _) ?_
    exact congrArg Nonterminal.mk he
  rw [Nat.mul_comm]
  exact Nat.mul_lt_mul_of_pos_right (by omega) hrules

theorem exists_passes_eq {ctx : Context} (h : ctx.grammar.WellFormed) : ∃ k,
    (.zero :: ctx.passes = (List.range (k + 2)).map fun j =>
      ((pass ctx.grammar)^[j] (initial ctx.grammar)).sizes) ∧
    (ctx.passes = (List.range (k + 1)).map fun j =>
      ((pass ctx.grammar)^[j + 1] (initial ctx.grammar)).sizes) ∧
    ctx.first = (pass ctx.grammar)^[k + 1] (initial ctx.grammar) ∧
    ∀ j ≤ k, (pass ctx.grammar)^[j + 1] (initial ctx.grammar) =
      (pass ctx.grammar)^[j] (initial ctx.grammar) ↔ j = k := by
  obtain ⟨k, heq, hfinal, hlast⟩ := exists_approximations_eq h
  have hpasses : ctx.passes = (List.range (k + 1)).map fun j =>
      ((pass ctx.grammar)^[j + 1] (initial ctx.grammar)).sizes := by
    rw [ctx.passes_eq, passes, heq, List.map_map]
    rfl
  refine ⟨k, ?_, hpasses, ctx.first_eq.trans hfinal, hlast⟩
  rw [List.range_succ_eq_map, List.map_cons, List.map_map, hpasses]
  exact congrArg (· :: _) sizes_initial.symm

-- How the sizes change from one pass to the next. Before the first pass nothing has been found.
structure Converges (ctx : Context) : Prop where
  monotone : ctx.passes.Pairwise PassSizes.Within
  grew     : ∀ k p q, (.zero :: ctx.passes)[k]? = some p → ctx.passes[k]? = some q →
    k + 1 < ctx.passes.length → p.Grew q
  settled  : ∀ k p q, (.zero :: ctx.passes)[k]? = some p → ctx.passes[k]? = some q →
    k + 1 = ctx.passes.length → p = q
  last     : ctx.passes.getLast? = some ctx.first.sizes
  bound    : ctx.passes.length ≤ (ctx.grammar.vocabulary.terminals.size +
    ctx.grammar.vocabulary.nonterminals.size) * ctx.grammar.rules.size

theorem passes_converge {ctx : Context} (h : ctx.grammar.IsDefined) : Converges ctx := by
  have hg := h.wellFormed
  obtain ⟨k, hbefore, hpasses, hfinal, hlast⟩ := exists_passes_eq hg
  have hlength : ctx.passes.length = k + 1 := by simp [hpasses]
  have hsizes {j p q} (hp : (PassSizes.zero :: ctx.passes)[j]? = some p)
      (hq : ctx.passes[j]? = some q) : j ≤ k ∧
      ((pass ctx.grammar)^[j] (initial ctx.grammar)).sizes = p ∧
      ((pass ctx.grammar)^[j + 1] (initial ctx.grammar)).sizes = q := by
    have hj : j < ctx.passes.length := (List.getElem?_eq_some_iff.mp hq).choose
    rw [hbefore, List.getElem?_map, List.getElem?_range (by omega)] at hp
    rw [hpasses, List.getElem?_map, List.getElem?_range (by omega)] at hq
    exact ⟨by omega, Option.some.inj hp, Option.some.inj hq⟩
  constructor
  case monotone =>
    rw [hpasses, List.pairwise_map]
    exact List.pairwise_lt_range.imp fun hij => (le_iterate <| Nat.succ_le_succ hij.le).within
  case grew =>
    intro j p q hp hq hj
    obtain ⟨hle, hp, hq⟩ := hsizes hp hq
    rw [← hp, ← hq]
    refine (le_iterate <| Nat.le_succ j).grew fun he => ?_
    have := (hlast j hle).mp he.symm
    omega
  case settled =>
    intro j p q hp hq hj
    obtain ⟨hle, hp, hq⟩ := hsizes hp hq
    rw [← hp, ← hq, (hlast j hle).mpr (by omega)]
  case last =>
    rw [hpasses, List.range_succ, List.map_append, List.map_singleton, List.getLast?_concat, hfinal]
  case bound =>
    have hcard := le_card_facts_iterate (k := k) hg fun j hj he =>
      hj.ne <| (hlast j hj.le).mp he
    have hfacts := card_facts_iterate_le (g := ctx.grammar) (k := k)
    have hbound := mul_succ_lt_bound hg
    omega

theorem passes_converge_on_repetition : Grammar.repetition.IsDefined ∧
    (Context.ofGrammar .repetition).passes = [⟨1, 0⟩, ⟨2, 1⟩, ⟨2, 2⟩, ⟨2, 2⟩] ∧
    Converges (.ofGrammar .repetition) :=
  ⟨Grammar.repetition_isDefined, by decide +kernel,
    passes_converge Grammar.repetition_isDefined⟩

end FirstSets
end ShiftReduce
