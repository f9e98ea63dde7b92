import Mathlib.Data.Finset.Card
import Mathlib.Data.Finset.Option
import Mathlib.Data.Finset.Prod
import ShiftReduce.FirstSets
import ShiftReduce.Proofs.Grammar.Definition

namespace ShiftReduce
namespace FirstSets

variable {g : Grammar} {f f' f'' : FirstSets} {seq : List Symbol} {n : Nonterminal} {t : Terminal}
  {rule : Rule}

def NullableSeq (f : FirstSets) (seq : List Symbol) : Prop :=
  ∀ s ∈ seq, f.IsNullableSymbol s

instance : Decidable (f.NullableSeq seq) :=
  inferInstanceAs (Decidable (∀ s ∈ seq, f.IsNullableSymbol s))

theorem mem_ofSeq {lookaheads : TerminalSet} :
    t ∈ f.ofSeq seq lookaheads ↔ t ∈ f.ofSeq seq ∅ ∨ (f.NullableSeq seq ∧ t ∈ lookaheads) := by
  induction seq
  case nil => simp [ofSeq, NullableSeq]
  case cons s seq hi =>
    cases s
    case terminal u => simp [ofSeq, NullableSeq, IsNullableSymbol]
    case nonterminal m =>
      by_cases hm : f.IsNullable m
      case pos =>
        simp only [ofSeq, if_pos hm, TerminalSet.mem_union, hi, or_assoc]
        simp [NullableSeq, IsNullableSymbol, hm]
      case neg => simp [ofSeq, NullableSeq, IsNullableSymbol, hm]

theorem mem_ofSeq_nonterminal : t ∈ f.ofSeq [.nonterminal n] ∅ ↔ t ∈ f.first n := by
  rw [ofSeq]
  split <;> simp [ofSeq]

theorem mem_ofSeq_cons {s : Symbol} {lookaheads : TerminalSet} :
    t ∈ f.ofSeq (s :: seq) lookaheads ↔
      t ∈ f.ofSeq [s] ∅ ∨ (f.IsNullableSymbol s ∧ t ∈ f.ofSeq seq lookaheads) := by
  cases s
  case terminal u    => simp [ofSeq, IsNullableSymbol]
  case nonterminal m =>
    rw [mem_ofSeq_nonterminal, ofSeq, IsNullableSymbol]
    split
    case isTrue hm  => simp [hm]
    case isFalse hm => simp [hm]

-- Whatever holds of the terminals in a sequence and in the sets holds of those that begin it.
theorem ofSeq_forall {P : Terminal → Prop} {lookaheads : TerminalSet}
    (hs : ∀ t, .terminal t ∈ seq → P t) (hf : ∀ n, ∀ t ∈ f.first n, P t)
    (hl : ∀ t ∈ lookaheads, P t) : ∀ t ∈ f.ofSeq seq lookaheads, P t := by
  induction seq
  case nil => exact hl
  case cons s seq hi =>
    have hi := hi fun t ht => hs t <| .tail _ ht
    intro t ht
    cases s
    case terminal u =>
      cases TerminalSet.mem_singleton.mp ht
      exact hs t <| .head _
    case nonterminal m =>
      rw [ofSeq] at ht
      split at ht
      case isTrue  => exact (TerminalSet.mem_union.mp ht).elim (hf m t) (hi t)
      case isFalse => exact hf m t ht

section Growth

-- One approximation follows another: it has all its sets and perhaps more.
structure Le (f f' : FirstSets) : Prop where
  nullable : f.nullable <+: f'.nullable
  size     : f.sets.size = f'.sets.size
  first    : ∀ n, ∀ t ∈ f.first n, t ∈ f'.first n

theorem Le.refl : Le f f :=
  ⟨f.nullable.prefix_refl, rfl, fun _ _ => id⟩

theorem Le.trans (h : Le f f') (h' : Le f' f'') : Le f f'' :=
  ⟨h.nullable.trans h'.nullable, h.size.trans h'.size, fun n t ht => h'.first n t <| h.first n t ht⟩

theorem ext_first (hn : f.nullable = f'.nullable) (hs : f.sets.size = f'.sets.size)
    (hf : ∀ n, ∀ t, t ∈ f.first n ↔ t ∈ f'.first n) : f = f' := by
  obtain ⟨nullable, sets⟩ := f
  obtain ⟨nullable', sets'⟩ := f'
  simp only [mk.injEq]
  refine ⟨hn, Array.ext hs fun i hi hi' => ?_⟩
  refine TerminalSet.ext_mem fun t => ?_
  simpa [first, first?, hi, show i < sets'.size from hi'] using hf ⟨i⟩ t

theorem Le.antisymm (h : Le f f') (h' : Le f' f) : f = f' :=
  ext_first (h.nullable.eq_of_length <| h.nullable.length_le.antisymm h'.nullable.length_le) h.size
    fun n t => ⟨h.first n t, h'.first n t⟩

theorem mem_first_absorb : t ∈ (f.absorb rule).first n ↔
    t ∈ f.first n ∨ (n = rule.left ∧ n.number < f.sets.size ∧
      t ∈ ({ f with nullable := (f.absorb rule).nullable } : FirstSets).ofSeq rule.right ∅) := by
  obtain ⟨k⟩ := n
  obtain ⟨⟨m⟩, right, _, _⟩ := rule
  by_cases hk : k < f.sets.size
  case neg => simp [absorb, first, first?, hk]
  case pos =>
    by_cases hm : m = k
    case pos => simp [absorb, first, first?, Array.getElem_modify, hk, hm]
    case neg => simp [absorb, first, first?, Array.getElem_modify, hk, hm, Ne.symm hm]

theorem mem_nullable_absorb : n ∈ (f.absorb rule).nullable ↔
    n ∈ f.nullable ∨ (n = rule.left ∧ f.NullableSeq rule.right) := by
  have hall : (rule.right.all fun s => f.IsNullableSymbol s) = true ↔ f.NullableSeq rule.right := by
    simp [NullableSeq]
  simp only [absorb, hall]
  split
  case isTrue h  => grind
  case isFalse h => grind

theorem nodup_absorb (h : f.nullable.Nodup) : (f.absorb rule).nullable.Nodup := by
  simp only [absorb]
  split
  case isTrue hnew => exact h.append (List.nodup_singleton _) (by simpa using hnew.right)
  case isFalse => exact h

theorem le_absorb : Le f (f.absorb rule) where
  nullable := by
    simp only [absorb]
    split
    · exact List.prefix_append ..
    · exact List.prefix_refl _
  size  := by simp [absorb]
  first := fun _ _ ht => mem_first_absorb.mpr <| .inl ht

theorem le_foldl_absorb {rules : List Rule} : Le f (rules.foldl absorb f) := by
  induction rules generalizing f
  case nil        => exact .refl
  case cons _ _ hi => exact le_absorb.trans hi

theorem pass_eq_foldl : f.pass g = g.rules.toList.foldl absorb f := by
  rw [pass, Array.foldl_toList]

theorem le_pass : Le f (f.pass g) :=
  pass_eq_foldl ▸ le_foldl_absorb

-- What every rule keeps is kept by a pass.
theorem pass_induction {P : FirstSets → Prop} (h : P f)
    (hstep : ∀ f, ∀ rule ∈ g.rules, P f → P (f.absorb rule)) : P (f.pass g) := by
  rw [pass_eq_foldl]
  exact List.foldlRecOn _ _ h fun f hf rule hr => hstep f rule (Array.mem_toList_iff.mp hr) hf

-- When a pass changes nothing, no rule in it does.
theorem absorb_eq_of_pass_eq (h : f.pass g = f) (hr : rule ∈ g.rules) : f.absorb rule = f := by
  rw [pass_eq_foldl] at h
  have hr := Array.mem_toList_iff.mpr hr
  generalize g.rules.toList = rules at h hr
  have hall : ∀ r ∈ rules, f.absorb r = f := by
    clear hr
    induction rules
    case nil => simp
    case cons r rules hi =>
      have hle : Le (f.absorb r) (rules.foldl absorb (f.absorb r)) := le_foldl_absorb
      have hfirst : f.absorb r = f := by
        rw [← List.foldl_cons, h] at hle
        exact hle.antisymm le_absorb
      rw [List.foldl_cons, hfirst] at h
      simpa [hfirst] using hi h
  exact hall rule hr

end Growth

-- All approximations are about declared symbols. The marker is in no set.
structure IsBounded (g : Grammar) (f : FirstSets) : Prop where
  nodup    : f.nullable.Nodup
  nullable : ∀ n ∈ f.nullable, g.vocabulary.Declares (.nonterminal n)
  size     : f.sets.size = g.vocabulary.nonterminals.size
  first    : ∀ n, ∀ t ∈ f.first n, t ∈ g.vocabulary.inputTerminals

theorem not_mem_first_initial : t ∉ (initial g).first n := by
  simp only [initial, first, first?, Array.getElem?_replicate]
  split <;> simp

theorem exists_rule? (hr : rule ∈ g.rules) : ∃ r, g.rule? r = some rule := by
  obtain ⟨k, hk⟩ := Array.mem_iff_getElem?.mp hr
  exact ⟨⟨k⟩, hk⟩

namespace IsBounded

theorem init : IsBounded g (initial g) where
  nodup    := .nil
  nullable := by simp [initial]
  size     := by simp [initial]
  first    := fun _ _ ht => absurd ht not_mem_first_initial

theorem absorb (b : IsBounded g f) (h : g.WellFormed) (hr : rule ∈ g.rules) :
    IsBounded g (f.absorb rule) := by
  obtain ⟨r, hrule⟩ := exists_rule? hr
  refine ⟨nodup_absorb b.nodup, ?_, by simp [FirstSets.absorb, b.size], ?_⟩
  · intro n hn
    cases mem_nullable_absorb.mp hn
    case inl hn => exact b.nullable n hn
    case inr hn => exact hn.left ▸ h.declares_left hrule
  · intro n t ht
    cases mem_first_absorb.mp ht
    case inl ht => exact b.first n t ht
    case inr ht =>
      have hfirst : ∀ n,
          ∀ t ∈ ({ f with nullable := (f.absorb rule).nullable } : FirstSets).first n,
            t ∈ g.vocabulary.inputTerminals := b.first
      refine ofSeq_forall ?_ hfirst ?_ t ht.right.right
      · intro u hu
        exact h.mem_inputTerminals_of_mem_right <| Grammar.right_of_rule? hrule ▸ hu
      · simp

theorem pass (b : IsBounded g f) (h : g.WellFormed) : IsBounded g (f.pass g) :=
  pass_induction b fun _ _ hr b => b.absorb h hr

end IsBounded

section Fixpoint

open Finset

-- What an approximation can say: that a nonterminal is nullable, or that a terminal begins it.
def claims (g : Grammar) : Finset (Nonterminal × Option Terminal) :=
  g.vocabulary.nonterminalIds.toFinset ×ˢ insertNone g.vocabulary.terminalIds.toFinset

def Says (f : FirstSets) : Nonterminal × Option Terminal → Prop
  | (n, none)   => f.IsNullable n
  | (n, some t) => t ∈ f.first n

instance : (c : Nonterminal × Option Terminal) → Decidable (f.Says c)
  | (n, none)   => inferInstanceAs (Decidable (f.IsNullable n))
  | (n, some t) => inferInstanceAs (Decidable (t ∈ f.first n))

def facts (g : Grammar) (f : FirstSets) : Finset (Nonterminal × Option Terminal) :=
  (claims g).filter f.Says

theorem card_claims_lt : (claims g).card < passBound g := by
  have hn := g.vocabulary.nonterminalIds.toFinset_card_le
  have ht := g.vocabulary.terminalIds.toFinset_card_le
  simp only [Vocabulary.nonterminalIds, Vocabulary.terminalIds, List.length_map,
    List.length_range] at hn ht
  rw [claims, card_product, card_insertNone, passBound, Nat.lt_succ_iff]
  exact Nat.mul_le_mul hn (Nat.succ_le_succ ht)

theorem Le.says (h : Le f f') : ∀ {c}, f.Says c → f'.Says c
  | (_, none),   hs => h.nullable.subset hs
  | (n, some t), hs => h.first n t hs

theorem IsBounded.mem_claims (b : IsBounded g f) : ∀ {c}, f.Says c → c ∈ claims g
  | (n, none),   hs => by
    simpa [claims, Vocabulary.mem_nonterminalIds] using b.nullable n hs
  | (n, some t), hs => by
    have hs' : t ∈ f.first n := hs
    have hn : n.number < f.sets.size := by
      by_contra hlt
      simp [FirstSets.first, first?, hlt] at hs'
    have ht := (Vocabulary.mem_inputTerminals.mp <| b.first n t hs).left
    rw [b.size] at hn
    simp [claims, Vocabulary.mem_nonterminalIds, Vocabulary.mem_terminalIds, ht]
    exact hn

-- A pass that changes something adds a fact.
theorem facts_pass_ssubset (b : IsBounded g f) (h : g.WellFormed) (hne : f.pass g ≠ f) :
    facts g f ⊂ facts g (f.pass g) := by
  have hle : Le f (f.pass g) := le_pass
  have hsub : facts g f ⊆ facts g (f.pass g) :=
    monotone_filter_right _ fun _ _ => hle.says
  refine hsub.ssubset_of_ne fun heq => hne ?_
  have hsays {c} (hs : (f.pass g).Says c) : f.Says c := by
    have hc : c ∈ facts g (f.pass g) := mem_filter.mpr ⟨(b.pass h).mem_claims hs, hs⟩
    exact (mem_filter.mp <| heq ▸ hc).right
  have hnullable : f.nullable = (f.pass g).nullable := by
    refine hle.nullable.eq_of_length <| hle.nullable.length_le.antisymm ?_
    exact ((b.pass h).nodup.subperm fun n hn => hsays (c := (n, none)) hn).length_le
  exact Le.antisymm ⟨hnullable ▸ List.prefix_refl _, hle.size.symm,
    fun n t ht => hsays (c := (n, some t)) ht⟩ hle

-- With more fuel than facts are missing, the approximations end in a fixed point.
theorem getLastD_approximationsFrom {fuel : Nat} {d : FirstSets} (b : IsBounded g f)
    (h : g.WellFormed) (hfuel : (claims g).card < (facts g f).card + fuel) :
    IsBounded g ((approximationsFrom g fuel f).getLastD d) ∧
      ((approximationsFrom g fuel f).getLastD d).pass g =
        (approximationsFrom g fuel f).getLastD d := by
  induction fuel generalizing f d
  case zero =>
    have : (facts g f).card ≤ (claims g).card := card_filter_le ..
    omega
  case succ fuel hi =>
    have hb := b.pass h
    rw [approximationsFrom, List.getLastD_cons]
    split
    case isTrue hfix => exact ⟨hb, congrArg _ hfix⟩
    case isFalse hne =>
      have := card_lt_card <| facts_pass_ssubset b h hne
      exact hi hb (by omega)

-- With as much fuel, they are the passes up to the first one that changes nothing.
theorem exists_approximationsFrom_eq {fuel : Nat} (b : IsBounded g f) (h : g.WellFormed)
    (hfuel : (claims g).card < (facts g f).card + fuel) : ∃ k,
      approximationsFrom g fuel f = (List.range (k + 1)).map (fun j => (pass g)^[j + 1] f) ∧
        ∀ j ≤ k, (pass g)^[j + 1] f = (pass g)^[j] f ↔ j = k := by
  induction fuel generalizing f
  case zero =>
    have : (facts g f).card ≤ (claims g).card := card_filter_le ..
    omega
  case succ fuel hi =>
    rw [approximationsFrom]
    split
    case isTrue hfix => exact ⟨0, by simp, by simpa using hfix⟩
    case isFalse hne =>
      have := card_lt_card <| facts_pass_ssubset b h hne
      obtain ⟨k, heq, hlast⟩ := hi (b.pass h) (by omega)
      refine ⟨k + 1, ?_, fun j hj => ?_⟩
      · rw [heq, List.range_succ_eq_map (n := k + 1), List.map_cons, List.map_map]
        rfl
      · cases j
        case zero   => simpa using hne
        case succ j => simpa using hlast j (by omega)

theorem exists_approximations_eq (h : g.WellFormed) : ∃ k,
    approximations g = (List.range (k + 1)).map (fun j => (pass g)^[j + 1] (initial g)) ∧
      ofGrammar g = (pass g)^[k + 1] (initial g) ∧
      ∀ j ≤ k, (pass g)^[j + 1] (initial g) = (pass g)^[j] (initial g) ↔ j = k := by
  obtain ⟨k, heq, hlast⟩ := exists_approximationsFrom_eq .init h <|
    Nat.lt_add_left _ card_claims_lt
  have heq : approximations g = _ := heq
  refine ⟨k, heq, ?_, hlast⟩
  rw [ofGrammar, heq, List.range_succ, List.map_append, List.map_singleton, List.getLastD_concat]

theorem ofGrammar_isBounded (h : g.WellFormed) : IsBounded g (ofGrammar g) :=
  (getLastD_approximationsFrom .init h (by have := card_claims_lt (g := g); omega)).left

theorem pass_ofGrammar (h : g.WellFormed) : (ofGrammar g).pass g = ofGrammar g :=
  (getLastD_approximationsFrom .init h (by have := card_claims_lt (g := g); omega)).right

end Fixpoint
end FirstSets

namespace Context

variable {ctx : Context} {r : RuleId} {n : Nonterminal} {t : Terminal}

theorem mem_inputTerminals_of_mem_first (h : ctx.grammar.WellFormed) (ht : t ∈ ctx.first.first n) :
    t ∈ ctx.grammar.vocabulary.inputTerminals :=
  (ctx.first_eq ▸ FirstSets.ofGrammar_isBounded h).first n t ht

theorem absorb_first (h : ctx.grammar.WellFormed) {rule : Rule}
    (hr : ctx.grammar.rule? r = some rule) : ctx.first.absorb rule = ctx.first := by
  refine FirstSets.absorb_eq_of_pass_eq ?_ (Array.mem_of_getElem? hr)
  rw [ctx.first_eq, FirstSets.pass_ofGrammar h]

-- A nonterminal with a nullable right side is nullable.
theorem isNullable_left (h : ctx.grammar.WellFormed) (hr : (ctx.grammar.rule? r).isSome)
    (hn : ctx.first.NullableSeq (ctx.grammar.right r)) :
    ctx.first.IsNullable (ctx.grammar.left r) := by
  obtain ⟨rule, hrule⟩ := Option.isSome_iff_exists.mp hr
  rw [Grammar.right_of_rule? hrule] at hn
  rw [Grammar.left_of_rule? hrule]
  have := FirstSets.mem_nullable_absorb.mpr <| .inr ⟨rfl, hn⟩
  rwa [absorb_first h hrule] at this

-- Whatever begins the right side of a rule begins its left side.
theorem mem_first_left (h : ctx.grammar.WellFormed) (hr : (ctx.grammar.rule? r).isSome)
    (ht : t ∈ ctx.first.ofSeq (ctx.grammar.right r) ∅) :
    t ∈ ctx.first.first (ctx.grammar.left r) := by
  obtain ⟨rule, hrule⟩ := Option.isSome_iff_exists.mp hr
  have hsize := (ctx.first_eq ▸ FirstSets.ofGrammar_isBounded h : ctx.first.IsBounded _).size
  rw [Grammar.right_of_rule? hrule] at ht
  rw [Grammar.left_of_rule? hrule]
  have hdeclares : rule.left.number < ctx.first.sets.size := hsize ▸ h.declares_left hrule
  rw [← absorb_first h hrule]
  exact FirstSets.mem_first_absorb.mpr <|
    .inr ⟨rfl, hdeclares, by simpa [absorb_first h hrule] using ht⟩

end Context
end ShiftReduce
