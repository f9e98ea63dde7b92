import ShiftReduce.Proofs.Parser.Reductions
import Mathlib.Order.WellFoundedSet

namespace ShiftReduce

open Relation Grammar

-- The rule begins with the symbol, and nothing but the symbol is left of it.
def IsUnit (g : Grammar) (r : RuleId) (y : Symbol) : Prop :=
  ∃ ss, g.right r = y :: ss ∧ g.Vanishes ss

-- Above the state `s`, a reduction on the terminal puts `z` in the place of `y`.
def Chains (ctx : Context) (a : Automaton) (x : Terminal) (s : StateId) (y z : Symbol) : Prop :=
  ∃ r q, r ≠ .accept ∧ IsUnit ctx.grammar r y ∧ .nonterminal (ctx.grammar.left r) = z ∧
    a.transition? s y = some q ∧ a.Looks ctx q ⟨r, 1⟩ x

-- Each of the symbols is all that a rule at the state becomes, and the rule makes another of them.
def IsCyclic (ctx : Context) (a : Automaton) (x : Terminal) (s : StateId) (ys : Set Symbol) :
    Prop :=
  ∀ y ∈ ys, ∃ r, r ≠ .accept ∧ IsUnit ctx.grammar r y ∧
    .nonterminal (ctx.grammar.left r) ∈ ys ∧ a.Looks ctx s ⟨r, 0⟩ x

variable {ctx : Context} {a : Automaton} {t : ParseTable} {x : Terminal} {s q : StateId}
  {c d : Core} {r : RuleId} {y z : Symbol} {ys : Set Symbol} {σ : List StateId}

theorem Automaton.Justifies.exists_shifted {i : Nat} (h : a.Justifies ctx q ⟨r, i + 1⟩ x) :
    ∃ p z, a.Justifies ctx p ⟨r, i⟩ x ∧ (⟨r, i⟩ : Core).next? ctx.grammar = some z ∧
      a.transition? p z = some q := by
  generalize hc : (⟨r, i + 1⟩ : Core) = c at h
  cases h
  case start          => cases hc
  case generated hd _ => cases hc ▸ (mem_predicted.mp hd).left
  case passed hd _    => cases hc ▸ (mem_predicted.mp hd).left
  case shifted hz hp hj =>
    cases hc
    exact ⟨_, _, hj, hz, hp⟩

namespace IsUnit

theorem next?_eq (h : IsUnit ctx.grammar r y) : (⟨r, 0⟩ : Core).next? ctx.grammar = some y := by
  obtain ⟨ss, hright, _⟩ := h
  rw [Core.next?, hright]
  rfl

theorem vanishes (h : IsUnit ctx.grammar r y) :
    ctx.grammar.Vanishes ((⟨r, 0⟩ : Core).afterNext ctx.grammar) := by
  obtain ⟨ss, hright, hvanishes⟩ := h
  rw [Core.afterNext, hright]
  exact hvanishes

end IsUnit

section Decided

variable (ht : Parser.Decides ctx a t)

include ht

theorem Automaton.Looks.exists_rule (h : a.Looks ctx q c x) :
    (ctx.grammar.rule? c.rule).isSome := by
  obtain ⟨n, hn, hcore, _⟩ := h
  exact (ht.coherent.valid hn c hcore).left

theorem chains_of_looks (hq : a.transition? s y = some q) (hlooks : a.Looks ctx q c x)
    (hdot : c.dot = 1) (hr : c.rule ≠ .accept)
    (hvanishes : ctx.grammar.Vanishes ((ctx.grammar.right c.rule).drop c.dot)) :
    Chains ctx a x s y (.nonterminal <| ctx.grammar.left c.rule) := by
  obtain ⟨n, hn, hcore⟩ := hlooks.exists_node
  obtain ⟨d, hnext, hadvance⟩ := ht.coherent.exists_advanced hq hn hcore (by simp [hdot])
  subst hadvance
  obtain ⟨r, i⟩ := d
  cases Nat.succ.inj hdot
  exact ⟨r, q, hr, ⟨_, drop_of_next? hnext, hvanishes⟩, rfl, hq, hlooks⟩

-- A cycle of chains comes from a cycle at the state where its first rule began.
theorem exists_isCyclic (hj : ∀ {q c}, a.Looks ctx q c x → a.Justifies ctx q c x)
    (h : TransGen (Chains ctx a x s) y y) : ∃ p ys, y ∈ ys ∧ IsCyclic ctx a x p ys := by
  obtain ⟨z, ⟨r, q, hne, hunit, hz, hq, hlooks⟩, hzy⟩ := TransGen.head'_iff.mp h
  obtain ⟨p, y', hjp, hnext, _⟩ := (hj hlooks).exists_shifted
  cases hunit.next?_eq.symm.trans hnext
  refine ⟨p, {w | ReflTransGen (Chains ctx a x s) w y}, .refl, fun w hw => ?_⟩
  induction hw using ReflTransGen.head_induction_on
  case refl =>
    exact ⟨r, hne, hunit, hz ▸ hzy, hjp.looks ht.coherent ht.foresees⟩
  case head w w' hstep hw' hi =>
    obtain ⟨r', _, hunit', _, hlooks'⟩ := hi
    obtain ⟨r'', _, hne'', hunit'', hw, _, hlooks''⟩ := hstep
    have hrule := hlooks''.exists_rule ht
    refine ⟨r'', hne'', hunit'', hw ▸ hw', ?_⟩
    refine ht.foresees.passed hlooks' ?_ <| (ctx.nullableSeq_iff ht.grammar).mpr hunit'.vanishes
    exact mem_predicted.mpr ⟨rfl, hrule, hw ▸ hunit'.next?_eq⟩

variable (hx : x ≠ .marker)

include hx

-- Behind its first symbol, the rule is reduced in the end.
theorem IsUnit.completed_of_isStuck (h : IsUnit ctx.grammar r y) (hr : r ≠ .accept)
    (hlooks : a.Looks ctx s ⟨r, 0⟩ x) (hq : a.transition? s y = some q)
    (hσ : t.ReducesTo x q [] σ) (hstuck : t.IsStuck x q σ) : Completed ctx a x q ⟨r, 1⟩ σ := by
  have hadvance := ht.foresees.advance ht.coherent hlooks h.next?_eq hq
  obtain ⟨τ, hτ, hcompleted⟩ := exists_completed ht hx h.vanishes (c := ⟨r, 1⟩) rfl hadvance
  cases hσ.eq_of_isStuck hτ hstuck <| hcompleted.isStuck ht hx hadvance hr Nat.one_ne_zero
  exact hcompleted

theorem IsUnit.not_isIdle (h : IsUnit ctx.grammar r y) (hr : r ≠ .accept)
    (hlooks : a.Looks ctx s ⟨r, 0⟩ x) (hq : a.transition? s y = some q)
    (hσ : t.ReducesTo x q [] σ) : ¬ t.IsIdle x q σ := by
  intro hidle
  have hcompleted := h.completed_of_isStuck ht hx hr hlooks hq hσ hidle.isStuck
  exact hidle r <| hcompleted.action?_eq ht hx hr

-- The rule that is reduced and the length of its right side determine the item.
theorem Completed.eq_of_completed (h : Completed ctx a x s c σ) (h' : Completed ctx a x s d σ)
    (hc : c.rule ≠ .accept) (hd : d.rule ≠ .accept)
    (hlc : c.dot ≤ (ctx.grammar.right c.rule).length)
    (hld : d.dot ≤ (ctx.grammar.right d.rule).length) : c = d := by
  have haction := (h.action?_eq ht hx hc).symm.trans <| h'.action?_eq ht hx hd
  have hlength := h.length.symm.trans h'.length
  obtain ⟨r, i⟩ := c
  obtain ⟨r', j⟩ := d
  obtain rfl : r = r' := by simpa using haction
  simp only [List.length_drop] at hlc hld hlength
  obtain rfl : i = j := by omega
  rfl

-- The induction is on the reasons for the lookahead: each of them either clashes with the reduction
-- that the cycle asks for, or is about a rule of the cycle again.
theorem IsCyclic.not_mem (h : IsCyclic ctx a x s ys) (hj : a.Justifies ctx s c x)
    (hdot : c.dot = 0) : .nonterminal (ctx.grammar.left c.rule) ∉ ys := by
  intro hmem
  induction hj
  case start =>
    obtain ⟨r, _, ⟨ss, hright, _⟩, _⟩ := h _ hmem
    refine ht.grammar.accept_not_mem_right (r := r) ?_
    rw [hright, ← ht.grammar.left_accept]
    exact .head _
  case shifted => simp [Core.advance] at hdot
  case generated s n c d x hn hcore hd hbegins =>
    obtain ⟨r, hne, hunit, _, hlooks⟩ := h _ hmem
    obtain ⟨_, _, hnext⟩ := mem_predicted.mp hd
    obtain ⟨q, hq⟩ := ht.coherent.exists_transition? hn hcore hnext
    obtain ⟨m, hm, hadvance⟩ := ht.coherent.advance_mem_closure hn hcore hnext hq
    obtain ⟨σ, p, hσ, hshift⟩ := exists_shift ht hx ((ctx.mem_ofSeq_iff ht.grammar).mp hbegins)
      (c := c.advance) rfl hm hadvance
    exact hunit.not_isIdle ht hx hne hlooks hq hσ <| ParseTable.isIdle_of_action? hshift (by simp)
  case passed s c d x hj hd hnull hi =>
    obtain ⟨r, hne, hunit, hnextmem, hlooks⟩ := h _ hmem
    obtain ⟨_, _, hnext⟩ := mem_predicted.mp hd
    have hl := hj.looks ht.coherent ht.foresees
    obtain ⟨n, hn, hcore⟩ := hl.exists_node
    obtain ⟨q, hq⟩ := ht.coherent.exists_transition? hn hcore hnext
    have hadvance := ht.foresees.advance ht.coherent hl hnext hq
    obtain ⟨σ, hσ, hcompleted⟩ := exists_completed ht hx
      ((ctx.nullableSeq_iff ht.grammar).mp hnull) (c := c.advance) rfl hadvance
    by_cases hr : c.rule = .accept
    case pos =>
      exact hunit.not_isIdle ht hx hne hlooks hq hσ <|
        hcompleted.isIdle_of_accept ht (hj.shifted hnext hq) hr
    case neg =>
      have hstuck := hcompleted.isStuck ht hx hadvance hr (Nat.succ_ne_zero _)
      have hcompleted' := hunit.completed_of_isStuck ht hx hne hlooks hq hσ hstuck
      have hsame : c.advance = ⟨r, 1⟩ := hcompleted.eq_of_completed ht hx hcompleted' hr hne
        (List.getElem?_eq_some_iff.mp hnext).choose
        (List.getElem?_eq_some_iff.mp hunit.next?_eq).choose
      obtain ⟨rfl, hdot'⟩ := Core.mk.inj hsame
      exact hi hx h (Nat.succ.inj hdot') hnextmem

-- A reduction can put a nonterminal in the place of a single symbol, when the rest of the rule
-- vanishes. In a table without conflicts this does not go on forever: on a cycle the lookahead
-- would be justified by nothing but itself.
theorem acc_chains (hj : ∀ {q c}, a.Looks ctx q c x → a.Justifies ctx q c x) :
    Acc (flip <| Chains ctx a x s) y := by
  have : IsStrictOrder Symbol (TransGen <| flip <| Chains ctx a x s) := {
    irrefl _ h := by
      obtain ⟨p, ys, hy, hcyclic⟩ := exists_isCyclic ht hj <| transGen_swap.mp h
      obtain ⟨r, _, hunit, hmem, hlooks⟩ := hcyclic _ hy
      exact hcyclic.not_mem ht hx (hj hlooks) rfl hmem
    trans _ _ _ := TransGen.trans
  }
  refine (Set.WellFoundedOn.acc_iff_wellFoundedOn.out 0 2).mpr ?_
  have hsubset : {z | TransGen (flip <| Chains ctx a x s) z y} ⊆
      {z | z ∈ ctx.grammar.ruleIds.map fun r => .nonterminal (ctx.grammar.left r)} := by
    intro z hz
    obtain ⟨_, ⟨r, q, _, _, hleft, _, hlooks⟩, _⟩ := TransGen.head'_iff.mp hz
    exact List.mem_map.mpr ⟨r, mem_ruleIds.mpr <| hlooks.exists_rule ht, hleft⟩
  have hfinite := (List.finite_toSet _).subset hsubset
  exact (hfinite.wellFoundedOn (r := TransGen <| flip <| Chains ctx a x s)).mono
    (fun _ _ => TransGen.single) subset_rfl

end Decided
end ShiftReduce
