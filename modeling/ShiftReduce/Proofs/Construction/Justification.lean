import ShiftReduce.Proofs.Construction.Coherence

namespace ShiftReduce

namespace Automaton

-- An item looks ahead to a terminal for a reason: it is the start item at the end of input, it was
-- predicted, or it was shifted over a symbol. The reasons of a merged state can lie in any of the
-- states that it has taken in.
inductive Justifies (ctx : Context) (a : Automaton) : StateId → Core → Terminal → Prop
  | start : Justifies ctx a .start ⟨.accept, 0⟩ .endOfInput
  | generated {q n c d t} :
    a.node? q = some n → c ∈ n.items.closure.map Item.core → d ∈ c.predicted ctx.grammar →
    t ∈ ctx.first.ofSeq (c.afterNext ctx.grammar) ∅ → Justifies ctx a q d t
  | passed {q c d t} :
    Justifies ctx a q c t → d ∈ c.predicted ctx.grammar →
    ctx.first.NullableSeq (c.afterNext ctx.grammar) → Justifies ctx a q d t
  | shifted {p q c t x} :
    Justifies ctx a p c t → c.next? ctx.grammar = some x → a.transition? p x = some q →
    Justifies ctx a q c.advance t

variable {ctx : Context} {alg : Algorithm} {τ : StateId → StateId} {a : Automaton} {n : Node}
  {p q : StateId} {c : Core} {t : Terminal}

namespace Justifies

theorem looks (h : a.Justifies ctx q c t) (hc : a.Coherent ctx) (hf : a.Foresees ctx) :
    a.Looks ctx q c t := by
  induction h
  case start                    => exact hf.start
  case generated hn hcore hd ht => exact hf.generated hn hcore hd ht
  case passed hd hnull hi       => exact hf.passed hi hd hnull
  case shifted hx hp hi         => exact hf.advance hc hi hx hp

-- The accept rule is never predicted.
theorem eq_endOfInput (h : a.Justifies ctx q c t) (hg : ctx.grammar.WellFormed)
    (hr : c.rule = .accept) : t = .endOfInput := by
  induction h
  case start            => rfl
  case generated hd _   => exact absurd hr <| rule_ne_accept_of_mem_predicted hg hd
  case passed hd _ _    => exact absurd hr <| rule_ne_accept_of_mem_predicted hg hd
  case shifted _ _ _ hi => exact hi hr

end Justifies

namespace Unites

theorem justifies_closureIn (hg : ctx.grammar.WellFormed) (h : a.Unites ctx τ)
    (hp : p.number < (collection ctx .lr1).length)
    (hk : ∀ c t, Covers (kernelIn ctx .lr1 p) c t → a.Justifies ctx (τ p) c t)
    (hcovers : Covers (closureIn ctx .lr1 p) c t) : a.Justifies ctx (τ p) c t := by
  have hcompletes : Completes ctx .lr1 _ _ := completes_closureIn hg hp
  have l := (hcompletes.covers rfl c t).mp hcovers
  induction l
  case kernel hc => exact hk _ _ hc
  case generated hc hd ht =>
    obtain ⟨n, hn⟩ := mem_liveStates.mp <| h.follows.live hp
    refine .generated hn ?_ hd ht
    rw [h.follows.closure hn, h.mem_closureIn_iff hg hp]
    exact hcompletes.mem_iff_predicted.mpr hc
  case passed l hd hnull hi => exact .passed (hi <| (hcompletes.covers rfl _ _).mpr l) hd hnull

theorem justifies_of_covers_kernelIn (hg : ctx.grammar.WellFormed) (h : a.Unites ctx τ)
    (hq : q.number < (collection ctx .lr1).length) :
    ∀ c t, Covers (kernelIn ctx .lr1 q) c t → a.Justifies ctx (τ q) c t := by
  refine forall_of_targetIn (P := fun q => ∀ c t, Covers (kernelIn ctx .lr1 q) c t →
    a.Justifies ctx (τ q) c t) hg (fun c t hc => ?_) (fun p hp hi x hx c t hc => ?_) hq
  case refine_1 =>
    obtain ⟨n, hn⟩ := mem_liveStates.mp h.follows.start
    rw [kernelIn_start hg] at hc
    obtain ⟨hcore, ht⟩ := covers_singleton.mp hc
    have ht : t = .endOfInput := TerminalSet.mem_singleton.mp ht
    rw [h.fixed hn, ← hcore, ht]
    exact .start
  case refine_2 =>
    obtain ⟨d, hd, hdc, hcovers⟩ := covers_kernelOver.mp <| Covers.subset
      (fun i hi => (mem_kernelIn_targetIn hg hp hx).mp hi) hc
    have htransition : a.transition? (τ p) x = some (τ <| targetIn ctx .lr1 p x) :=
      (h.transition?_eq hg hp).trans <| if_pos hx
    exact hdc ▸ .shifted (h.justifies_closureIn hg hp hi hcovers) hd htransition

theorem justifies (hg : ctx.grammar.WellFormed) (h : a.Unites ctx τ) (hl : a.Looks ctx q c t) :
    a.Justifies ctx q c t := by
  obtain ⟨n, hn, _⟩ := hl.exists_node
  obtain ⟨p, ⟨hp, hpq⟩, hcovers⟩ := (h.looks_iff_exists hn).mp hl
  exact hpq ▸ h.justifies_closureIn hg hp (h.justifies_of_covers_kernelIn hg hp) hcovers

end Unites
end Automaton

variable {ctx : Context} {alg : Algorithm} {a : Automaton} {q : StateId} {c : Core} {t : Terminal}

theorem Propagated.justifies (hg : ctx.grammar.WellFormed) (h : Propagated ctx a)
    (hl : IsLookahead ctx q c t) : a.Justifies ctx q c t := by
  have hfollows := h.follows hg
  have hnode {q : StateId} (hq : q.number < (collection ctx .lr0).length) :
      ∃ n, a.node? q = some n :=
    Automaton.mem_liveStates.mp <| h.live_iff.mpr hq
  induction hl
  case start => exact .start
  case generated hq hcore hd ht =>
    obtain ⟨n, hn⟩ := hnode hq
    rw [← h.closureCores hg hn] at hcore
    exact .generated hn hcore hd ht
  case passed hd hnull hi => exact .passed hi hd hnull
  case shifted hl hx hi =>
    obtain ⟨hq, hcore⟩ := hl.mem_closure hg
    obtain ⟨n, hn⟩ := hnode hq
    refine .shifted hi hx ?_
    rw [hfollows.transition?_eq hn, if_pos <| mem_nextSymbols_closureIn hcore hx]
    rfl

theorem IsOutcome.justifies (hg : ctx.grammar.WellFormed) (h : IsOutcome ctx alg a)
    (halg : alg ≠ .lr0) (hl : a.Looks ctx q c t) : a.Justifies ctx q c t := by
  cases alg
  case lr0               => contradiction
  case lr1               => exact (h.left.unites hg).justifies hg hl
  case lalrByMerging     => exact (Merged.unites hg h).justifies hg hl
  case lalrByPropagation =>
    obtain ⟨n, hn, _⟩ := hl.exists_node
    exact Propagated.justifies hg h <| (Propagated.looks_iff h hn).mp hl

end ShiftReduce
