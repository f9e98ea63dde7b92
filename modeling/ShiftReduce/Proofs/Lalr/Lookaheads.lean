import ShiftReduce.Proofs.Collection.Places

namespace ShiftReduce

open Exploration

-- The lookaheads of an LALR(1) automaton, over the states of the LR(0) collection.
inductive IsLookahead (ctx : Context) : StateId → Core → Terminal → Prop
  | start : IsLookahead ctx .start ⟨.accept, 0⟩ .endOfInput
  | generated {q c d t} :
    q.number < (collection ctx .lr0).length → c ∈ (closureIn ctx .lr0 q).map Item.core →
    d ∈ c.predicted ctx.grammar → t ∈ ctx.first.ofSeq (c.afterNext ctx.grammar) ∅ →
    IsLookahead ctx q d t
  | passed {q c d t} :
    IsLookahead ctx q c t → d ∈ c.predicted ctx.grammar →
    ctx.first.NullableSeq (c.afterNext ctx.grammar) → IsLookahead ctx q d t
  | shifted {q c t x} :
    IsLookahead ctx q c t → c.next? ctx.grammar = some x →
    IsLookahead ctx (targetIn ctx .lr0 q x) c.advance t

variable {ctx : Context} {kernel xs : List Item} {q : StateId} {c d : Core} {t : Terminal}
  {x : Symbol}

namespace IsLookahead

theorem mem_closure (hg : ctx.grammar.WellFormed) (l : IsLookahead ctx q c t) :
    q.number < (collection ctx .lr0).length ∧ c ∈ (closureIn ctx .lr0 q).map Item.core := by
  induction l
  case start =>
    have hlt : StateId.start.number < (collection ctx .lr0).length := length_collection_pos hg
    refine ⟨hlt, List.map_subset _ (completes_closureIn hg hlt).subset.subset ?_⟩
    simp [kernelIn_start hg, Item.start]
  case generated hq hc hd _ =>
    refine ⟨hq, (completes_closureIn hg hq).mem_iff_predicted.mpr <| .step ?_ hd⟩
    exact (completes_closureIn hg hq).mem_iff_predicted.mp hc
  case passed hd _ hi =>
    refine ⟨hi.left, (completes_closureIn hg hi.left).mem_iff_predicted.mpr <| .step ?_ hd⟩
    exact (completes_closureIn hg hi.left).mem_iff_predicted.mp hi.right
  case shifted hx hi =>
    obtain ⟨hq, hc⟩ := hi
    have hsymbol := mem_nextSymbols_closureIn hc hx
    have hlt := targetIn_lt hg hq hsymbol
    refine ⟨hlt, List.map_subset _ (completes_closureIn hg hlt).subset.subset ?_⟩
    exact advance_mem_kernelIn hg hq hc hx

theorem mem_inputTerminals (hg : ctx.grammar.WellFormed) (l : IsLookahead ctx q c t) :
    t ∈ ctx.grammar.vocabulary.inputTerminals := by
  induction l
  case start => exact hg.endOfInput_mem_inputTerminals
  case generated ht => exact ctx.mem_inputTerminals_of_mem_ofSeq hg ht
  case passed hi  => exact hi
  case shifted hi => exact hi

-- What a kernel with these lookaheads looks ahead to is a lookahead again.
theorem of_looksAhead (hg : ctx.grammar.WellFormed) (hq : q.number < (collection ctx .lr0).length)
    (hcores : xs.map Item.core ⊆ (closureIn ctx .lr0 q).map Item.core)
    (hcovers : ∀ c t, Covers xs c t → IsLookahead ctx q c t) (l : LooksAhead ctx xs c t) :
    IsLookahead ctx q c t := by
  induction l
  case kernel hk => exact hcovers _ _ hk
  case passed hd hn hi => exact .passed hi hd hn
  case generated hp hd ht =>
    refine .generated hq ?_ hd ht
    have hcompletes : Completes ctx .lr0 _ _ := completes_closureIn hg hq
    exact hcompletes.mem_iff_predicted.mpr <| hp.mono fun d hd =>
      hcompletes.mem_iff_predicted.mp <| hcores hd

-- What an item generates under the marker, and what it passes on.
theorem of_marked (hg : ctx.grammar.WellFormed) (hq : q.number < (collection ctx .lr0).length)
    (hc : c ∈ (closureIn ctx .lr0 q).map Item.core) (ht : t ≠ .marker)
    (l : LooksAhead ctx [⟨c, some {.marker}⟩] d t) : IsLookahead ctx q d t := by
  have hbare : LooksAhead ctx [⟨c, some ∅⟩] d t := (looksAhead_iff_marked hg ht).mpr <| .inl l
  refine of_looksAhead hg hq (by simpa using hc) ?_ hbare
  exact fun _ _ hk => absurd (covers_singleton.mp hk).right TerminalSet.not_mem_empty

theorem of_marked_passed (hg : ctx.grammar.WellFormed) (h : IsLookahead ctx q c t)
    (l : LooksAhead ctx [⟨c, some {.marker}⟩] d .marker) : IsLookahead ctx q d t := by
  obtain ⟨hq, hc⟩ := h.mem_closure hg
  have hreplaced : LooksAhead ctx [⟨c, some {t}⟩] d t :=
    l.replace_marker hg <| TerminalSet.mem_singleton.mpr rfl
  refine of_looksAhead hg hq (by simpa using hc) (fun c' t' hk => ?_) hreplaced
  obtain ⟨hc', ht'⟩ := covers_singleton.mp hk
  subst hc'
  exact TerminalSet.mem_singleton.mp ht' ▸ h

-- Kernels whose lookaheads are closed under transitions have all lookaheads.
theorem looksAhead {kernels : StateId → List Item} (hg : ctx.grammar.WellFormed)
    (hcores : ∀ q : StateId, q.number < (collection ctx .lr0).length →
      (kernelIn ctx .lr0 q).map Item.core ⊆ (kernels q).map Item.core)
    (hstart : Covers (kernels .start) ⟨.accept, 0⟩ .endOfInput)
    (hclosed : ∀ (q : StateId) d t x, q.number < (collection ctx .lr0).length →
      LooksAhead ctx (kernels q) d t → d.next? ctx.grammar = some x →
      Covers (kernels <| targetIn ctx .lr0 q x) d.advance t)
    (l : IsLookahead ctx q c t) : LooksAhead ctx (kernels q) c t := by
  induction l
  case start => exact .kernel hstart
  case generated hq hc hd ht =>
    have hp := (completes_closureIn hg hq).mem_iff_predicted.mp hc
    exact .generated (hp.subset <| hcores _ hq) hd ht
  case passed hd hn hi => exact .passed hi hd hn
  case shifted h hx hi => exact .kernel <| hclosed _ _ _ _ (h.mem_closure hg).left hi hx

end IsLookahead
end ShiftReduce
