import ShiftReduce.Proofs.Closure.Exactness

namespace ShiftReduce

structure Item.Fits (P : Terminal → Prop) (kind : ItemKind) (i : Item) : Prop where
  kind       : i.kind = kind
  lookaheads : ∀ t ∈ i.lookaheadSet, P t

-- Items of one kind, with lookaheads among the given terminals.
structure ItemSet.Fits (P : Terminal → Prop) (kind : ItemKind) (s : ItemSet) : Prop where
  kernel  : ∀ i ∈ s.kernel, i.Fits P kind
  closure : ∀ i ∈ s.closure, i.Fits P kind

variable {ctx : Context} {g : Grammar} {P : Terminal → Prop} {kind : ItemKind} {i j : Item}
  {xs ys items : List Item} {s s' : ItemSet} {lookaheads : TerminalSet}

theorem Item.eq_of_make_eq_ok {r : RuleId} {dot : Nat} {lookaheads : Option TerminalSet}
    (h : Item.make g r dot lookaheads = .ok i) : i = ⟨⟨r, dot⟩, lookaheads⟩ := by
  unfold Item.make at h
  split at h
  case h_1 => cases h
  case h_2 =>
    split at h
    case isTrue  => cases h; rfl
    case isFalse => cases h

namespace Item.Fits

theorem advance (h : i.Fits P kind) : i.advance.Fits P kind :=
  ⟨h.kind, h.lookaheads⟩

theorem promote (h : i.Fits P kind) : i.promote.Fits P .lr1 :=
  ⟨rfl, h.lookaheads⟩

theorem join (h : i.Fits P kind) (hj : ∀ t ∈ j.lookaheadSet, P t) : (i.join j).Fits P kind where
  kind            := kind_join.trans h.kind
  lookaheads t ht := (mem_or_mem_of_mem_join ht).elim (h.lookaheads t) (hj t)

theorem predictions (hg : ctx.grammar.WellFormed)
    (hP : ∀ t ∈ ctx.grammar.vocabulary.inputTerminals, P t) (h : i.Fits P kind) :
    ∀ j ∈ i.predictions ctx, j.Fits P kind := by
  refine fun j hj => ⟨(kind_of_mem_predictions hj).trans h.kind, fun t ht => ?_⟩
  obtain ⟨_, lookaheads, hl, ht⟩ := covers_predictions.mp ⟨j, hj, rfl, ht⟩
  cases FirstSets.mem_ofSeq.mp ht
  case inl hbegins => exact hP t <| ctx.mem_inputTerminals_of_mem_ofSeq hg hbegins
  case inr hpassed => exact h.lookaheads t <| by simpa [Item.lookaheadSet, hl] using hpassed.right

end Item.Fits

-- A discovered item is of the kind that it was predicted with, and shows nothing else.
theorem Extends.fits (h : Extends xs items ys) (hx : ∀ i ∈ xs, i.Fits P kind)
    (hi : ∀ i ∈ items, i.Fits P kind) : ∀ i ∈ ys, i.Fits P kind := by
  refine fun i hmem => ⟨?_, fun t ht => ?_⟩
  case refine_1 =>
    cases h.mem hmem
    case inl hmem => exact (hx i hmem).kind
    case inr hmem =>
      obtain ⟨j, hj, _, hkind⟩ := hmem
      exact hkind.trans (hi j hj).kind
  case refine_2 =>
    obtain ⟨j, hj, _, ht⟩ | ⟨j, hj, _, ht⟩ := (h.covers i.core t).mp ⟨i, hmem, rfl, ht⟩
    case inl => exact (hx j hj).lookaheads t ht
    case inr => exact (hi j hj).lookaheads t ht

namespace ItemSet.Fits

theorem ofKernel (h : ∀ i ∈ xs, i.Fits P kind) : (ItemSet.ofKernel g xs).Fits P kind :=
  ⟨by simpa using h, by simpa using h⟩

theorem closureStep {kind' : ItemKind} {step : ClosureStep} (hg : ctx.grammar.WellFormed)
    (hP : ∀ t ∈ ctx.grammar.vocabulary.inputTerminals, P t) (h : s.Fits P kind)
    (hstep : s.closureStep ctx kind' = .ok (s', step)) : s'.Fits P kind := by
  obtain ⟨rfl, _⟩ | ⟨i, hi, _, hclosure, _, _, _, _, hkernel, _⟩ := closureStep_cases hstep
  case inl => exact ⟨h.kernel, h.closure⟩
  case inr =>
    have hitem := h.closure i <| List.mem_of_getElem? hi
    refine ⟨hkernel ▸ h.kernel, ?_⟩
    exact hclosure ▸ discoverAll_extends.fits h.closure (hitem.predictions hg hP)

theorem computeClosure {kind' : ItemKind} (hg : ctx.grammar.WellFormed)
    (hP : ∀ t ∈ ctx.grammar.vocabulary.inputTerminals, P t) (h : s.Fits P kind) :
    (s.computeClosure ctx kind').1.Fits P kind :=
  computeClosureFor_induction (closureStep hg hP) h _

theorem mergeLookaheads (h : s.Fits P kind) : s.mergeLookaheads.1.Fits P kind where
  kernel       := h.kernel
  closure i hi := by
    cases List.mem_append.mp hi
    case inl hi => exact h.closure i <| List.mem_of_mem_take hi
    case inr hi =>
      refine forall_mem_joinByCore (fun j hj => h.closure j <| List.mem_of_mem_drop hj) ?_ i hi
      exact fun i j hi hj => hi.join hj.lookaheads

theorem absorb {other : ItemSet} (h : s.Fits P kind) (h' : other.Fits P kind) :
    (s.absorb other).Fits P kind where
  kernel  := forall_mem_foldl_joinFirst h.kernel fun _ hi j hj =>
    hi.join (h'.kernel j hj).lookaheads
  closure := forall_mem_foldl_joinFirst h.closure fun _ hi j hj =>
    hi.join (h'.closure j hj).lookaheads

theorem promote (h : s.Fits P kind) : s.promote.Fits P .lr1 where
  kernel  := List.forall_mem_map.mpr fun i hi => (h.kernel i hi).promote
  closure := List.forall_mem_map.mpr fun i hi => (h.closure i hi).promote

theorem addLookaheads {index : Nat} (h : s.Fits P kind) (hl : ∀ t ∈ lookaheads, P t) :
    (s.addLookaheads index lookaheads).Fits P kind where
  kernel  := forall_mem_modify h.kernel fun _ hi => hi.join hl
  closure := h.closure

end ItemSet.Fits
end ShiftReduce
