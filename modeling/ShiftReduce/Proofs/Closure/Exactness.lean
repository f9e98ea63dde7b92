import ShiftReduce.Proofs.Closure.Joining

namespace ShiftReduce

open Exploration

-- The lookaheads that the items of a core have together, if there is such an item.
def lookaheadsOf? (items : List Item) (c : Core) : Option TerminalSet :=
  if c ∈ items.map Item.core then
    some <| (items.filter (·.core = c)).foldr (fun i s => i.lookaheadSet ∪ s) ∅
  else
    none

-- The core is there, with at least these lookaheads.
def Grants (family : Core → Option TerminalSet) (c : Core) (lookaheads : TerminalSet) : Prop :=
  ∃ s, family c = some s ∧ lookaheads ⊆ s

structure IsSaturated (ctx : Context) (kernel : List Item) (family : Core → Option TerminalSet) :
    Prop where
  kernel    : ∀ i ∈ kernel, Grants family i.core i.lookaheadSet
  predicted : ∀ {c d s}, family c = some s → d ∈ c.predicted ctx.grammar →
    Grants family d (ctx.first.ofSeq (c.afterNext ctx.grammar) s)

def IsLeastSaturated (ctx : Context) (kernel : List Item) (family : Core → Option TerminalSet) :
    Prop :=
  IsSaturated ctx kernel family ∧
    ∀ family', IsSaturated ctx kernel family' → ∀ c s, family c = some s → Grants family' c s

variable {ctx : Context} {g : Grammar} {kind : ItemKind} {kernel xs ys rest : List Item}
  {s s' : ItemSet} {i : Item} {c : Core} {t : Terminal} {lookaheads : TerminalSet}
  {family : Core → Option TerminalSet}

section Families

theorem lookaheadsOf?_eq_some_iff : lookaheadsOf? xs c = some lookaheads ↔
    c ∈ xs.map Item.core ∧ ∀ t, t ∈ lookaheads ↔ Covers xs c t := by
  have hunion (t : Terminal) :
      t ∈ (xs.filter (·.core = c)).foldr (fun i s => i.lookaheadSet ∪ s) ∅ ↔ Covers xs c t := by
    induction xs
    case nil => simp
    case cons x xs hi =>
      by_cases hx : x.core = c
      case pos => simp [hx, hi, covers_cons]
      case neg => simp [hx, hi, covers_cons]
  unfold lookaheadsOf?
  split
  case isTrue hc =>
    simp only [Option.some.injEq, hc, true_and, ← hunion]
    exact ⟨fun he t => he ▸ Iff.rfl, fun he => TerminalSet.ext_mem fun t => (he t).symm⟩
  case isFalse hc => simp [hc]

theorem lookaheadsOf?_eq_none_iff : lookaheadsOf? xs c = none ↔ c ∉ xs.map Item.core := by
  simp [lookaheadsOf?]

theorem exists_lookaheadsOf? (hc : c ∈ xs.map Item.core) : ∃ s, lookaheadsOf? xs c = some s :=
  Option.ne_none_iff_exists'.mp fun hn => lookaheadsOf?_eq_none_iff.mp hn hc

-- Two lists with the same cores and the same lookaheads give the same family.
theorem lookaheadsOf?_congr (hcores : ∀ c, c ∈ xs.map Item.core ↔ c ∈ ys.map Item.core)
    (hcovers : ∀ c t, Covers xs c t ↔ Covers ys c t) : lookaheadsOf? xs = lookaheadsOf? ys := by
  funext c
  refine Option.ext fun s => ?_
  simp only [lookaheadsOf?_eq_some_iff, hcores, hcovers]

theorem grants_lookaheadsOf?_iff : Grants (lookaheadsOf? xs) c lookaheads ↔
    c ∈ xs.map Item.core ∧ ∀ t ∈ lookaheads, Covers xs c t := by
  constructor
  case mp =>
    rintro ⟨s, hs, hsub⟩
    obtain ⟨hc, hcovers⟩ := lookaheadsOf?_eq_some_iff.mp hs
    exact ⟨hc, fun t ht => (hcovers t).mp <| TerminalSet.subset_iff.mp hsub t ht⟩
  case mpr =>
    rintro ⟨hc, hcovers⟩
    obtain ⟨s, hs⟩ := exists_lookaheadsOf? hc
    refine ⟨s, hs, TerminalSet.subset_iff.mpr fun t ht => ?_⟩
    exact ((lookaheadsOf?_eq_some_iff.mp hs).right t).mpr <| hcovers t ht

namespace IsSaturated

theorem grants_of_predicted (h : IsSaturated ctx kernel family)
    (p : Predicted ctx.grammar (kernel.map Item.core) c) : Grants family c ∅ := by
  have hempty {s : TerminalSet} : ∅ ⊆ s := TerminalSet.subset_iff.mpr fun t ht => by simp at ht
  induction p
  case start hc =>
    obtain ⟨i, hi, hic⟩ := List.mem_map.mp hc
    obtain ⟨s, hs, _⟩ := h.kernel i hi
    exact ⟨s, hic ▸ hs, hempty⟩
  case step hd hi =>
    obtain ⟨s, hs, _⟩ := hi
    obtain ⟨s', hs', _⟩ := h.predicted hs hd
    exact ⟨s', hs', hempty⟩

theorem grants_of_looksAhead (h : IsSaturated ctx kernel family)
    (l : LooksAhead ctx kernel c t) : ∃ s, family c = some s ∧ t ∈ s := by
  induction l
  case kernel hc =>
    obtain ⟨i, hi, hic, ht⟩ := hc
    obtain ⟨s, hs, hsub⟩ := h.kernel i hi
    exact ⟨s, hic ▸ hs, TerminalSet.subset_iff.mp hsub _ ht⟩
  case generated hp hd ht =>
    obtain ⟨s, hs, _⟩ := h.grants_of_predicted hp
    obtain ⟨s', hs', hsub⟩ := h.predicted hs hd
    exact ⟨s', hs', TerminalSet.subset_iff.mp hsub _ <| FirstSets.mem_ofSeq.mpr <| .inl ht⟩
  case passed hd hn hi =>
    obtain ⟨s, hs, ht⟩ := hi
    obtain ⟨s', hs', hsub⟩ := h.predicted hs hd
    exact ⟨s', hs', TerminalSet.subset_iff.mp hsub _ <| FirstSets.mem_ofSeq.mpr <| .inr ⟨hn, ht⟩⟩

end IsSaturated

-- Items that are all expanded grant all that they predict.
theorem isSaturated_of_expanded (hk : kernel ⊆ xs) (hkinds : ∀ i ∈ xs, i.kind = .lr1)
    (hx : ∀ i ∈ xs, ∀ j ∈ i.predictions ctx, IsPresent xs j) :
    IsSaturated ctx kernel (lookaheadsOf? xs) := by
  constructor
  case kernel =>
    intro i hi
    refine grants_lookaheadsOf?_iff.mpr ⟨List.mem_map_of_mem <| hk hi, fun t ht => ?_⟩
    exact ⟨i, hk hi, rfl, ht⟩
  case predicted =>
    intro c d lookaheads hc hd
    obtain ⟨hmem, hcovers⟩ := lookaheadsOf?_eq_some_iff.mp hc
    refine grants_lookaheadsOf?_iff.mpr ⟨?_, fun t ht => ?_⟩
    · obtain ⟨i, hi, rfl⟩ := List.mem_map.mp hmem
      rw [← map_core_predictions] at hd
      obtain ⟨j, hj, rfl⟩ := List.mem_map.mp hd
      exact (hx i hi j hj).core
    · have hpassed {i : Item} (hi : i ∈ xs) (hic : i.core = c)
          (ht : t ∈ ctx.first.ofSeq (c.afterNext ctx.grammar) i.lookaheadSet) : Covers xs d t := by
        subst hic
        refine covers_of_covers_predictions (hx i hi) <| covers_predictions.mpr ⟨hd, _, ?_, ht⟩
        exact lookaheads_eq_some <| hkinds i hi
      cases FirstSets.mem_ofSeq.mp ht
      case inl hg =>
        obtain ⟨i, hi, hic⟩ := List.mem_map.mp hmem
        exact hpassed hi hic <| FirstSets.mem_ofSeq.mpr <| .inl hg
      case inr hn =>
        obtain ⟨i, hi, hic, hti⟩ := (hcovers t).mp hn.right
        exact hpassed hi hic <| FirstSets.mem_ofSeq.mpr <| .inr ⟨hn.left, hti⟩

theorem Closing.isLeastSaturated (cl : Closing ctx .lr1 kernel s) (hclosed : s.closed = true) :
    IsLeastSaturated ctx kernel (lookaheadsOf? s.closure) := by
  have htake := List.take_of_length_le <| cl.closed_iff.mp hclosed
  refine ⟨?_, fun family' h c lookaheads hc => ?_⟩
  · refine isSaturated_of_expanded cl.subset.subset cl.kinds fun i hi => ?_
    exact cl.expanded i <| htake.symm ▸ hi
  · obtain ⟨hmem, hcovers⟩ := lookaheadsOf?_eq_some_iff.mp hc
    obtain ⟨s', hs', _⟩ := h.grants_of_predicted <| (cl.mem_iff_predicted hclosed).mp hmem
    refine ⟨s', hs', TerminalSet.subset_iff.mpr fun t ht => ?_⟩
    have hl := (cl.covers_iff_looksAhead hclosed).mp <| (hcovers t).mp ht
    obtain ⟨s'', hs'', ht⟩ := h.grants_of_looksAhead hl
    cases hs'.symm.trans hs''
    exact ht

end Families

section Joined

theorem lookaheadsOf?_joinByCore (h : ∀ i ∈ rest, i.kind = .lr1) :
    lookaheadsOf? (kernel ++ joinByCore rest) = lookaheadsOf? (kernel ++ rest) := by
  obtain ⟨hcores, _, hcovers⟩ := joinByCore_spec h
  refine lookaheadsOf?_congr (fun c => ?_) fun c t => ?_
  · rw [List.map_append, List.map_append, List.mem_append, List.mem_append, hcores, mem_firsts_id]
  · rw [covers_append, covers_append, hcovers]

end Joined

section Steps

-- What holds of an item set and is kept by its closure steps holds of what the steps come to.
theorem computeClosureFor_induction {P : ItemSet → Prop}
    (hstep : ∀ {s s' step}, P s → s.closureStep ctx kind = .ok (s', step) → P s') (hs : P s)
    (fuel : Nat) : P (s.computeClosureFor ctx kind fuel).1 := by
  induction fuel generalizing s
  case zero => exact hs
  case succ fuel hi =>
    rw [ItemSet.computeClosureFor]
    split
    case h_1      => exact hs
    case h_2 heq  => exact hstep hs heq
    case h_3 heq  => exact hi (hstep hs heq)

-- A closure step expands the next item, or all it can do is to close the closure.
theorem closureStep_cases {step : ClosureStep} (h : s.closureStep ctx kind = .ok (s', step)) :
    (s' = { s with closed := true } ∧ (s.closed = true ∨ s.closure.length ≤ s.searched)) ∨
      ∃ i, s.closure[s.searched]? = some i ∧ i.kind = kind ∧
        s'.closure = (discoverAll s.closure (i.predictions ctx)).1 ∧
        s'.searched = s.searched + 1 ∧
        (s'.accepting = true ↔ s.accepting = true ∨ i.IsEnd ctx.grammar) ∧
        (s'.final = true ↔
          s.final = true ∨ (i.IsEnd ctx.grammar ∧ ctx.grammar.left i.rule = .accept)) ∧
        s.closed = false ∧ s'.kernel = s.kernel ∧
        (s'.closed = true ↔ s'.closure.length ≤ s'.searched) := by
  unfold ItemSet.closureStep at h
  split at h
  case isTrue hclosed =>
    cases h
    exact .inl ⟨by rw [← hclosed], .inl hclosed⟩
  case isFalse hopen =>
    split at h
    case h_1 hnone =>
      cases h
      exact .inl ⟨rfl, .inr <| List.getElem?_eq_none_iff.mp hnone⟩
    case h_2 i hi =>
      split at h
      case isTrue => cases h
      case isFalse hkind =>
        cases h
        exact .inr ⟨i, hi, by simpa using hkind, rfl, rfl, by simp, by simp, by simpa using hopen,
          rfl, by simp⟩

end Steps

section Flags

-- The flags tell of the items that have been expanded.
structure IsFlagged (g : Grammar) (s : ItemSet) : Prop where
  accepting : s.accepting = true ↔ ∃ i ∈ s.closure.take s.searched, i.IsEnd g
  final     : s.final = true ↔
    ∃ i ∈ s.closure.take s.searched, i.IsEnd g ∧ g.left i.rule = .accept

namespace IsFlagged

-- A set that is born closed has nothing but items at their ends.
theorem init : IsFlagged g (.ofKernel g kernel) := by
  unfold ItemSet.ofKernel
  split
  case isFalse => exact ⟨by simp, by simp⟩
  case isTrue hall =>
    have hend (i : Item) (hi : i ∈ kernel) : i.IsEnd g :=
      of_decide_eq_true <| List.all_eq_true.mp hall i hi
    clear hall
    constructor
    case accepting =>
      cases kernel
      case nil           => simp
      case cons i kernel => simpa using .inl <| hend i <| .head _
    case final =>
      simp only [List.any_eq_true, decide_eq_true_eq, List.take_length]
      exact exists_congr fun i => ⟨fun ⟨hi, ha⟩ => ⟨hi, hend i hi, ha⟩, .imp_right And.right⟩

theorem step {step : ClosureStep} (h : IsFlagged ctx.grammar s)
    (hstep : s.closureStep ctx kind = .ok (s', step)) : IsFlagged ctx.grammar s' := by
  obtain ⟨rfl, _⟩ | ⟨i, hi, _, hclosure, hsearched, haccepting, hfinal, _⟩ :=
    closureStep_cases hstep
  case inl => exact ⟨h.accepting, h.final⟩
  case inr =>
    have hlt : s.searched < s.closure.length := (List.getElem?_eq_some_iff.mp hi).choose
    have htake : s'.closure.take s'.searched = s.closure.take s.searched ++ [i] := by
      rw [hclosure, hsearched, take_of_isPrefix discoverAll_extends.subset hlt, List.take_add_one,
        hi, Option.toList_some]
    constructor
    case accepting => simp [haccepting, h.accepting, htake, or_and_right, exists_or]
    case final     => simp [hfinal, h.final, htake, or_and_right, exists_or]

theorem computeClosure (ctx : Context) (kind : ItemKind) (kernel : List Item) :
    IsFlagged ctx.grammar ((ItemSet.ofKernel ctx.grammar kernel).computeClosure ctx kind).1 :=
  computeClosureFor_induction step init _

end IsFlagged

-- In a closure only the accept rule has the accept symbol on its left side.
theorem Closing.rules (cl : Closing ctx kind kernel s)
    (hk : ∀ i ∈ kernel, (ctx.grammar.rule? i.rule).isSome) (hi : i ∈ s.closure) :
    (ctx.grammar.rule? i.rule).isSome :=
  (cl.predicted i hi).isSome_rule? <| List.forall_mem_map.mpr hk

theorem Closing.flags (h : ctx.grammar.WellFormed) (cl : Closing ctx kind kernel s)
    (hclosed : s.closed = true) (hk : ∀ i ∈ kernel, (ctx.grammar.rule? i.rule).isSome)
    (hf : IsFlagged ctx.grammar s) :
    (s.accepting = true ↔ ∃ i ∈ s.closure, i.IsEnd ctx.grammar) ∧
      (s.final = true ↔ ∃ i ∈ s.closure, i.IsEnd ctx.grammar ∧ i.rule = .accept) := by
  have htake := List.take_of_length_le <| cl.closed_iff.mp hclosed
  have ⟨haccepting, hfinal⟩ := hf
  rw [htake] at haccepting hfinal
  refine ⟨haccepting, hfinal.trans <| exists_congr fun i => and_congr_right fun hi => ?_⟩
  rw [h.left_eq_accept_iff <| cl.rules hk hi]

end Flags

section Lr0

-- Behind the kernel, every core is new when it is added.
def IsDistinct (kernel : List Item) (s : ItemSet) : Prop :=
  ∃ rest, s.closure = kernel ++ rest ∧ (rest.map Item.core).Nodup ∧
    ∀ i ∈ rest, i.core ∉ kernel.map Item.core

theorem IsDistinct.init : IsDistinct kernel (.ofKernel g kernel) :=
  ⟨[], by simp⟩

-- Discovered items without lookaheads are new, each with a core of its own.
theorem exists_added_eq (xs : List Item) (h : ∀ i ∈ ys, i.kind = .lr0) : ∃ added,
    (discoverAll xs ys).1 = xs ++ added ∧ (added.map Item.core).Nodup ∧
      ∀ i ∈ added, i.core ∉ xs.map Item.core := by
  induction ys generalizing xs
  case nil => exact ⟨[], by simp [discoverAll]⟩
  case cons y ys hi =>
    obtain ⟨hy, hys⟩ := List.forall_mem_cons.mp h
    obtain ⟨added, heq, hnodup, hnew⟩ := hi (discover xs y).1 hys
    have heq : (discoverAll xs (y :: ys)).1 = _ := heq
    obtain ⟨hsame, _⟩ | ⟨trimmed, hadd, ht⟩ := discover_cases xs y
    case inl =>
      rw [hsame] at heq hnew
      exact ⟨added, heq, hnodup, hnew⟩
    case inr =>
      have hempty : trimmed.lookaheadSet = ∅ := lookaheadSet_eq_empty <| ht.kind.trans hy
      have hfresh : trimmed.core ∉ xs.map Item.core := by
        intro hm
        obtain ⟨t, ht⟩ := ht.fresh (ht.core ▸ hm)
        simp [hempty] at ht
      rw [hadd] at heq hnew
      refine ⟨trimmed :: added, by simpa using heq, ?_, ?_⟩
      · refine List.nodup_cons.mpr ⟨fun hm => ?_, hnodup⟩
        obtain ⟨i, hi, hic⟩ := List.mem_map.mp hm
        exact hnew i hi <| by simp [hic]
      · refine List.forall_mem_cons.mpr ⟨hfresh, fun i hi hm => hnew i hi ?_⟩
        rw [List.map_append]
        exact List.mem_append_left _ hm

theorem IsDistinct.step {step : ClosureStep} (h : IsDistinct kernel s)
    (hstep : s.closureStep ctx .lr0 = .ok (s', step)) : IsDistinct kernel s' := by
  obtain ⟨rfl, _⟩ | ⟨i, _, hi, hclosure, _⟩ := closureStep_cases hstep
  case inl => exact h
  case inr =>
    obtain ⟨rest, hrest, hnodup, hnew⟩ := h
    obtain ⟨added, hadded, hnodup', hnew'⟩ := exists_added_eq s.closure
      fun j (hj : j ∈ i.predictions ctx) => (kind_of_mem_predictions hj).trans hi
    have hdisjoint (j : Item) (hj : j ∈ added) :
        j.core ∉ kernel.map Item.core ∧ j.core ∉ rest.map Item.core := by
      simpa [hrest, not_or] using hnew' j hj
    refine ⟨rest ++ added, by rw [hclosure, hadded, hrest, List.append_assoc], ?_, ?_⟩
    · rw [List.map_append]
      refine hnodup.append hnodup' fun c hc hc' => ?_
      obtain ⟨j, hj, hjc⟩ := List.mem_map.mp hc'
      exact (hdisjoint j hj).right <| hjc ▸ hc
    · intro j hj
      exact List.mem_append.mp hj |>.elim (hnew j) fun hj => (hdisjoint j hj).left

theorem IsDistinct.computeClosure (ctx : Context) (kernel : List Item) :
    IsDistinct kernel ((ItemSet.ofKernel ctx.grammar kernel).computeClosure ctx .lr0).1 :=
  computeClosureFor_induction step init _

-- Behind the kernel comes what is predicted and not in the kernel.
theorem Closing.mem_rest_iff (cl : Closing ctx .lr0 kernel s) (hclosed : s.closed = true)
    (hrest : s.closure = kernel ++ rest) (hnew : ∀ i ∈ rest, i.core ∉ kernel.map Item.core) :
    i ∈ rest ↔ i.kind = .lr0 ∧ i ∉ kernel ∧
      ∃ c, Predicted ctx.grammar (kernel.map Item.core) c ∧ i.core ∈ c.predicted ctx.grammar := by
  constructor
  case mp =>
    intro hi
    have hmem : i ∈ s.closure := hrest ▸ List.mem_append_right _ hi
    refine ⟨cl.kinds i hmem, fun hk => hnew i hi <| List.mem_map_of_mem hk, ?_⟩
    cases cl.predicted i hmem
    case start hc   => exact absurd hc <| hnew i hi
    case step hp hd => exact ⟨_, hp, hd⟩
  case mpr =>
    rintro ⟨hkind, hk, c, hp, hd⟩
    obtain ⟨j, hj, hji⟩ := List.mem_map.mp <| (cl.mem_iff_predicted hclosed).mpr <| .step hp hd
    have he : [j] = [i] := by
      refine eq_of_cores ?_ ?_ (by simpa using hji)
      · simpa using cl.kinds j hj
      · simpa using hkind
    cases he
    exact (List.mem_append.mp (hrest ▸ hj)).resolve_left hk

end Lr0

-- Every kernel has a complete closure, and it is exact.
theorem closure_exact (h : ctx.grammar.IsDefined)
    (hk : ∀ i ∈ kernel, i.kind = kind ∧ (ctx.grammar.rule? i.rule).isSome) :
    ∃ s steps rest, (ItemSet.ofKernel ctx.grammar kernel).computeClosure ctx kind = (s, .ok steps) ∧
      s.closed = true ∧ s.closure = kernel ++ rest ∧
      (s.accepting = true ↔ ∃ i ∈ s.closure, i.IsEnd ctx.grammar) ∧
      (s.final = true ↔ ∃ i ∈ s.closure, i.IsEnd ctx.grammar ∧ i.rule = .accept) ∧
      match kind with
      | .lr1 => IsLeastSaturated ctx kernel (lookaheadsOf? s.closure) ∧
          ∃ merged, s.mergeLookaheads.1.closure = kernel ++ merged ∧
            lookaheadsOf? (kernel ++ merged) = lookaheadsOf? s.closure ∧
            (merged.map Item.core).Nodup ∧
            merged.map Item.core = firsts id (rest.map Item.core)
      | .lr0 => rest.Nodup ∧ ∀ i, i ∈ rest ↔ i.kind = .lr0 ∧ i ∉ kernel ∧
          ∃ c, Predicted ctx.grammar (kernel.map Item.core) c ∧
            i.core ∈ c.predicted ctx.grammar := by
  have hg := h.wellFormed
  obtain ⟨s, steps, hrun, cl, hclosed⟩ := computeClosure_ofKernel hg fun i hi => (hk i hi).left
  have hflagged : IsFlagged ctx.grammar s := by
    simpa only [hrun] using IsFlagged.computeClosure ctx kind kernel
  obtain ⟨haccepting, hfinal⟩ := cl.flags hg hclosed (fun i hi => (hk i hi).right) hflagged
  cases kind
  case lr1 =>
    obtain ⟨rest, hrest, _⟩ := cl.parts
    have hkinds (i : Item) (hi : i ∈ rest) : i.kind = .lr1 :=
      cl.kinds i <| hrest ▸ List.mem_append_right _ hi
    have hcores := (joinByCore_spec hkinds).left
    refine ⟨s, steps, rest, hrun, hclosed, hrest, haccepting, hfinal,
      cl.isLeastSaturated hclosed, joinByCore rest,
      mergeLookaheads_closure_eq cl.kernel_eq hrest, ?_, ?_, hcores⟩
    · rw [lookaheadsOf?_joinByCore hkinds, hrest]
    · have hnodup : ((firsts id (rest.map Item.core)).map id).Nodup := nodup_firsts
      rwa [List.map_id, ← hcores] at hnodup
  case lr0 =>
    obtain ⟨rest, hrest, hnodup, hnew⟩ : IsDistinct kernel s := by
      simpa only [hrun] using IsDistinct.computeClosure ctx kernel
    exact ⟨s, steps, rest, hrun, hclosed, hrest, haccepting, hfinal, .of_map _ hnodup,
      fun _ => cl.mem_rest_iff hclosed hrest hnew⟩

-- A kernel with a repeated core, which is also what its items predict.
theorem closure_exact_on_repetition : Grammar.repetition.IsDefined ∧
    let ctx := Context.ofGrammar .repetition
    let kernel : List Item :=
      [⟨⟨⟨1⟩, 0⟩, some {.endOfInput}⟩, ⟨⟨⟨1⟩, 0⟩, some {⟨2⟩}⟩]
    (∀ i ∈ kernel, i.kind = .lr1 ∧ (ctx.grammar.rule? i.rule).isSome) ∧
      ∃ s steps, (ItemSet.ofKernel ctx.grammar kernel).computeClosure ctx .lr1 = (s, .ok steps) ∧
        s.closure.length = 3 ∧ (∃ i ∈ s.closure, i.IsEnd ctx.grammar) ∧
        IsLeastSaturated ctx kernel (lookaheadsOf? s.closure) := by
  have h := Grammar.repetition_isDefined
  refine ⟨h, ?_⟩
  intro ctx kernel
  have hk : ∀ i ∈ kernel, i.kind = .lr1 ∧ (ctx.grammar.rule? i.rule).isSome := by decide +kernel
  obtain ⟨s, steps, _, hrun, _, _, haccepting, _, hleast, _⟩ := @closure_exact ctx .lr1 kernel h hk
  refine ⟨hk, s, steps, hrun, ?_, haccepting.mp ?_, hleast⟩
  · have hlength :
        ((ItemSet.ofKernel ctx.grammar kernel).computeClosure ctx .lr1).1.closure.length = 3 := by
      decide +kernel
    rwa [hrun] at hlength
  · have haccepts :
        ((ItemSet.ofKernel ctx.grammar kernel).computeClosure ctx .lr1).1.accepting = true := by
      decide +kernel
    rwa [hrun] at haccepts

end ShiftReduce
