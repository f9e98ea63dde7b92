import Mathlib.Data.Finset.Option
import Mathlib.Data.Finset.Prod
import ShiftReduce.Proofs.Closure.Discovery

namespace ShiftReduce

open Exploration

variable {ctx : Context} {kind : ItemKind} {kernel : List Item} {s : ItemSet} {i j : Item}
  {c d : Core} {t : Terminal}

theorem covers_predictions : Covers (i.predictions ctx) d t ↔
    d ∈ i.core.predicted ctx.grammar ∧ ∃ lookaheads, i.lookaheads = some lookaheads ∧
      t ∈ ctx.first.ofSeq (i.core.afterNext ctx.grammar) lookaheads := by
  simp only [Covers, predictions_eq, List.mem_map]
  constructor
  case mp =>
    rintro ⟨j, ⟨d', hd, hj⟩, hc, ht⟩
    subst hj hc
    cases hl : i.lookaheads <;> simp_all [Item.lookaheadSet]
  case mpr =>
    rintro ⟨hd, lookaheads, hl, ht⟩
    exact ⟨_, ⟨d, hd, rfl⟩, rfl, by simpa [Item.lookaheadSet, hl] using ht⟩

theorem kind_of_mem_predictions (h : j ∈ i.predictions ctx) : j.kind = i.kind := by
  simp only [predictions_eq, List.mem_map] at h
  obtain ⟨_, _, hj⟩ := h
  simp [← hj, Item.kind]

-- The cores and lookaheads that the closure of a kernel can add.
def closureMarks (ctx : Context) (kernel : List Item) : Finset (Core × Option Terminal) :=
  (ctx.grammar.ruleIds.map fun r => (⟨r, 0⟩ : Core)).toFinset ×ˢ Finset.insertNone
    (ctx.grammar.vocabulary.terminalIds ++ kernel.flatMap (·.lookaheadSet.toList)).toFinset

-- The closure between two steps. The items below `searched` have been expanded.
structure Closing (ctx : Context) (kind : ItemKind) (kernel : List Item) (s : ItemSet) : Prop where
  kernel_eq   : s.kernel = kernel
  parts       : ∃ rest, s.closure = kernel ++ rest ∧
    ∀ i ∈ rest, ∃ d : Core, i.core ∈ d.predicted ctx.grammar
  kinds       : ∀ i ∈ s.closure, i.kind = kind
  predicted   : ∀ i ∈ s.closure, Predicted ctx.grammar (kernel.map Item.core) i.core
  looksAhead  : ∀ c t, Covers s.closure c t → LooksAhead ctx kernel c t
  expanded    : ∀ i ∈ s.closure.take s.searched, ∀ j ∈ i.predictions ctx, IsPresent s.closure j
  tracks      : Tracks id (Core.predicted ctx.grammar) (firsts id (kernel.map Item.core))
    (s.closure.map Item.core) s.searched
  nodup       : kind = .lr0 → (kernel.map Item.core).Nodup → (s.closure.map Item.core).Nodup
  closed_iff  : s.closed = true ↔ s.closure.length ≤ s.searched
  searched_le : s.searched ≤ s.closure.length
  length_le   : s.closure.length ≤ kernel.length + marks (closureMarks ctx kernel) s.closure

namespace Extends

variable {xs ys items : List Item}

theorem isPresent_of_mem (h : Extends xs items ys) (hj : j ∈ items) : IsPresent ys j where
  core        := (h.cores _).mpr <| .inr <| List.mem_map_of_mem hj
  covers _ ht := (h.covers _ _).mpr <| .inr ⟨j, hj, rfl, ht⟩

theorem isPresent (h : Extends xs items ys) (hj : IsPresent xs j) : IsPresent ys j where
  core        := (h.cores _).mpr <| .inl hj.core
  covers t ht := (h.covers _ _).mpr <| .inl <| hj.covers t ht

-- Once the next item has been expanded, the predictions of one item more are there.
theorem expanded {k : Nat} (h : Extends xs (i.predictions ctx) ys) (hi : xs[k]? = some i)
    (hx : ∀ i ∈ xs.take k, ∀ j ∈ i.predictions ctx, IsPresent xs j) :
    ∀ i ∈ ys.take (k + 1), ∀ j ∈ i.predictions ctx, IsPresent ys j := by
  have hlt : k < xs.length := (List.getElem?_eq_some_iff.mp hi).choose
  intro i' hi' j hj
  rw [take_of_isPrefix h.subset hlt, List.take_add_one, hi] at hi'
  cases List.mem_append.mp hi'
  case inl hi' => exact h.isPresent <| hx i' hi' j hj
  case inr hi' =>
    cases List.mem_singleton.mp hi'
    exact h.isPresent_of_mem hj

-- What the expansion of an item adds is predicted by it.
theorem mem_or_predicted (h : Extends xs (i.predictions ctx) ys) (hj : j ∈ ys) :
    j ∈ xs ∨ (j.core ∈ i.core.predicted ctx.grammar ∧ j.kind = i.kind) := by
  refine (h.mem hj).imp_right ?_
  rintro ⟨k, hk, hcore, hkind⟩
  refine ⟨?_, hkind.trans <| kind_of_mem_predictions hk⟩
  exact hcore ▸ map_core_predictions ▸ List.mem_map_of_mem hk

end Extends

-- The closure covers what its expanded items predict.
theorem covers_of_covers_predictions {xs : List Item}
    (hx : ∀ j ∈ i.predictions ctx, IsPresent xs j) (hc : Covers (i.predictions ctx) d t) :
    Covers xs d t := by
  obtain ⟨j, hj, hjd, ht⟩ := hc
  exact hjd ▸ (hx j hj).covers t ht

theorem predicted_eq_nil (h : c.IsEnd ctx.grammar) : c.predicted ctx.grammar = [] := by
  simp [Core.predicted, Core.next?_eq_none_iff.mpr h]

namespace Closing

theorem subset (cl : Closing ctx kind kernel s) : kernel <+: s.closure := by
  obtain ⟨rest, hrest, _⟩ := cl.parts
  exact ⟨rest, hrest.symm⟩

theorem init (hk : ∀ i ∈ kernel, i.kind = kind) :
    Closing ctx kind kernel (.ofKernel ctx.grammar kernel) where
  kernel_eq   := by simp
  parts       := ⟨[], by simp, by simp⟩
  kinds       := by simpa using hk
  predicted i hi := .start <| List.mem_map_of_mem (by simpa using hi)
  looksAhead c t hc := .kernel <| by simpa using hc
  expanded    := by
    unfold ItemSet.ofKernel
    split
    case isTrue hend =>
      intro i hi j hj
      have hi := of_decide_eq_true <| List.all_eq_true.mp hend i <| List.mem_of_mem_take hi
      simp [predictions_eq, predicted_eq_nil hi] at hj
    case isFalse => simp
  tracks      := by
    unfold ItemSet.ofKernel
    split
    case isTrue hend =>
      refine .of_next_eq_nil ?_ (by simp)
      intro c hc
      obtain ⟨i, hi, hic⟩ := List.mem_map.mp hc
      exact hic ▸ predicted_eq_nil (of_decide_eq_true <| List.all_eq_true.mp hend i hi)
    case isFalse => exact .init
  nodup _ hn  := by simpa using hn
  closed_iff  := by
    unfold ItemSet.ofKernel
    split
    case isTrue => simp
    case isFalse hend =>
      have hne : kernel ≠ [] := fun he => hend <| by simp [he]
      simpa using hne
  searched_le := by
    unfold ItemSet.ofKernel
    split <;> simp
  length_le   := by simp

-- The predictions of an item in the closure are among what the kernel predicts.
theorem looksAhead_predictions (cl : Closing ctx kind kernel s) (hi : i ∈ s.closure)
    (hc : Covers (i.predictions ctx) d t) : LooksAhead ctx kernel d t := by
  obtain ⟨hd, lookaheads, hl, ht⟩ := covers_predictions.mp hc
  cases FirstSets.mem_ofSeq.mp ht
  case inl hg => exact .generated (cl.predicted i hi) hd hg
  case inr hp =>
    have hcovers : Covers s.closure i.core t :=
      ⟨i, hi, rfl, by simpa [Item.lookaheadSet, hl] using hp.right⟩
    exact .passed (cl.looksAhead _ _ hcovers) hd hp.left

theorem has_predictions (h : ctx.grammar.WellFormed) (cl : Closing ctx kind kernel s)
    (hi : i ∈ s.closure) : ∀ m, Has (i.predictions ctx) m → m ∈ closureMarks ctx kernel := by
  have hcore {d : Core} (hd : d ∈ i.core.predicted ctx.grammar) :
      d ∈ (ctx.grammar.ruleIds.map fun r => (⟨r, 0⟩ : Core)).toFinset := by
    have hd := mem_predicted.mp hd
    simp only [List.mem_toFinset, List.mem_map, Grammar.mem_ruleIds]
    exact ⟨d.rule, hd.right.left, by rw [← hd.left]⟩
  intro m hm
  match m with
  | (d, none) =>
    rw [Has, map_core_predictions] at hm
    exact Finset.mem_product.mpr ⟨hcore hm, by simp⟩
  | (d, some t) =>
    refine Finset.mem_product.mpr ⟨hcore (covers_predictions.mp hm).left, ?_⟩
    simp only [Finset.some_mem_insertNone, List.mem_toFinset, List.mem_append]
    refine LooksAhead.forall_of_kernel (P := fun u => u ∈ ctx.grammar.vocabulary.terminalIds ∨
      u ∈ kernel.flatMap (·.lookaheadSet.toList)) h ?_ ?_ (cl.looksAhead_predictions hi hm)
    · exact fun u hu => .inl <| Vocabulary.mem_terminalIds.mpr <|
        (Vocabulary.mem_inputTerminals.mp hu).left
    · rintro c u ⟨k, hk, _, hu⟩
      exact .inr <| List.mem_flatMap.mpr ⟨k, hk, TerminalSet.mem_toList.mpr hu⟩

theorem closureStep_eq (cl : Closing ctx kind kernel s) (hopen : s.closed = false)
    (hi : s.closure[s.searched]? = some i) : ∃ (s' : ItemSet) (found : List (Item × Discovery)),
      s.closureStep ctx kind = .ok (s', .expanded i found) ∧ s'.kernel = s.kernel ∧
        s'.closure = (discoverAll s.closure (i.predictions ctx)).1 ∧
        s'.searched = s.searched + 1 ∧
        (s'.closed = true ↔ s'.closure.length ≤ s'.searched) := by
  have hkind : i.kind = kind := cl.kinds i <| List.mem_of_getElem? hi
  simp [ItemSet.closureStep, hopen, hi, hkind]

-- The expansion of the next item keeps the invariant.
theorem expand {s' : ItemSet} (h : ctx.grammar.WellFormed) (cl : Closing ctx kind kernel s)
    (hget : s.closure[s.searched]? = some i)
    (hext : Extends s.closure (i.predictions ctx) s'.closure) (hkernel : s'.kernel = s.kernel)
    (hsearched : s'.searched = s.searched + 1)
    (hclosed : s'.closed = true ↔ s'.closure.length ≤ s'.searched) :
    Closing ctx kind kernel s' := by
  have hmem : i ∈ s.closure := List.mem_of_getElem? hget
  have hlt : s.searched < s.closure.length := (List.getElem?_eq_some_iff.mp hget).choose
  constructor
  case kernel_eq => exact hkernel.trans cl.kernel_eq
  case parts =>
    obtain ⟨rest, hrest, hpredicted⟩ := cl.parts
    obtain ⟨added, hadded, hitems⟩ := hext.parts
    refine ⟨rest ++ added, by rw [hadded, hrest, List.append_assoc], fun j hj => ?_⟩
    cases List.mem_append.mp hj
    case inl hj => exact hpredicted j hj
    case inr hj =>
      obtain ⟨k, hk, hjk, _⟩ := hitems j hj
      exact ⟨i.core, hjk ▸ map_core_predictions ▸ List.mem_map_of_mem hk⟩
  case kinds =>
    intro j hj
    cases hext.mem_or_predicted hj
    case inl hj => exact cl.kinds j hj
    case inr hj => exact hj.right.trans <| cl.kinds i hmem
  case predicted =>
    intro j hj
    cases hext.mem_or_predicted hj
    case inl hj => exact cl.predicted j hj
    case inr hj => exact .step (cl.predicted i hmem) hj.left
  case looksAhead =>
    intro c t hc
    exact (hext.covers c t).mp hc |>.elim (cl.looksAhead c t) (cl.looksAhead_predictions hmem)
  case expanded =>
    rw [hsearched]
    exact hext.expanded hget cl.expanded
  case tracks =>
    rw [hsearched]
    refine cl.tracks.step (x := i.core) (by simp [hget]) ?_ ?_ ?_
    · exact hext.subset.map _
    · rw [hext.firsts, map_core_predictions]
    · intro c _ hc d hd
      have hc : c = i.core := hc
      simpa [hc] using hd
  case nodup =>
    intro hk hn
    refine hext.nodup ?_ (cl.nodup hk hn)
    exact fun j hj => (kind_of_mem_predictions hj).trans <| (cl.kinds i hmem).trans hk
  case closed_iff => exact hclosed
  case searched_le =>
    rw [hsearched]
    exact Nat.le_trans hlt hext.subset.length_le
  case length_le =>
    have := cl.length_le
    have := hext.length (closureMarks ctx kernel) (cl.has_predictions h hmem)
    omega

-- An open closure has an item to expand.
theorem step (h : ctx.grammar.WellFormed) (cl : Closing ctx kind kernel s)
    (hopen : s.closed = false) : ∃ (s' : ItemSet) (i : Item) (found : List (Item × Discovery)),
      s.closureStep ctx kind = .ok (s', .expanded i found) ∧ Closing ctx kind kernel s' ∧
        s'.searched = s.searched + 1 := by
  have hlt : s.searched < s.closure.length := by
    have := mt cl.closed_iff.mpr (by simp [hopen])
    omega
  have hget : s.closure[s.searched]? = some s.closure[s.searched] := List.getElem?_eq_getElem hlt
  obtain ⟨s', found, hstep, hkernel, hclosure, hsearched, hclosed⟩ := cl.closureStep_eq hopen hget
  have hext := hclosure ▸ discoverAll_extends
  exact ⟨s', _, found, hstep, cl.expand h hget hext hkernel hsearched hclosed, hsearched⟩

-- A complete closure has every predicted core.
theorem mem_iff_predicted (cl : Closing ctx kind kernel s) (hclosed : s.closed = true) :
    c ∈ s.closure.map Item.core ↔ Predicted ctx.grammar (kernel.map Item.core) c := by
  have htake := List.take_of_length_le <| cl.closed_iff.mp hclosed
  constructor
  case mp =>
    intro hc
    obtain ⟨i, hi, hic⟩ := List.mem_map.mp hc
    exact hic ▸ cl.predicted i hi
  case mpr =>
    intro p
    induction p
    case start hc => exact List.map_subset _ cl.subset.subset hc
    case step hd hi =>
      obtain ⟨i, hi, hic⟩ := List.mem_map.mp hi
      rw [← hic, ← map_core_predictions] at hd
      obtain ⟨j, hj, hjd⟩ := List.mem_map.mp hd
      exact hjd ▸ (cl.expanded i (htake.symm ▸ hi) j hj).core

-- A complete LR(1) closure has every lookahead.
theorem covers_iff_looksAhead (cl : Closing ctx .lr1 kernel s) (hclosed : s.closed = true) :
    Covers s.closure c t ↔ LooksAhead ctx kernel c t := by
  have htake := List.take_of_length_le <| cl.closed_iff.mp hclosed
  have hexpanded {i : Item} {d : Core} {t : Terminal} (hi : i ∈ s.closure)
      (hc : Covers (i.predictions ctx) d t) : Covers s.closure d t :=
    covers_of_covers_predictions (cl.expanded i (htake.symm ▸ hi)) hc
  have hlookaheads {i : Item} (hi : i ∈ s.closure) : i.lookaheads = some i.lookaheadSet := by
    have := cl.kinds i hi
    cases hl : i.lookaheads <;> simp_all [Item.kind, Item.lookaheadSet]
  refine ⟨cl.looksAhead c t, fun l => ?_⟩
  induction l
  case kernel hk => exact hk.subset cl.subset.subset
  case generated hp hd ht =>
    obtain ⟨i, hi, hic⟩ := List.mem_map.mp <| (cl.mem_iff_predicted hclosed).mpr hp
    rw [← hic] at hd ht
    refine hexpanded hi <| covers_predictions.mpr ⟨hd, _, hlookaheads hi, ?_⟩
    exact FirstSets.mem_ofSeq.mpr <| .inl ht
  case passed hd hn hi =>
    obtain ⟨i, hi, hic, ht⟩ := hi
    rw [← hic] at hd hn
    refine hexpanded hi <| covers_predictions.mpr ⟨hd, _, hlookaheads hi, ?_⟩
    exact FirstSets.mem_ofSeq.mpr <| .inr ⟨hn, ht⟩

theorem isExplored (cl : Closing ctx kind kernel s) (hclosed : s.closed = true) :
    IsExplored id (Core.predicted ctx.grammar) (firsts id (kernel.map Item.core))
      (firsts id (s.closure.map Item.core)) :=
  cl.tracks.isExplored <| by simpa using cl.closed_iff.mp hclosed

theorem computeClosureFor (h : ctx.grammar.WellFormed) (cl : Closing ctx kind kernel s)
    {fuel : Nat} (hfuel : kernel.length + (closureMarks ctx kernel).card ≤ s.searched + fuel) :
    ∃ (s' : ItemSet) (steps : List ClosureStep),
      s.computeClosureFor ctx kind fuel = (s', .ok steps) ∧ Closing ctx kind kernel s' ∧
        s'.closed = true := by
  induction fuel generalizing s
  case zero =>
    have hlength := cl.length_le
    have hmarks : marks (closureMarks ctx kernel) s.closure ≤ (closureMarks ctx kernel).card :=
      Finset.card_filter_le ..
    exact ⟨s, [], rfl, cl, cl.closed_iff.mpr (by omega)⟩
  case succ fuel hi =>
    by_cases hclosed : s.closed = true
    case pos =>
      refine ⟨s, [], ?_, cl, hclosed⟩
      simp [ItemSet.computeClosureFor, ItemSet.closureStep, hclosed]
    case neg =>
      obtain ⟨s₁, i, found, hstep, cl₁, hsearched⟩ := cl.step h (by simpa using hclosed)
      obtain ⟨s₂, steps, hrun, cl₂, hclosed₂⟩ := hi cl₁ (by omega)
      refine ⟨s₂, .expanded i found :: steps, ?_, cl₂, hclosed₂⟩
      simp [ItemSet.computeClosureFor, hstep, hrun, Except.map]

end Closing

theorem card_closureMarks_lt (ctx : Context) (kernel : List Item) :
    kernel.length + (closureMarks ctx kernel).card <
      (ItemSet.ofKernel ctx.grammar kernel).closureBound ctx := by
  have hrules := List.toFinset_card_le (ctx.grammar.ruleIds.map fun r => (⟨r, 0⟩ : Core))
  have hterminals := List.toFinset_card_le
    (ctx.grammar.vocabulary.terminalIds ++ kernel.flatMap (·.lookaheadSet.toList))
  simp only [Grammar.ruleIds, Vocabulary.terminalIds, List.length_map, List.length_range,
    List.length_append, List.length_flatMap] at hrules hterminals
  have := Nat.mul_le_mul hrules (Nat.add_le_add_right hterminals 1)
  simp only [closureMarks, Finset.card_product, Finset.card_insertNone, ItemSet.closureBound,
    ItemSet.closure_ofKernel, TerminalSet.size, Grammar.ruleIds, Vocabulary.terminalIds]
  omega

-- The bound on the number of closure steps suffices for every kernel.
theorem computeClosure_ofKernel (h : ctx.grammar.WellFormed) (hk : ∀ i ∈ kernel, i.kind = kind) :
    ∃ (s : ItemSet) (steps : List ClosureStep),
      (ItemSet.ofKernel ctx.grammar kernel).computeClosure ctx kind = (s, .ok steps) ∧
        Closing ctx kind kernel s ∧ s.closed = true := by
  have := card_closureMarks_lt ctx kernel
  exact (Closing.init hk).computeClosureFor h (by omega)

end ShiftReduce
