import ShiftReduce.Proofs.Closure.Uniformity
import ShiftReduce.Proofs.Construction.Canonical

namespace ShiftReduce

open Exploration Automaton

-- The item has been made for the grammar: it has the rule, and the dot is in the right side.
def Item.IsMade (g : Grammar) (i : Item) : Prop :=
  ∃ r dot lookaheads, Item.make g r dot lookaheads = .ok i

variable {ctx : Context} {alg : Algorithm} {kind : ItemKind} {a : Automaton} {n : Node}
  {q : StateId} {xs xs' ys ys' zs : List Item}

namespace SameKernel

theorem refl : SameKernel kind xs xs :=
  sameKernel_iff_subset.mpr ⟨rfl, List.Subset.refl _⟩

theorem trans (h : SameKernel kind xs ys) (h' : SameKernel kind ys zs) : SameKernel kind xs zs := by
  obtain ⟨hlength, hsub⟩ := sameKernel_iff_subset.mp h
  obtain ⟨hlength', hsub'⟩ := sameKernel_iff_subset.mp h'
  exact sameKernel_iff_subset.mpr ⟨hlength.trans hlength', List.Subset.trans hsub hsub'⟩

theorem of_perm (h : (aspects kind xs).Perm (aspects kind ys)) : SameKernel kind xs ys :=
  sameKernel_iff_subset.mpr ⟨by simpa using h.length_eq, h.subset⟩

theorem congr (hx : xs.Perm xs') (hy : ys.Perm ys') :
    SameKernel kind xs ys ↔ SameKernel kind xs' ys' := by
  have hx : (aspects kind xs).Perm (aspects kind xs') := hx.map _
  have hy : (aspects kind ys).Perm (aspects kind ys') := hy.map _
  exact ⟨fun h => (of_perm hx.symm).trans <| h.trans <| of_perm hy,
    fun h => (of_perm hx).trans <| h.trans <| of_perm hy.symm⟩

-- The other direction is a matter of counting.
theorem symm_iff (h : SameKernel kind xs ys) : SameKernel kind ys xs ↔
    (aspects kind xs).toFinset.card = (aspects kind ys).toFinset.card := by
  obtain ⟨hlength, hsub⟩ := sameKernel_iff_subset.mp h
  have hsub := toFinset_subset_iff.mpr hsub
  rw [sameKernel_iff_subset, and_iff_right hlength.symm, ← toFinset_subset_iff]
  constructor
  case mp  => exact fun hsub' => congrArg _ <| hsub.antisymm hsub'
  case mpr => exact fun hcard => (Finset.eq_of_subset_of_card_le hsub hcard.ge).ge

theorem iff_perm (hn : (aspects kind xs).Nodup) :
    SameKernel kind xs ys ↔ (aspects kind xs).Perm (aspects kind ys) := by
  refine ⟨fun h => ?_, of_perm⟩
  obtain ⟨hlength, hsub⟩ := sameKernel_iff_subset.mp h
  exact (hn.subperm hsub).perm_of_length_le <| by simp [hlength]

theorem exists_eq_append_of_not_nodup {α β : Type} {f : α → β} {l : List α}
    (h : ¬ (l.map f).Nodup) : ∃ as x bs, l = as ++ x :: bs ∧ f x ∈ (as ++ bs).map f := by
  induction l
  case nil => simp at h
  case cons x l hi =>
    by_cases hx : f x ∈ l.map f
    case pos => exact ⟨[], x, l, rfl, hx⟩
    case neg =>
      obtain ⟨as, y, bs, rfl, hy⟩ := hi fun hn => h <| List.nodup_cons.mpr ⟨hx, hn⟩
      exact ⟨x :: as, y, bs, rfl, List.mem_cons_of_mem _ hy⟩

-- Whether the equality with a kernel can be turned around, among the kernels with certain items.
theorem forall_symm_iff {P : Item → Prop} (hx : ∀ i ∈ xs, P i) :
    (∀ ys, (∀ i ∈ ys, P i) → SameKernel kind xs ys → SameKernel kind ys xs) ↔
      (aspects kind xs).Nodup ∨ ∀ i, P i → i.aspect kind ∈ aspects kind xs := by
  constructor
  case mp =>
    intro hsymm
    refine or_iff_not_imp_left.mpr fun hn i hi => ?_
    obtain ⟨as, x, bs, rfl, hrepeated⟩ := exists_eq_append_of_not_nodup hn
    -- The item takes the place of one that is repeated.
    have hys : ∀ j ∈ as ++ i :: bs, P j := by
      intro j hj
      cases List.mem_append.mp hj
      case inl hj => exact hx j <| List.mem_append_left _ hj
      case inr hj =>
        cases hj
        case head    => exact hi
        case tail hj => exact hx j <| List.mem_append_right _ <| .tail _ hj
    have hsame : SameKernel kind (as ++ x :: bs) (as ++ i :: bs) := by
      refine sameKernel_iff_subset.mpr ⟨by simp, fun b hb => ?_⟩
      simp only [aspects, List.map_append, List.map_cons, List.mem_append, List.mem_cons]
        at hb hrepeated ⊢
      grind
    obtain ⟨_, hsub⟩ := sameKernel_iff_subset.mp <| hsymm _ hys hsame
    exact hsub <| List.mem_map_of_mem <| List.mem_append_right _ <| .head _
  case mpr =>
    intro hunmatched ys hys h
    cases hunmatched
    case inl hn => exact of_perm <| ((iff_perm hn).mp h).symm
    case inr hall =>
      refine sameKernel_iff_subset.mpr ⟨h.left.symm, fun b hb => ?_⟩
      obtain ⟨j, hj, rfl⟩ := List.mem_map.mp hb
      exact hall j <| hys j hj

end SameKernel

-- At any time, no state has a core twice in its kernel.
theorem Underway.nodup_kernel (hg : ctx.grammar.WellFormed) (h : Underway ctx alg a)
    (hn : a.node? q = some n) : (n.items.kernel.map Item.core).Nodup := by
  have hsound (hs : IsSound ctx a) : (n.items.kernel.map Item.core).Nodup := by
    have hlt : q.number < (collection ctx .lr0).length := hs.size ▸ number_lt_size hn
    exact Reclosing.kernelItems_eq hn ▸ (isKernel_kernelItems hg hs hlt).nodup
  cases h
  case collecting h => exact (h.isCanonical hg).nodup hn
  case merging h    =>
    exact (h.left.items hn).kernelCores ▸ (isKernel_kernelIn hg <| h.left.lt_length hn).nodup
  case surveying h  => exact hsound h.toIsSound
  case passing h    => exact hsound h.toIsSound
  case reclosing h  => exact hsound h.toIsSound
  case complete h   =>
    cases alg
    case lr0 | lr1         =>
      have hcanonical : IsCanonical ctx _ a a.pointer := h.left.isCanonical hg
      exact hcanonical.nodup hn
    case lalrByMerging     =>
      have hlt := (Merged.isLeader h hn).left
      exact (Merged.items h hn).kernelCores ▸ (isKernel_kernelIn hg hlt).nodup
    case lalrByPropagation =>
      have hlt := (Propagated.live_iff h).mp <| Option.isSome_iff_exists.mpr ⟨n, hn⟩
      exact Propagated.cores h hn ▸ (isKernel_kernelIn hg hlt).nodup

-- Kernel equality is reflexive and transitive, and the order of the items does not matter. A kernel
-- that equals another one is equalled by it iff both have as many different items. That this is
-- always so can be told from the first kernel: no item is repeated in it, or no other item is left
-- for the place of a repeated one. Where no item is repeated, and so in all states of a
-- construction, equal kernels have the same items.
theorem kernel_equality_exact (h : ctx.grammar.IsDefined) (kind : ItemKind) :
    let equal (xs ys : List Item) : Prop := SameKernel kind
      (ItemSet.ofKernel ctx.grammar xs).kernel (ItemSet.ofKernel ctx.grammar ys).kernel
    (∀ xs, equal xs xs) ∧
    (∀ xs ys zs, equal xs ys → equal ys zs → equal xs zs) ∧
    (∀ xs xs' ys ys', xs.Perm xs' → ys.Perm ys' → (equal xs ys ↔ equal xs' ys')) ∧
    (∀ xs ys, equal xs ys → (equal ys xs ↔
      (aspects kind xs).toFinset.card = (aspects kind ys).toFinset.card)) ∧
    (∀ xs, (∀ i ∈ xs, i.IsMade ctx.grammar) →
      ((∀ ys, (∀ i ∈ ys, i.IsMade ctx.grammar) → equal xs ys → equal ys xs) ↔
        (aspects kind xs).Nodup ∨
          ∀ i : Item, i.IsMade ctx.grammar → i.aspect kind ∈ aspects kind xs)) ∧
    (∀ xs ys, (aspects kind xs).Nodup →
      (equal xs ys ↔ (aspects kind xs).Perm (aspects kind ys))) ∧
    ∀ alg k q n, ((fun a => (a.step ctx).1)^[k] (initial ctx alg)).node? q = some n →
      (aspects kind n.items.kernel).Nodup := by
  simp only [ItemSet.kernel_ofKernel]
  refine ⟨fun _ => .refl, fun _ _ _ => .trans, fun _ _ _ _ => SameKernel.congr,
    fun _ _ => SameKernel.symm_iff, fun _ => SameKernel.forall_symm_iff,
    fun _ _ => SameKernel.iff_perm, fun alg k q n hn => ?_⟩
  exact nodup_aspects <| (Underway.iterate h.wellFormed).nodup_kernel h.wellFormed hn

section Repetition

-- The first items of both rules, at the end of the input.
def Item.recurring : Item :=
  ⟨⟨⟨1⟩, 0⟩, some {.endOfInput}⟩

def Item.ending : Item :=
  ⟨⟨⟨2⟩, 0⟩, some {.endOfInput}⟩

theorem kernel_equality_exact_on_repetition : Grammar.repetition.IsDefined ∧
    let ctx : Context := .ofGrammar .repetition
    let kernel (xs : List Item) : List Item := (ItemSet.ofKernel ctx.grammar xs).kernel
    (∀ i ∈ [Item.recurring, Item.recurring], i.IsMade ctx.grammar) ∧
      ¬ ∀ ys, (∀ i ∈ ys, i.IsMade ctx.grammar) →
        SameKernel .lr1 (kernel [Item.recurring, Item.recurring]) (kernel ys) →
        SameKernel .lr1 (kernel ys) (kernel [Item.recurring, Item.recurring]) := by
  have h := Grammar.repetition_isDefined
  refine ⟨h, ?_⟩
  intro ctx kernel
  have hrecurring : Item.recurring.IsMade ctx.grammar :=
    ⟨⟨1⟩, 0, some {.endOfInput}, by decide +kernel⟩
  have hending : Item.ending.IsMade ctx.grammar :=
    ⟨⟨2⟩, 0, some {.endOfInput}, by decide +kernel⟩
  have hmade : ∀ i ∈ [Item.recurring, Item.recurring], i.IsMade ctx.grammar := by
    simpa using hrecurring
  obtain ⟨_, _, _, _, hsymm, _⟩ := @kernel_equality_exact ctx h .lr1
  refine ⟨hmade, fun hall => ?_⟩
  cases (hsymm _ hmade).mp hall
  case inl hn   => exact absurd hn <| by decide
  case inr hall => exact absurd (hall Item.ending hending) <| by decide

-- For both kinds of equality, an item that is listed twice covers for one that is not there.
theorem kernel_equality_not_symmetric_on_repetition : Grammar.repetition.IsDefined ∧
    let s : ItemSet := .ofKernel .repetition [Item.recurring, Item.recurring]
    let t : ItemSet := .ofKernel .repetition [Item.recurring, Item.ending]
    Item.make .repetition ⟨1⟩ 0 (some {.endOfInput}) = .ok Item.recurring ∧
      Item.make .repetition ⟨2⟩ 0 (some {.endOfInput}) = .ok Item.ending ∧
      SameKernel .lr1 s.kernel t.kernel ∧ ¬ SameKernel .lr1 t.kernel s.kernel ∧
      SameKernel .lr0 s.kernel t.kernel ∧ ¬ SameKernel .lr0 t.kernel s.kernel :=
  ⟨Grammar.repetition_isDefined, by decide +kernel⟩

end Repetition
end ShiftReduce
