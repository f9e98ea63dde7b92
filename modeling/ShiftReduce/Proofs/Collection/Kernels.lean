import Mathlib.Data.Finset.Powerset
import ShiftReduce.Proofs.Collection.Successors

namespace ShiftReduce

open Exploration

def closureOf (ctx : Context) (kind : ItemKind) (kernel : List Item) : List Item :=
  let s := ((ItemSet.ofKernel ctx.grammar kernel).computeClosure ctx kind).1
  match kind with
  | .lr0 => s.closure
  | .lr1 => s.mergeLookaheads.1.closure

def successorsOf (ctx : Context) (kind : ItemKind) (kernel : List Item) : List Successor :=
  Successor.ofClosure ctx.grammar (closureOf ctx kind kernel)

def nextKernels (ctx : Context) (kind : ItemKind) (kernel : List Item) : List (List Item) :=
  (successorsOf ctx kind kernel).map (·.kernel)

def validCores (g : Grammar) : List Core :=
  g.ruleIds.flatMap fun r => (List.range ((g.right r).length + 1)).map (⟨r, ·⟩)

-- What the kernels of a grammar can show for themselves.
def kernelMarks (g : Grammar) : Finset (Core × Option Terminal) :=
  (validCores g).toFinset ×ˢ Finset.insertNone g.vocabulary.terminalIds.toFinset

-- What the comparison of kernels looks at in an item.
def Item.aspect : ItemKind → Item → Item
  | .lr0, i => ⟨i.core, none⟩
  | .lr1, i => i

def aspects (kind : ItemKind) (kernel : List Item) : List Item :=
  kernel.map (Item.aspect kind)

-- The kernels of the canonical collection, in the order in which they are found.
def collection (ctx : Context) (kind : ItemKind) : List (List Item) :=
  explore List.toFinset (nextKernels ctx kind) [[.start kind]] (2 ^ (kernelMarks ctx.grammar).card)

variable {ctx : Context} {g : Grammar} {kind : ItemKind} {kernel xs ys : List Item}
  {kernels : List (List Item)} {c : Core} {t : Terminal}

theorem closureOf_completes (hg : ctx.grammar.WellFormed) (k : IsKernel ctx.grammar kind kernel) :
    Completes ctx kind kernel (closureOf ctx kind kernel) := by
  obtain ⟨s, _, hs, cl, hclosed⟩ := computeClosure_ofKernel hg k.kinds
  cases kind
  case lr0 => simpa [closureOf, hs] using cl.completes_lr0 hclosed k.nodup
  case lr1 => simpa [closureOf, hs] using cl.completes_mergeLookaheads hg k hclosed

theorem mem_nextKernels : xs ∈ nextKernels ctx kind kernel ↔
    ∃ x ∈ nextSymbols ctx.grammar ((closureOf ctx kind kernel).map Item.core),
      kernelOver ctx.grammar x (closureOf ctx kind kernel) = xs := by
  simp [nextKernels, successorsOf, ofClosure_eq, successorOver]

theorem isKernel_of_mem_nextKernels (hg : ctx.grammar.WellFormed)
    (k : IsKernel ctx.grammar kind kernel) (h : xs ∈ nextKernels ctx kind kernel) :
    IsKernel ctx.grammar kind xs := by
  obtain ⟨x, hx, hxs⟩ := mem_nextKernels.mp h
  exact hxs ▸ (closureOf_completes hg k).isKernel_kernelOver hg k hx

section SameKernel

@[simp]
theorem length_aspects : (aspects kind xs).length = xs.length :=
  List.length_map _

@[simp]
theorem map_core_aspects : (aspects kind xs).map Item.core = xs.map Item.core := by
  cases kind <;> simp [aspects, Item.aspect, Function.comp_def]

theorem nodup_aspects (h : (xs.map Item.core).Nodup) : (aspects kind xs).Nodup := by
  have hcores : ((aspects kind xs).map Item.core).Nodup := by rwa [map_core_aspects]
  exact hcores.of_map

theorem eq_of_core_eq {i j : Item} (hi : i.kind = .lr0) (hj : j.kind = .lr0)
    (h : i.core = j.core) : i = j := by
  have hl : i.lookaheads = j.lookaheads := by rw [lookaheads_eq_none hi, lookaheads_eq_none hj]
  cases i
  cases j
  simp_all

-- All that is looked at in an item of the same kind is the item.
theorem aspects_eq_self (h : ∀ i ∈ xs, i.kind = kind) : aspects kind xs = xs := by
  rw [aspects, List.map_congr_left (g := id), List.map_id]
  intro i hi
  cases kind
  case lr0 => exact eq_of_core_eq rfl (h i hi) rfl
  case lr1 => rfl

theorem toFinset_subset_iff {α : Type} [DecidableEq α] {as bs : List α} :
    as.toFinset ⊆ bs.toFinset ↔ as ⊆ bs := by
  simp [Finset.subset_iff, List.subset_def]

theorem toFinset_eq_iff_of_nodup {α : Type} [DecidableEq α] {as bs : List α} (ha : as.Nodup)
    (hb : bs.Nodup) : as.length = bs.length ∧ as ⊆ bs ↔ as.toFinset = bs.toFinset := by
  constructor
  case mp =>
    rintro ⟨hl, hs⟩
    refine Finset.eq_of_subset_of_card_le (toFinset_subset_iff.mpr hs) ?_
    rw [List.toFinset_card_of_nodup ha, List.toFinset_card_of_nodup hb, hl]
  case mpr =>
    intro he
    refine ⟨?_, toFinset_subset_iff.mp he.le⟩
    rw [← List.toFinset_card_of_nodup ha, ← List.toFinset_card_of_nodup hb, he]

theorem sameKernel_iff_subset : SameKernel kind xs ys ↔
    xs.length = ys.length ∧ aspects kind xs ⊆ aspects kind ys := by
  simp only [SameKernel, aspects, List.subset_def, List.mem_map, forall_exists_index, and_imp,
    forall_apply_eq_imp_iff₂]
  cases kind <;> simp [Item.aspect, eq_comm]

theorem subset_iff_cores (hx : ∀ i ∈ xs, i.kind = .lr0) (hy : ∀ i ∈ ys, i.kind = .lr0) :
    xs.map Item.core ⊆ ys.map Item.core ↔ xs ⊆ ys := by
  refine ⟨fun h i hi => ?_, List.map_subset _⟩
  obtain ⟨j, hj, hji⟩ := List.mem_map.mp <| h <| List.mem_map_of_mem hi
  exact eq_of_core_eq (hx i hi) (hy j hj) hji.symm ▸ hj

theorem toFinset_eq_iff_cores (hx : ∀ i ∈ xs, i.kind = .lr0) (hy : ∀ i ∈ ys, i.kind = .lr0) :
    (xs.map Item.core).toFinset = (ys.map Item.core).toFinset ↔ xs.toFinset = ys.toFinset := by
  simp only [subset_antisymm_iff, toFinset_subset_iff, subset_iff_cores hx hy,
    subset_iff_cores hy hx]

theorem sameKernel_iff_of_nodup (hx : (xs.map Item.core).Nodup) (hy : (ys.map Item.core).Nodup) :
    SameKernel kind xs ys ↔ (aspects kind xs).toFinset = (aspects kind ys).toFinset := by
  rw [← toFinset_eq_iff_of_nodup (nodup_aspects hx) (nodup_aspects hy), length_aspects,
    length_aspects, sameKernel_iff_subset]

theorem sameKernel_lr0_iff (hx : (xs.map Item.core).Nodup) (hy : (ys.map Item.core).Nodup) :
    SameKernel .lr0 xs ys ↔ (xs.map Item.core).toFinset = (ys.map Item.core).toFinset := by
  have hkinds (zs : List Item) : ∀ i ∈ aspects .lr0 zs, i.kind = .lr0 := by
    simp [aspects, Item.aspect, Item.kind]
  rw [sameKernel_iff_of_nodup hx hy, ← toFinset_eq_iff_cores (hkinds xs) (hkinds ys),
    map_core_aspects, map_core_aspects]

theorem sameKernel_iff (hx : IsKernel g kind xs) (hy : IsKernel g kind ys) :
    SameKernel kind xs ys ↔ xs.toFinset = ys.toFinset := by
  rw [sameKernel_iff_of_nodup hx.nodup hy.nodup, aspects_eq_self hx.kinds, aspects_eq_self hy.kinds]

end SameKernel

section Bound

theorem mem_validCores :
    c ∈ validCores g ↔ (g.rule? c.rule).isSome ∧ c.dot ≤ (g.right c.rule).length := by
  simp only [validCores, List.mem_flatMap, List.mem_map, List.mem_range, Nat.lt_succ_iff,
    Grammar.mem_ruleIds]
  constructor
  case mp =>
    rintro ⟨r, hr, m, hm, rfl⟩
    exact ⟨hr, hm⟩
  case mpr => exact fun ⟨hr, hm⟩ => ⟨c.rule, hr, c.dot, hm, rfl⟩

theorem IsKernel.mem_kernelMarks (k : IsKernel g kind kernel) :
    ∀ {m}, Has kernel m → m ∈ kernelMarks g
  | (c, none), h => by
    obtain ⟨i, hi, hic⟩ := List.mem_map.mp h
    refine Finset.mem_product.mpr ⟨List.mem_toFinset.mpr ?_, by simp⟩
    exact hic ▸ mem_validCores.mpr ⟨k.rules i hi, k.dots i hi⟩
  | (c, some t), h => by
    obtain ⟨i, hi, hic⟩ := List.mem_map.mp <| Covers.mem_map_core h
    refine Finset.mem_product.mpr ⟨List.mem_toFinset.mpr ?_, ?_⟩
    · exact hic ▸ mem_validCores.mpr ⟨k.rules i hi, k.dots i hi⟩
    · have := Vocabulary.mem_inputTerminals.mp <| k.terminals c t h
      simpa [Vocabulary.mem_terminalIds] using this.left

-- What a kernel shows for itself tells its items.
theorem IsKernel.subset_of_has (hx : IsKernel g kind xs) (hy : IsKernel g kind ys)
    (h : ∀ m, Has xs m ↔ Has ys m) : xs ⊆ ys := by
  intro i hi
  obtain ⟨j, hj, hji⟩ := List.mem_map.mp <| (h (i.core, none)).mp <| List.mem_map_of_mem hi
  suffices he : i = j from he ▸ hj
  cases kind
  case lr0 => exact eq_of_core_eq (hx.kinds i hi) (hy.kinds j hj) hji.symm
  case lr1 =>
    refine eq_of_core_eq_of_mem_iff (hx.kinds i hi) (hy.kinds j hj) hji.symm fun t => ?_
    rw [← covers_iff_mem hx.nodup hi, ← covers_iff_mem hy.nodup hj, hji]
    exact h (i.core, some t)

theorem IsKernel.toFinset_eq_of_has (hx : IsKernel g kind xs) (hy : IsKernel g kind ys)
    (h : ∀ m, Has xs m ↔ Has ys m) : xs.toFinset = ys.toFinset := by
  refine List.toFinset.ext fun i => ⟨fun hi => ?_, fun hi => ?_⟩
  · exact hx.subset_of_has hy h hi
  · exact hy.subset_of_has hx (fun m => (h m).symm) hi

-- A kernel is told by its cores and the lookaheads that it covers.
theorem length_le_of_nodup (hk : ∀ k ∈ kernels, IsKernel g kind k)
    (hn : (kernels.map List.toFinset).Nodup) : kernels.length ≤ 2 ^ (kernelMarks g).card := by
  let marksOf (k : List Item) := (kernelMarks g).filter (Has k)
  have hinj : (kernels.map marksOf).Nodup := by
    refine List.Nodup.map_on ?_ hn.of_map
    intro xs hxs ys hys he
    refine List.inj_on_of_nodup_map hn hxs hys <|
      (hk xs hxs).toFinset_eq_of_has (hk ys hys) fun m => ?_
    have hm : m ∈ marksOf xs ↔ m ∈ marksOf ys := by rw [he]
    simp only [marksOf, Finset.mem_filter] at hm
    exact ⟨fun h => (hm.mp ⟨(hk xs hxs).mem_kernelMarks h, h⟩).right,
      fun h => (hm.mpr ⟨(hk ys hys).mem_kernelMarks h, h⟩).right⟩
  have hsub : (kernels.map marksOf).toFinset ⊆ (kernelMarks g).powerset := by
    intro s hs
    obtain ⟨k, _, hks⟩ := List.mem_map.mp <| List.mem_toFinset.mp hs
    exact hks ▸ Finset.mem_powerset.mpr (Finset.filter_subset ..)
  have hcard := Finset.card_le_card hsub
  rwa [List.toFinset_card_of_nodup hinj, List.length_map, Finset.card_powerset] at hcard

end Bound

section Collection

theorem isKernel_of_mem_explore (hg : ctx.grammar.WellFormed) {i : Nat}
    (h : kernel ∈ explore List.toFinset (nextKernels ctx kind) [[.start kind]] i) :
    IsKernel ctx.grammar kind kernel := by
  refine explore_forall (P := IsKernel ctx.grammar kind) (List.prefix_refl _) ?_ ?_ kernel h
  · simpa using IsKernel.start hg
  · exact fun _ _ k _ _ hy => isKernel_of_mem_nextKernels hg k hy

theorem isKernel_of_mem_collection (hg : ctx.grammar.WellFormed)
    (h : kernel ∈ collection ctx kind) : IsKernel ctx.grammar kind kernel :=
  isKernel_of_mem_explore hg h

theorem nodup_collection : ((collection ctx kind).map List.toFinset).Nodup :=
  nodup_explore <| by simp

theorem length_collection_le (hg : ctx.grammar.WellFormed) :
    (collection ctx kind).length ≤ 2 ^ (kernelMarks ctx.grammar).card :=
  length_le_of_nodup (fun _ => isKernel_of_mem_collection hg) nodup_collection

theorem collection_isExplored (hg : ctx.grammar.WellFormed) :
    IsExplored List.toFinset (nextKernels ctx kind) [[.start kind]] (collection ctx kind) :=
  ⟨_, rfl, length_collection_le hg⟩

end Collection
end ShiftReduce
