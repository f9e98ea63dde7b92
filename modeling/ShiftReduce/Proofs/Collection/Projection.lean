import ShiftReduce.Proofs.Collection.Kernels

namespace ShiftReduce

open Exploration

-- A kernel without its lookaheads.
def bare (kernel : List Item) : List Item :=
  kernel.map fun i => ⟨i.core, none⟩

variable {ctx : Context} {g : Grammar} {kind : ItemKind} {kernel xs ys : List Item}
  {i : Item} {c : Core} {t : Terminal}

@[simp]
theorem map_core_bare : (bare xs).map Item.core = xs.map Item.core := by
  simp [bare, Function.comp_def]

theorem kind_of_mem_bare (h : i ∈ bare xs) : i.kind = .lr0 := by
  obtain ⟨_, _, hi⟩ := List.mem_map.mp h
  exact hi ▸ rfl

theorem toFinset_bare_eq_iff : (bare xs).toFinset = (bare ys).toFinset ↔
    (xs.map Item.core).toFinset = (ys.map Item.core).toFinset := by
  rw [← toFinset_eq_iff_cores (fun _ => kind_of_mem_bare) (fun _ => kind_of_mem_bare),
    map_core_bare, map_core_bare]

theorem toFinset_bare_congr (h : xs.toFinset = ys.toFinset) :
    (bare xs).toFinset = (bare ys).toFinset := by
  simp only [List.toFinset.ext_iff, bare, List.mem_map] at h ⊢
  exact fun i => exists_congr fun j => and_congr_left fun _ => h j

theorem bare_start : bare [.start kind] = [.start .lr0] := by
  cases kind <;> rfl

theorem IsKernel.bare (k : IsKernel g kind kernel) : IsKernel g .lr0 (bare kernel) := by
  refine k.of_cores map_core_bare (fun _ => kind_of_mem_bare) fun c t => ?_
  rintro ⟨i, hi, _, ht⟩
  simp [lookaheadSet_eq_empty (kind_of_mem_bare hi)] at ht

theorem map_core_closureOf_bare (hg : ctx.grammar.WellFormed)
    (k : IsKernel ctx.grammar kind kernel) : (closureOf ctx .lr0 (bare kernel)).map Item.core =
      (closureOf ctx kind kernel).map Item.core :=
  (closureOf_completes hg k.bare).map_core_eq (closureOf_completes hg k) map_core_bare

theorem kernelOver_closureOf_bare (hg : ctx.grammar.WellFormed)
    (k : IsKernel ctx.grammar kind kernel) {x : Symbol} :
    kernelOver ctx.grammar x (closureOf ctx .lr0 (bare kernel)) =
      bare (kernelOver ctx.grammar x (closureOf ctx kind kernel)) := by
  refine eq_of_cores (fun i hi => ?_) (fun _ => kind_of_mem_bare) ?_
  · obtain ⟨j, hj, _, hji⟩ := mem_kernelOver.mp hi
    exact hji ▸ (closureOf_completes hg k.bare).kinds j hj
  · rw [map_core_bare, map_core_kernelOver, map_core_kernelOver, map_core_closureOf_bare hg k]

theorem nextKernels_bare (hg : ctx.grammar.WellFormed) (k : IsKernel ctx.grammar kind kernel) :
    nextKernels ctx .lr0 (bare kernel) = (nextKernels ctx kind kernel).map bare := by
  simp only [nextKernels, successorsOf, ofClosure_eq, List.map_map, map_core_closureOf_bare hg k]
  exact List.map_congr_left fun x _ => kernelOver_closureOf_bare hg k

section Order

-- The order of the items in a kernel does not matter to the kernels that follow.
theorem mem_closureOf_iff (hg : ctx.grammar.WellFormed) (kx : IsKernel ctx.grammar .lr0 xs)
    (ky : IsKernel ctx.grammar .lr0 ys) (h : xs.toFinset = ys.toFinset) :
    i ∈ closureOf ctx .lr0 xs ↔ i ∈ closureOf ctx .lr0 ys := by
  suffices hsub : ∀ {xs ys : List Item}, IsKernel ctx.grammar .lr0 xs →
      IsKernel ctx.grammar .lr0 ys → xs.toFinset = ys.toFinset →
      i ∈ closureOf ctx .lr0 xs → i ∈ closureOf ctx .lr0 ys from
    ⟨hsub kx ky h, hsub ky kx h.symm⟩
  intro xs ys kx ky h hi
  have hx := closureOf_completes hg kx
  have hy := closureOf_completes hg ky
  have hsub : xs ⊆ ys := fun j hj => List.mem_toFinset.mp <| h ▸ List.mem_toFinset.mpr hj
  have hp := hx.mem_iff_predicted.mp (List.mem_map_of_mem hi) |>.subset (List.map_subset _ hsub)
  obtain ⟨j, hj, hji⟩ := List.mem_map.mp <| hy.mem_iff_predicted.mpr hp
  exact eq_of_core_eq (hx.kinds i hi) (hy.kinds j hj) hji.symm ▸ hj

theorem toFinset_kernelOver_congr {x : Symbol} (h : ∀ i, i ∈ xs ↔ i ∈ ys) :
    (kernelOver g x xs).toFinset = (kernelOver g x ys).toFinset := by
  refine List.toFinset.ext fun i => ?_
  simp only [mem_kernelOver, h]

theorem toFinset_mem_nextKernels (hg : ctx.grammar.WellFormed)
    (kx : IsKernel ctx.grammar .lr0 xs) (ky : IsKernel ctx.grammar .lr0 ys)
    (h : xs.toFinset = ys.toFinset) (hk : kernel ∈ nextKernels ctx .lr0 xs) :
    kernel.toFinset ∈ (nextKernels ctx .lr0 ys).map List.toFinset := by
  obtain ⟨x, hx, hxs⟩ := mem_nextKernels.mp hk
  have hmem := fun i => mem_closureOf_iff (i := i) hg kx ky h
  have hsymbol : x ∈ nextSymbols ctx.grammar ((closureOf ctx .lr0 ys).map Item.core) := by
    simp only [mem_nextSymbols, List.mem_map, hmem] at hx ⊢
    exact hx
  rw [← hxs, toFinset_kernelOver_congr hmem]
  exact List.mem_map_of_mem <| mem_nextKernels.mpr ⟨x, hsymbol, rfl⟩

end Order

theorem firsts_map_bare_insertAllNew {kernels added : List (List Item)} :
    firsts List.toFinset ((insertAllNew List.toFinset kernels added).map bare) =
      insertAllNew List.toFinset (firsts List.toFinset (kernels.map bare)) (added.map bare) := by
  induction added generalizing kernels
  case nil => rfl
  case cons k added hi =>
    rw [List.map_cons]
    by_cases hm : k.toFinset ∈ kernels.map List.toFinset
    case pos =>
      obtain ⟨k', hk', he⟩ := List.mem_map.mp hm
      have hbare : (bare k).toFinset ∈
          (firsts List.toFinset (kernels.map bare)).map List.toFinset := by
        rw [key_mem_firsts, toFinset_bare_congr he.symm]
        exact List.mem_map_of_mem <| List.mem_map_of_mem hk'
      rw [insertAllNew_cons_of_mem hm, hi, insertAllNew_cons_of_mem hbare]
    case neg =>
      rw [insertAllNew_cons_of_not_mem hm, hi, List.map_append, firsts_append]
      rfl

-- The first occurrences among the bare kernels are explored as the LR(0) collection is.
theorem tracks_bare (hg : ctx.grammar.WellFormed) {i : Nat} :
    let explored := explore List.toFinset (nextKernels ctx .lr1) [[.start .lr1]]
    Tracks List.toFinset (nextKernels ctx .lr0) [[.start .lr0]] ((explored i).map bare)
      (min i (explored i).length) := by
  intro explored
  induction i
  case zero =>
    have : Tracks List.toFinset (nextKernels ctx .lr0) _ [[Item.start .lr0]] 0 := .init
    simpa [explored, explore, bare_start, firsts, insertAllNew, insertNew] using this
  case succ i hi =>
    have hpre : explored i <+: explored (i + 1) := explore_isPrefix (Nat.le_succ i)
    cases Nat.lt_or_ge i (explored i).length
    case inr hge =>
      have hsame : explored (i + 1) = explored i := explore_eq_of_length_le hge (Nat.le_succ i)
      rw [hsame, Nat.min_eq_right (Nat.le_succ_of_le hge)]
      rwa [Nat.min_eq_right hge] at hi
    case inl hlt =>
      rw [Nat.min_eq_left hlt.le] at hi
      rw [Nat.min_eq_left <| Nat.le_trans hlt hpre.length_le]
      have hget : (explored i)[i]? = some (explored i)[i] := List.getElem?_eq_getElem hlt
      have hkernel {k : List Item} (hk : k ∈ explored i) : IsKernel ctx.grammar .lr1 k :=
        isKernel_of_mem_explore hg hk
      have k := hkernel <| List.mem_of_getElem? hget
      have hnext := explore_succ_of_getElem? hget
      refine hi.step (x := bare (explored i)[i]) (by simp [hget]) (hpre.map _) ?_ ?_
      · rw [nextKernels_bare hg k, ← firsts_map_bare_insertAllNew, ← hnext]
      · intro y hy he z hz
        obtain ⟨k', hk', hky⟩ := List.mem_map.mp hy
        exact toFinset_mem_nextKernels hg k.bare (hky ▸ (hkernel hk').bare) he.symm hz

-- Without their lookaheads, the LR(1) kernels are the LR(0) kernels, and they occur for the first
-- time in the same order.
theorem collection_lr0_eq (hg : ctx.grammar.WellFormed) :
    collection ctx .lr0 = firsts List.toFinset ((collection ctx .lr1).map bare) := by
  have hexplored : IsExplored _ _ _ (collection ctx .lr1) := collection_isExplored hg
  obtain ⟨i, hi, hl⟩ := hexplored
  refine (collection_isExplored hg).unique <| hi ▸ (tracks_bare hg).isExplored ?_
  rw [List.length_map]
  exact Nat.le_min.mpr ⟨by rwa [hi], Nat.le_refl _⟩

end ShiftReduce
