import Mathlib.Data.List.Sort
import ShiftReduce.Proofs.Collection.Projection
import ShiftReduce.Proofs.Lalr.Lookaheads
import ShiftReduce.Proofs.Lalr.Union

namespace ShiftReduce

open Exploration

-- The state of the LR(0) collection with the cores of an LR(1) state.
def project (ctx : Context) (q : StateId) : StateId where
  number := placeOf (collection ctx .lr0) (bare (kernelIn ctx .lr1 q))

variable {ctx : Context} {p q : StateId} {c d : Core} {t : Terminal} {x : Symbol}

section Places

theorem project_lt (hg : ctx.grammar.WellFormed) (hq : q.number < (collection ctx .lr1).length) :
    (project ctx q).number < (collection ctx .lr0).length := by
  refine placeOf_lt_length_iff.mpr ?_
  rw [collection_lr0_eq hg, key_mem_firsts]
  exact List.mem_map_of_mem <| List.mem_map_of_mem <| kernelIn_mem hq

theorem toFinset_kernelIn_project (hg : ctx.grammar.WellFormed)
    (hq : q.number < (collection ctx .lr1).length) :
    (kernelIn ctx .lr0 (project ctx q)).toFinset = (bare (kernelIn ctx .lr1 q)).toFinset := by
  have hlt := project_lt hg hq
  rw [kernelIn_eq (List.getElem?_eq_getElem hlt)]
  exact toFinset_getElem_placeOf hlt

theorem coresAt_eq_iff :
    coresAt ctx p = coresAt ctx q ↔
      (bare (kernelIn ctx .lr1 p)).toFinset = (bare (kernelIn ctx .lr1 q)).toFinset :=
  toFinset_bare_eq_iff.symm

theorem project_eq_of_coresAt (h : coresAt ctx p = coresAt ctx q) : project ctx p = project ctx q :=
  congrArg StateId.mk <| placeOf_congr <| coresAt_eq_iff.mp h

theorem project_leader (hq : q.number < (collection ctx .lr1).length) :
    project ctx (leader ctx q) = project ctx q :=
  project_eq_of_coresAt <| coresAt_leader hq

theorem project_eq_iff (hg : ctx.grammar.WellFormed)
    (hp : p.number < (collection ctx .lr1).length) (hq : q.number < (collection ctx .lr1).length) :
    project ctx p = project ctx q ↔ coresAt ctx p = coresAt ctx q := by
  refine ⟨fun h => coresAt_eq_iff.mpr ?_, project_eq_of_coresAt⟩
  rw [← toFinset_kernelIn_project hg hp, h, toFinset_kernelIn_project hg hq]

end Places

section Leaders

-- A leader is the first of the LR(1) states above its projection.
theorem not_mem_take_of_leader (hq : q.number < (collection ctx .lr1).length)
    (hl : leader ctx q = q) : (bare (kernelIn ctx .lr1 q)).toFinset ∉
      ((((collection ctx .lr1).map bare).take q.number).map List.toFinset) := by
  intro hm
  obtain ⟨k, hk, hkey⟩ := List.mem_map.mp hm
  obtain ⟨i, hi, hik⟩ := List.mem_take_iff_getElem.mp hk
  have hi : i < q.number := by omega
  have hcores : coresAt ctx ⟨i⟩ = coresAt ctx q := by
    refine coresAt_eq_iff.mpr ?_
    rw [← hkey, ← hik, kernelIn_eq (List.getElem?_eq_getElem (hi.trans hq)), List.getElem_map]
  have hle : (leader ctx ⟨i⟩).number ≤ i := leader_le (hi.trans hq)
  rw [leader_eq_leader hcores, hl] at hle
  omega

theorem getElem?_map_bare (hq : q.number < (collection ctx .lr1).length) :
    ((collection ctx .lr1).map bare)[q.number]? = some (bare (kernelIn ctx .lr1 q)) := by
  simp [getElem?_kernelIn hq]

theorem getElem?_collection_lr0 (hg : ctx.grammar.WellFormed)
    (hq : q.number < (collection ctx .lr1).length) (hl : leader ctx q = q) :
    (collection ctx .lr0)[(firsts List.toFinset
      (((collection ctx .lr1).map bare).take q.number)).length]? =
      some (bare (kernelIn ctx .lr1 q)) := by
  rw [collection_lr0_eq hg]
  exact getElem?_firsts (getElem?_map_bare hq) <| not_mem_take_of_leader hq hl

theorem project_of_leader (hg : ctx.grammar.WellFormed)
    (hq : q.number < (collection ctx .lr1).length) (hl : leader ctx q = q) :
    (project ctx q).number =
      (firsts List.toFinset (((collection ctx .lr1).map bare).take q.number)).length :=
  placeOf_getElem nodup_collection <| getElem?_collection_lr0 hg hq hl

theorem kernelIn_project (hg : ctx.grammar.WellFormed)
    (hq : q.number < (collection ctx .lr1).length) (hl : leader ctx q = q) :
    kernelIn ctx .lr0 (project ctx q) = bare (kernelIn ctx .lr1 q) := by
  refine kernelIn_eq ?_
  rw [project_of_leader hg hq hl]
  exact getElem?_collection_lr0 hg hq hl

theorem project_lt_project (hg : ctx.grammar.WellFormed)
    (hq : q.number < (collection ctx .lr1).length) (hlp : leader ctx p = p)
    (hlq : leader ctx q = q) (hlt : p.number < q.number) :
    (project ctx p).number < (project ctx q).number := by
  have hp := hlt.trans hq
  rw [project_of_leader hg hp hlp, project_of_leader hg hq hlq]
  exact length_firsts_take_lt (getElem?_map_bare hp) (not_mem_take_of_leader hp hlp) hlt

theorem exists_leader (hg : ctx.grammar.WellFormed)
    (hq : q.number < (collection ctx .lr0).length) :
    ∃ p, p.number < (collection ctx .lr1).length ∧ leader ctx p = p ∧ project ctx p = q := by
  have hmem := List.map_subset List.toFinset (fun _ => id) <| List.mem_map_of_mem <|
    kernelIn_mem hq
  rw [collection_lr0_eq hg, key_mem_firsts] at hmem
  obtain ⟨b, hb, hbq⟩ := List.mem_map.mp hmem
  obtain ⟨k, hk, hkb⟩ := List.mem_map.mp hb
  obtain ⟨i, hi, hik⟩ := List.mem_iff_getElem.mp hk
  subst hik hkb
  have hp : (⟨i⟩ : StateId).number < (collection ctx .lr1).length := hi
  refine ⟨leader ctx ⟨i⟩, (leader_le hp).trans_lt hp, leader_leader hp, ?_⟩
  rw [project_leader hp, project, kernelIn_eq (List.getElem?_eq_getElem hp), placeOf_congr hbq]
  exact congrArg StateId.mk <| placeOf_kernelIn hq

end Leaders

section Targets

theorem mem_map_core_closureIn_project (hg : ctx.grammar.WellFormed)
    (hq : q.number < (collection ctx .lr1).length) :
    c ∈ (closureIn ctx .lr0 (project ctx q)).map Item.core ↔
      c ∈ (closureIn ctx .lr1 q).map Item.core := by
  have k := isKernel_kernelIn hg hq
  have hmem := fun i => mem_closureOf_iff (i := i) hg (isKernel_kernelIn hg <| project_lt hg hq)
    k.bare (toFinset_kernelIn_project hg hq)
  have hcores := map_core_closureOf_bare hg k
  simp only [closureIn, List.mem_map, hmem, ← hcores]

theorem toFinset_kernelOver_project (hg : ctx.grammar.WellFormed)
    (hq : q.number < (collection ctx .lr1).length) :
    (kernelOver ctx.grammar x (closureIn ctx .lr0 (project ctx q))).toFinset =
      (bare (kernelOver ctx.grammar x (closureIn ctx .lr1 q))).toFinset := by
  have k := isKernel_kernelIn hg hq
  rw [closureIn, closureIn, ← kernelOver_closureOf_bare hg k]
  exact toFinset_kernelOver_congr fun i => mem_closureOf_iff hg
    (isKernel_kernelIn hg <| project_lt hg hq) k.bare (toFinset_kernelIn_project hg hq)

theorem project_targetIn (hg : ctx.grammar.WellFormed)
    (hq : q.number < (collection ctx .lr1).length)
    (hx : x ∈ nextSymbols ctx.grammar ((closureIn ctx .lr1 q).map Item.core)) :
    project ctx (targetIn ctx .lr1 q x) = targetIn ctx .lr0 (project ctx q) x := by
  refine congrArg StateId.mk <| placeOf_congr ?_
  rw [toFinset_kernelOver_project hg hq]
  exact toFinset_bare_congr <| List.toFinset.ext fun i => by
    rw [mem_kernelIn_targetIn hg hq hx]

theorem project_start (hg : ctx.grammar.WellFormed) : project ctx .start = .start := by
  have hlt : StateId.start.number < (collection ctx .lr0).length := length_collection_pos hg
  have hget := getElem?_kernelIn hlt
  rw [kernelIn_start hg] at hget
  rw [project, kernelIn_start hg, bare_start, placeOf_getElem nodup_collection hget]

end Targets

section Lookaheads

theorem IsLookahead.of_covers (hg : ctx.grammar.WellFormed)
    (hp : p.number < (collection ctx .lr1).length)
    (hk : ∀ c t, Covers (kernelIn ctx .lr1 p) c t → IsLookahead ctx (project ctx p) c t)
    (h : Covers (closureIn ctx .lr1 p) c t) : IsLookahead ctx (project ctx p) c t := by
  have hcompletes := completes_closureIn hg hp
  refine of_looksAhead hg (project_lt hg hp) ?_ hk <| (hcompletes.covers rfl c t).mp h
  intro d hd
  refine (mem_map_core_closureIn_project hg hp).mpr ?_
  exact List.map_subset _ hcompletes.subset.subset hd

-- By induction on the exploration, the kernels have no other lookaheads.
theorem isLookahead_of_covers_kernelIn (hg : ctx.grammar.WellFormed) :
    ∀ kernel ∈ collection ctx .lr1, ∀ c t, Covers kernel c t →
      IsLookahead ctx ⟨placeOf (collection ctx .lr0) (bare kernel)⟩ c t := by
  have hexplored : IsExplored _ _ _ (collection ctx .lr1) := collection_isExplored hg
  refine hexplored.forall ?_ fun k hk hi k' hk' hnext c t hc => ?_
  case refine_1 =>
    intro k hk c t hc
    rw [List.mem_singleton.mp hk] at hc ⊢
    obtain ⟨hcore, ht⟩ := covers_singleton.mp hc
    have hstart := project_start hg
    rw [project, kernelIn_start hg] at hstart
    rw [hstart, ← hcore, show t = .endOfInput by simpa [Item.start, Item.lookaheadSet] using ht]
    exact .start
  case refine_2 =>
    obtain ⟨x, hx, hxk⟩ := mem_nextKernels.mp hnext
    obtain ⟨i, hlt, hik⟩ := List.mem_iff_getElem.mp hk
    have hp : (⟨i⟩ : StateId).number < (collection ctx .lr1).length := hlt
    have hkernel : kernelIn ctx .lr1 ⟨i⟩ = k := hik ▸ kernelIn_eq (List.getElem?_eq_getElem hlt)
    rw [← hkernel] at hi hx hxk
    subst hxk
    obtain ⟨d, hd, hdc, hcovers⟩ := covers_kernelOver.mp hc
    have hplace : placeOf (collection ctx .lr0)
        (bare (kernelOver ctx.grammar x (closureOf ctx .lr1 (kernelIn ctx .lr1 ⟨i⟩)))) =
        (targetIn ctx .lr0 (project ctx ⟨i⟩) x).number :=
      placeOf_congr (toFinset_kernelOver_project hg hp).symm
    rw [hplace, ← hdc]
    exact .shifted (.of_covers hg hp hi hcovers) hd

-- A lookahead of an LR(0) state comes from one of the LR(1) states above it.
theorem isLookahead_iff (hg : ctx.grammar.WellFormed) : IsLookahead ctx q c t ↔
    ∃ p, (p.number < (collection ctx .lr1).length ∧ project ctx p = q) ∧
      Covers (closureIn ctx .lr1 p) c t := by
  constructor
  case mp =>
    intro l
    induction l
    case start =>
      have hlt : StateId.start.number < (collection ctx .lr1).length := length_collection_pos hg
      refine ⟨.start, ⟨hlt, project_start hg⟩, ?_⟩
      refine Covers.subset (completes_closureIn hg hlt).subset.subset ?_
      rw [kernelIn_start hg]
      exact covers_singleton.mpr ⟨rfl, TerminalSet.mem_singleton.mpr rfl⟩
    case generated hq hc hd ht =>
      obtain ⟨p, hp, _, hpq⟩ := exists_leader hg hq
      have hcompletes : Completes ctx .lr1 _ _ := completes_closureIn hg hp
      subst hpq
      rw [mem_map_core_closureIn_project hg hp, hcompletes.mem_iff_predicted] at hc
      exact ⟨p, ⟨hp, rfl⟩, (hcompletes.covers rfl _ _).mpr <| .generated hc hd ht⟩
    case passed hd hn hi =>
      obtain ⟨p, hp, hcovers⟩ := hi
      have hcompletes : Completes ctx .lr1 _ _ := completes_closureIn hg hp.left
      refine ⟨p, hp, (hcompletes.covers rfl _ _).mpr ?_⟩
      exact .passed ((hcompletes.covers rfl _ _).mp hcovers) hd hn
    case shifted x _ hx hi =>
      obtain ⟨p, ⟨hp, hpq⟩, hcovers⟩ := hi
      have hsymbol := mem_nextSymbols_closureIn hcovers.mem_map_core hx
      have hlt := targetIn_lt hg hp hsymbol
      refine ⟨targetIn ctx .lr1 p x, ⟨hlt, hpq ▸ project_targetIn hg hp hsymbol⟩, ?_⟩
      refine Covers.subset (completes_closureIn hg hlt).subset.subset ?_
      refine Covers.subset (fun i hi => (mem_kernelIn_targetIn hg hp hsymbol).mpr hi) ?_
      exact covers_kernelOver.mpr ⟨_, hx, rfl, hcovers⟩
  case mpr =>
    rintro ⟨p, ⟨hp, hpq⟩, hcovers⟩
    subst hpq
    exact .of_covers hg hp (isLookahead_of_covers_kernelIn hg _ <| kernelIn_mem hp) hcovers

end Lookaheads
end ShiftReduce
