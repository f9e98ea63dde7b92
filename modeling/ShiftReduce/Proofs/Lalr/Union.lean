import ShiftReduce.Proofs.Collection.Places
import ShiftReduce.Proofs.Construction.States

namespace ShiftReduce

open Exploration

def coresAt (ctx : Context) (q : StateId) : Finset Core :=
  ((kernelIn ctx .lr1 q).map Item.core).toFinset

-- The first state with the same cores.
def leader (ctx : Context) (q : StateId) : StateId where
  number := (collection ctx .lr1).findIdx fun k => (k.map Item.core).toFinset = coresAt ctx q

-- The items are those of the state `q`, with the lookaheads that they have in any of the origins.
structure IsUnion (ctx : Context) (origins : StateId → Prop) (q : StateId) (s : ItemSet) :
    Prop where
  kernelCores   : s.kernel.map Item.core = (kernelIn ctx .lr1 q).map Item.core
  kernelKinds   : ∀ i ∈ s.kernel, i.kind = .lr1
  kernelCovers  : ∀ c t, Covers s.kernel c t ↔ ∃ p, origins p ∧ Covers (kernelIn ctx .lr1 p) c t
  closureCores  : s.closure.map Item.core = (closureIn ctx .lr1 q).map Item.core
  closureKinds  : ∀ i ∈ s.closure, i.kind = .lr1
  closureCovers : ∀ c t, Covers s.closure c t ↔
    ∃ p, origins p ∧ Covers (closureIn ctx .lr1 p) c t

-- States with the same cores are united, the state itself among them.
structure IsClass (ctx : Context) (origins : StateId → Prop) (q : StateId) : Prop where
  self  : origins q
  lt    : ∀ {p}, origins p → p.number < (collection ctx .lr1).length
  cores : ∀ {p}, origins p → coresAt ctx p = coresAt ctx q

variable {ctx : Context} {kernel closure : List Item} {p q r : StateId} {n : Node}
  {s s' : ItemSet} {kind : ItemKind} {c : Core} {t : Terminal} {origins origins' : StateId → Prop}

section Leaders

theorem leader_le (h : q.number < (collection ctx .lr1).length) :
    (leader ctx q).number ≤ q.number := by
  by_contra hlt
  have := List.not_of_lt_findIdx (Nat.lt_of_not_le hlt)
  simp [coresAt, kernelIn, h] at this

theorem coresAt_leader (h : q.number < (collection ctx .lr1).length) :
    coresAt ctx (leader ctx q) = coresAt ctx q := by
  have hlt := Nat.lt_of_le_of_lt (leader_le h) h
  have := of_decide_eq_true <| List.findIdx_getElem (w := hlt)
  rwa [coresAt, kernelIn_eq (List.getElem?_eq_getElem hlt)]

theorem leader_eq_leader (h : coresAt ctx p = coresAt ctx q) : leader ctx p = leader ctx q := by
  rw [leader, leader, h]

theorem leader_leader (h : q.number < (collection ctx .lr1).length) :
    leader ctx (leader ctx q) = leader ctx q :=
  leader_eq_leader <| coresAt_leader h

theorem leader_eq_leader_iff (hp : p.number < (collection ctx .lr1).length)
    (hq : q.number < (collection ctx .lr1).length) :
    leader ctx p = leader ctx q ↔ coresAt ctx p = coresAt ctx q := by
  refine ⟨fun h => ?_, leader_eq_leader⟩
  rw [← coresAt_leader hp, ← coresAt_leader hq, h]

-- The states with one leader.
theorem isClass_leader (hq : q.number < (collection ctx .lr1).length) (h : leader ctx q = q) :
    IsClass ctx (fun p => p.number < (collection ctx .lr1).length ∧ leader ctx p = q) q where
  self     := ⟨hq, h⟩
  lt hp    := hp.left
  cores hp := (leader_eq_leader_iff hp.left hq).mp <| hp.right.trans h.symm

end Leaders

section Cores

theorem mem_coresAt : c ∈ coresAt ctx q ↔ c ∈ (kernelIn ctx .lr1 q).map Item.core :=
  List.mem_toFinset

theorem map_core_kernelIn_subset (h : coresAt ctx p = coresAt ctx q) :
    (kernelIn ctx .lr1 p).map Item.core ⊆ (kernelIn ctx .lr1 q).map Item.core :=
  fun _ hc => mem_coresAt.mp <| h ▸ mem_coresAt.mpr hc

-- States with the same cores in their kernels have the same cores in their closures.
theorem map_core_closureIn_subset (hg : ctx.grammar.WellFormed)
    (hp : p.number < (collection ctx .lr1).length) (hq : q.number < (collection ctx .lr1).length)
    (h : coresAt ctx p = coresAt ctx q) : (closureIn ctx .lr1 p).map Item.core ⊆
      (closureIn ctx .lr1 q).map Item.core := by
  intro c hc
  rw [(completes_closureIn hg hp).mem_iff_predicted] at hc
  rw [(completes_closureIn hg hq).mem_iff_predicted]
  exact hc.subset <| map_core_kernelIn_subset h

theorem covers_kernelIn_iff (hg : ctx.grammar.WellFormed)
    (hp : p.number < (collection ctx .lr1).length) (h : coresAt ctx p = coresAt ctx q) :
    Covers (kernelIn ctx .lr1 p) c t ↔
      c ∈ (kernelIn ctx .lr1 q).map Item.core ∧ Covers (closureIn ctx .lr1 p) c t := by
  rw [(completes_closureIn hg hp).covers_kernel_iff (isKernel_kernelIn hg hp).nodup,
    ← mem_coresAt, ← mem_coresAt, h]

end Cores

namespace IsUnion

theorem toFinset_cores (h : IsUnion ctx origins q s) :
    (s.kernel.map Item.core).toFinset = coresAt ctx q := by
  rw [h.kernelCores, coresAt]

theorem of_isCollected (hg : ctx.grammar.WellFormed) (hq : q.number < (collection ctx .lr1).length)
    (h : IsCollected ctx .lr1 n) (hk : n.items.kernel = kernelIn ctx .lr1 q) :
    IsUnion ctx (· = q) q n.items where
  kernelCores       := by rw [hk]
  kernelKinds       := by rw [hk]; exact (isKernel_kernelIn hg hq).kinds
  kernelCovers c t  := by simp [hk]
  closureCores      := by rw [h.closure, hk, closureIn]
  closureKinds      := by
    rw [h.closure, hk]
    exact (completes_closureIn hg hq).kinds
  closureCovers c t := by simp [h.closure, hk, closureIn]

theorem congr (h : IsUnion ctx origins q s) (ho : ∀ p, origins p ↔ origins' p) :
    IsUnion ctx origins' q s :=
  (funext fun p => propext (ho p) : origins = origins') ▸ h

theorem absorb (hg : ctx.grammar.WellFormed) (hq : q.number < (collection ctx .lr1).length)
    (hr : r.number < (collection ctx .lr1).length) (hqr : coresAt ctx r = coresAt ctx q)
    (h : IsUnion ctx origins q s) (h' : IsUnion ctx origins' r s') :
    IsUnion ctx (fun p => origins p ∨ origins' p) q (s.absorb s') where
  kernelCores       := map_core_foldl_joinFirst.trans h.kernelCores
  kernelKinds       := kind_of_mem_foldl_joinFirst h.kernelKinds
  closureCores      := map_core_foldl_joinFirst.trans h.closureCores
  closureKinds      := kind_of_mem_foldl_joinFirst h.closureKinds
  kernelCovers c t  := by
    have hmem (hc : Covers s'.kernel c t) : c ∈ s.kernel.map Item.core := by
      rw [h.kernelCores]
      exact map_core_kernelIn_subset hqr <| h'.kernelCores ▸ hc.mem_map_core
    rw [ItemSet.absorb, covers_foldl_joinFirst h.kernelKinds h'.kernelKinds,
      and_iff_right_of_imp hmem, h.kernelCovers, h'.kernelCovers]
    simp only [or_and_right, exists_or]
  closureCovers c t := by
    have hmem (hc : Covers s'.closure c t) : c ∈ s.closure.map Item.core := by
      rw [h.closureCores]
      exact map_core_closureIn_subset hg hr hq hqr <| h'.closureCores ▸ hc.mem_map_core
    rw [ItemSet.absorb, covers_foldl_joinFirst h.closureKinds h'.closureKinds,
      and_iff_right_of_imp hmem, h.closureCovers, h'.closureCovers]
    simp only [or_and_right, exists_or]

section Closure

theorem isKernel (hg : ctx.grammar.WellFormed) (h : IsUnion ctx origins q s)
    (ho : IsClass ctx origins q) : IsKernel ctx.grammar .lr1 s.kernel := by
  have k := isKernel_kernelIn hg <| ho.lt ho.self
  refine k.of_cores h.kernelCores h.kernelKinds fun c t hc => ?_
  obtain ⟨p, hp, hcovers⟩ := (h.kernelCovers c t).mp hc
  exact (isKernel_kernelIn hg <| ho.lt hp).terminals c t hcovers

theorem nodup_closure (hg : ctx.grammar.WellFormed) (h : IsUnion ctx origins q s)
    (ho : IsClass ctx origins q) : (s.closure.map Item.core).Nodup := by
  have hlt := ho.lt ho.self
  rw [h.closureCores]
  exact (completes_closureIn hg hlt).nodup (isKernel_kernelIn hg hlt).nodup

theorem covers_kernel_iff (hg : ctx.grammar.WellFormed) (h : IsUnion ctx origins q s)
    (ho : IsClass ctx origins q) :
    Covers s.kernel c t ↔ c ∈ s.kernel.map Item.core ∧ Covers s.closure c t := by
  rw [h.kernelCovers, h.closureCovers, h.kernelCores, ← exists_and_left]
  refine exists_congr fun p => ?_
  rw [and_left_comm, and_congr_right_iff]
  exact fun hp => covers_kernelIn_iff hg (ho.lt hp) (ho.cores hp)

theorem kernel_isPrefix (hg : ctx.grammar.WellFormed) (h : IsUnion ctx origins q s)
    (ho : IsClass ctx origins q) : s.kernel <+: s.closure := by
  have hcores : (s.closure.take s.kernel.length).map Item.core = s.kernel.map Item.core := by
    have hp := (completes_closureIn hg <| ho.lt ho.self).subset.map Item.core
    rw [← h.kernelCores, ← h.closureCores] at hp
    rw [List.map_take, List.prefix_iff_eq_take.mp hp, List.length_map]
  have htake : s.closure.take s.kernel.length = s.kernel := by
    refine eq_of_covers (fun i hi => h.closureKinds i <| List.mem_of_mem_take hi) h.kernelKinds
      hcores (hcores ▸ (h.isKernel hg ho).nodup) fun c t => ?_
    rw [covers_iff_of_subset (List.take_subset _ _) (h.nodup_closure hg ho), hcores,
      h.covers_kernel_iff hg ho]
  exact List.prefix_iff_eq_take.mpr htake.symm

-- The lookaheads that are passed on in a union are those that are passed on in its parts.
theorem covers_closure_iff (hg : ctx.grammar.WellFormed) (h : IsUnion ctx origins q s)
    (ho : IsClass ctx origins q) : Covers s.closure c t ↔ LooksAhead ctx s.kernel c t := by
  have hlooks {p : StateId} {c : Core} {t : Terminal} (hp : origins p) :
      Covers (closureIn ctx .lr1 p) c t ↔ LooksAhead ctx (kernelIn ctx .lr1 p) c t :=
    (completes_closureIn hg <| ho.lt hp).covers rfl c t
  rw [h.closureCovers]
  constructor
  case mp =>
    rintro ⟨p, hp, hc⟩
    refine ((hlooks hp).mp hc).mono ?_ fun c t hk => (h.kernelCovers c t).mpr ⟨p, hp, hk⟩
    rw [h.kernelCores]
    exact map_core_kernelIn_subset (ho.cores hp)
  case mpr =>
    intro l
    induction l
    case kernel hk =>
      obtain ⟨p, hp, hc⟩ := (h.kernelCovers _ _).mp hk
      exact ⟨p, hp, (hlooks hp).mpr <| .kernel hc⟩
    case generated hp hd ht =>
      rw [h.kernelCores] at hp
      exact ⟨q, ho.self, (hlooks ho.self).mpr <| .generated hp hd ht⟩
    case passed hd hn hi =>
      obtain ⟨p, hp, hc⟩ := hi
      exact ⟨p, hp, (hlooks hp).mpr <| .passed ((hlooks hp).mp hc) hd hn⟩

theorem completes (hg : ctx.grammar.WellFormed) (h : IsUnion ctx origins q s)
    (ho : IsClass ctx origins q) : Completes ctx .lr1 s.kernel s.closure where
  subset   := h.kernel_isPrefix hg ho
  kinds    := h.closureKinds
  explored := by
    rw [h.kernelCores, h.closureCores]
    exact (completes_closureIn hg <| ho.lt ho.self).explored
  covers   := fun _ _ _ => h.covers_closure_iff hg ho

-- The closure of the united kernels is the union of their closures.
theorem closure_eq (hg : ctx.grammar.WellFormed) (h : IsUnion ctx origins q s)
    (ho : IsClass ctx origins q) : s.closure = closureOf ctx .lr1 s.kernel :=
  have k := h.isKernel hg ho
  (h.completes hg ho).unique (closureOf_completes hg k) k.nodup

end Closure
end IsUnion
end ShiftReduce
