import ShiftReduce.Proofs.Construction.Coherence
import ShiftReduce.Proofs.Construction.Phases

namespace ShiftReduce

open Exploration Automaton

-- The closure of a state is complete, and it has a transition for each symbol after a dot, to the
-- state whose kernel has the items with that symbol, advanced over it.
structure IsExpanded (ctx : Context) (kind : ItemKind) (a : Automaton) (q : StateId) (n : Node) :
    Prop where
  closed      : n.items.closed = true
  kinds       : ∀ i ∈ n.items.closure, i.kind = kind
  nodup       : (n.items.closure.map Item.core).Nodup
  cores       : ∀ c, c ∈ n.items.closure.map Item.core ↔
    Predicted ctx.grammar (n.items.kernel.map Item.core) c
  lookaheads  : kind = .lr1 → ∀ c t, Covers n.items.closure c t ↔ LooksAhead ctx n.items.kernel c t
  transitions : ∀ x, (a.transition? q x).isSome ↔
    ∃ i ∈ n.items.closure, i.next? ctx.grammar = some x
  targets     : ∀ x p, a.transition? q x = some p → ∃ m, a.node? p = some m ∧
    ∀ i, i ∈ m.items.kernel ↔ ∃ j ∈ n.items.closure, j.next? ctx.grammar = some x ∧ j.advance = i

-- The states before `bound` have been expanded, and no two states have the same kernel, which is
-- what the comparison of two kernels finds out.
structure IsCanonical (ctx : Context) (kind : ItemKind) (a : Automaton) (bound : Nat) : Prop where
  start    : ∃ n, a.node? .start = some n ∧ n.items.kernel = [.start kind]
  kinds    : ∀ {q n}, a.node? q = some n → ∀ i ∈ n.items.kernel, i.kind = kind
  nodup    : ∀ {q n}, a.node? q = some n → (n.items.kernel.map Item.core).Nodup
  same     : ∀ {p q n m}, a.node? p = some n → a.node? q = some m →
    (SameKernel kind n.items.kernel m.items.kernel ↔
      n.items.kernel.toFinset = m.items.kernel.toFinset)
  distinct : ∀ {p q n m}, a.node? p = some n → a.node? q = some m →
    n.items.kernel.toFinset = m.items.kernel.toFinset → p = q
  expanded : ∀ {q n}, a.node? q = some n → q.number < bound → IsExpanded ctx kind a q n

variable {ctx : Context} {kind : ItemKind} {alg : Algorithm} {a : Automaton} {n m : Node}
  {p q : StateId} {x : Symbol} {bound : Nat}

section Prefix

-- States are numbered as their kernels are in the whole collection.
theorem kernel_eq_kernelIn (hp : kernelsOf a.nodes <+: collection ctx kind)
    (hn : a.node? q = some n) :
    q.number < (collection ctx kind).length ∧ n.items.kernel = kernelIn ctx kind q := by
  have hget := (node?_eq_some_iff.mp hn).left
  have hlt : q.number < (kernelsOf a.nodes).length := by simpa using number_lt_size hn
  refine ⟨hlt.trans_le hp.length_le, (kernelIn_eq ?_).symm⟩
  rw [getElem?_of_isPrefix hp hlt, kernelsOf_getElem?, hget]
  rfl

theorem eq_of_toFinset_eq (hp : kernelsOf a.nodes <+: collection ctx kind)
    (hn : a.node? p = some n) (hm : a.node? q = some m)
    (h : n.items.kernel.toFinset = m.items.kernel.toFinset) : p = q := by
  obtain ⟨hplt, hpk⟩ := kernel_eq_kernelIn hp hn
  obtain ⟨hqlt, hqk⟩ := kernel_eq_kernelIn hp hm
  have hplace : placeOf (collection ctx kind) n.items.kernel = placeOf _ m.items.kernel :=
    placeOf_congr h
  rw [hpk, hqk, placeOf_kernelIn hplt, placeOf_kernelIn hqlt] at hplace
  exact congrArg StateId.mk hplace

-- A kernel that is there already has the place that it has in the whole collection.
theorem exists_node?_targetIn (hp : kernelsOf a.nodes <+: collection ctx kind)
    (hlive : ∀ n ∈ a.nodes, n.live = true)
    (hmem : (kernelOver ctx.grammar x (closureIn ctx kind q)).toFinset ∈
      (kernelsOf a.nodes).map List.toFinset) :
    ∃ m, a.node? (targetIn ctx kind q x) = some m := by
  have hlt : (targetIn ctx kind q x).number < a.nodes.size := by
    rw [targetIn, placeOf_eq_of_isPrefix hp hmem, ← length_kernelsOf]
    exact placeOf_lt_length_iff.mpr hmem
  have hget := Array.getElem?_eq_getElem hlt
  exact ⟨_, node?_eq_some_iff.mpr ⟨hget, hlive _ <| Array.mem_of_getElem? hget⟩⟩

theorem isExpanded_of_isPrefix (hg : ctx.grammar.WellFormed)
    (hp : kernelsOf a.nodes <+: collection ctx kind) (hlive : ∀ n ∈ a.nodes, n.live = true)
    (hn : a.node? q = some n) (h : IsCollected ctx kind n)
    (hnext : ∀ k ∈ nextKernels ctx kind n.items.kernel,
      k.toFinset ∈ (kernelsOf a.nodes).map List.toFinset) : IsExpanded ctx kind a q n := by
  obtain ⟨hlt, hkernel⟩ := kernel_eq_kernelIn hp hn
  have hclosure : n.items.closure = closureIn ctx kind q := by
    rw [h.closure, hkernel, closureIn]
  have hcompletes : Completes ctx kind n.items.kernel n.items.closure := by
    rw [hkernel, hclosure]
    exact completes_closureIn hg hlt
  have htransition {x} := transition?_of_edges (x := x) (τ := id) hn <| by
    rw [h.edges, hkernel]
    exact (List.map_id _).symm
  constructor
  case closed     => exact h.closed
  case kinds      => exact hcompletes.kinds
  case nodup      => exact hcompletes.nodup <| hkernel ▸ (isKernel_kernelIn hg hlt).nodup
  case cores      => exact fun _ => hcompletes.mem_iff_predicted
  case lookaheads => exact hcompletes.covers
  case transitions =>
    intro x
    have hsymbol : x ∈ nextSymbols ctx.grammar ((closureIn ctx kind q).map Item.core) ↔
        ∃ i ∈ n.items.closure, i.next? ctx.grammar = some x := by
      simp [mem_nextSymbols, hclosure, Item.next?]
    rw [htransition, ← hsymbol]
    exact Option.isSome_ite
  case targets =>
    intro x p hx
    rw [htransition] at hx
    split at hx
    case isFalse => contradiction
    case isTrue hsymbol =>
      cases hx
      have hover := kernelOver_mem_nextKernels hsymbol
      obtain ⟨m, hm⟩ := exists_node?_targetIn hp hlive <| hnext _ <| hkernel ▸ hover
      refine ⟨m, hm, fun i => ?_⟩
      rw [(kernel_eq_kernelIn hp hm).right, mem_kernelIn_targetIn hg hlt hsymbol, mem_kernelOver,
        hclosure]

theorem isCanonical_of_isPrefix (hg : ctx.grammar.WellFormed)
    (hp : kernelsOf a.nodes <+: collection ctx kind) (hpos : 0 < a.nodes.size)
    (hlive : ∀ n ∈ a.nodes, n.live = true)
    (hcollected : ∀ j n, j < bound → a.nodes[j]? = some n → IsCollected ctx kind n ∧
      ∀ k ∈ nextKernels ctx kind n.items.kernel,
        k.toFinset ∈ (kernelsOf a.nodes).map List.toFinset) :
    IsCanonical ctx kind a bound := by
  have hkernel {q n} (hn : a.node? q = some n) : IsKernel ctx.grammar kind n.items.kernel := by
    obtain ⟨hlt, hk⟩ := kernel_eq_kernelIn hp hn
    exact hk ▸ isKernel_kernelIn hg hlt
  constructor
  case start =>
    have hget := Array.getElem?_eq_getElem hpos
    have hn : a.node? .start = some a.nodes[0] :=
      node?_eq_some_iff.mpr ⟨hget, hlive _ <| Array.mem_of_getElem? hget⟩
    exact ⟨_, hn, (kernel_eq_kernelIn hp hn).right.trans <| kernelIn_start hg⟩
  case kinds    => exact fun hn => (hkernel hn).kinds
  case nodup    => exact fun hn => (hkernel hn).nodup
  case same     => exact fun hn hm => sameKernel_iff (hkernel hn) (hkernel hm)
  case distinct => exact fun hn hm => eq_of_toFinset_eq hp hn hm
  case expanded =>
    intro q n hn hlt
    obtain ⟨hn', hnext⟩ := hcollected _ n hlt (node?_eq_some_iff.mp hn).left
    exact isExpanded_of_isPrefix hg hp hlive hn hn' hnext

end Prefix

theorem Collecting.isCanonical (hg : ctx.grammar.WellFormed) (h : Collecting ctx alg a) :
    IsCanonical ctx alg.itemKind a a.pointer := by
  obtain ⟨n, hn, _⟩ := h.current
  have hpos := Nat.zero_lt_of_lt (Array.getElem?_eq_some_iff.mp hn).choose
  have hp := h.kernels ▸ (collection_isExplored hg).explore_isPrefix
  refine isCanonical_of_isPrefix hg hp hpos h.live fun j n hj hn => ?_
  refine ⟨h.collected j n hj hn, fun k hk => ?_⟩
  have hget : (kernelsOf a.nodes)[j]? = some n.items.kernel := by simp [kernelsOf_getElem?, hn]
  rw [h.kernels] at hget ⊢
  exact next_mem_explore hj hget hk

-- There is no state that has not been expanded.
theorem Collected.isCanonical (hg : ctx.grammar.WellFormed) (h : Collected ctx alg a) :
    IsCanonical ctx alg.itemKind a bound := by
  have hp : kernelsOf a.nodes <+: collection ctx alg.itemKind := h.kernels ▸ List.prefix_refl _
  have hpos : 0 < a.nodes.size := h.size_eq ▸ length_collection_pos hg
  refine isCanonical_of_isPrefix hg hp hpos (fun n hn => (h.nodes n hn).live) fun j n _ hn => ?_
  refine ⟨h.nodes n <| Array.mem_of_getElem? hn, fun k hk => ?_⟩
  rw [h.kernels]
  exact (collection_isExplored hg).next_mem (List.mem_of_getElem? <| h.getElem?_eq hn) hk

-- The run ends with the whole collection, of which every state can be reached. On the way, the
-- states before the pointer are as they will stay, and no state is ever found twice.
theorem canonical_collection (h : ctx.grammar.IsDefined) (halg : alg = .lr0 ∨ alg = .lr1) :
    (∃ a n, (initial ctx alg).run ctx = (a, .ok n) ∧ a.IsDone ∧
      IsCanonical ctx alg.itemKind a a.nodes.size ∧ ∀ q ∈ a.liveStates, a.IsReachable q) ∧
    ∀ k, let a := (fun a => (a.step ctx).1)^[k] (initial ctx alg)
      IsCanonical ctx alg.itemKind a a.pointer := by
  have hg := h.wellFormed
  have hcollected {a} (ho : IsOutcome ctx alg a) : Collected ctx alg a := by
    obtain rfl | rfl := halg <;> exact ho.left
  constructor
  case left =>
    obtain ⟨a, n, hreaches, houtcome, hdone, hn⟩ := exists_reaches_outcome hg alg
    exact ⟨a, n, hreaches.run hdone hn, hdone, (hcollected houtcome).isCanonical hg,
      fun q => houtcome.isReachable hg⟩
  case right =>
    intro k a
    have hunderway : Underway ctx alg a := .iterate hg
    cases hunderway
    case collecting h => exact h.isCanonical hg
    case complete h   => exact (hcollected h).isCanonical hg
    all_goals simp_all

theorem canonical_collection_on_repetition : Grammar.repetition.IsDefined ∧
    ∃ a n, (initial (.ofGrammar .repetition) .lr1).run (.ofGrammar .repetition) = (a, .ok n) ∧
      a.IsDone ∧ IsCanonical (.ofGrammar .repetition) .lr1 a a.nodes.size := by
  obtain ⟨⟨a, n, hrun, hdone, hcanonical, _⟩, _⟩ :=
    @canonical_collection (.ofGrammar .repetition) .lr1 Grammar.repetition_isDefined (.inr rfl)
  exact ⟨Grammar.repetition_isDefined, a, n, hrun, hdone, hcanonical⟩

end ShiftReduce
