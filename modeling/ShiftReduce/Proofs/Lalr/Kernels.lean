import ShiftReduce.Proofs.Lalr.Lookaheads

namespace ShiftReduce

open Exploration Automaton

namespace Automaton

def kernelItems (a : Automaton) (q : StateId) : List Item :=
  (a.nodes[q.number]?.map (·.items.kernel)).getD []

def gain (a : Automaton) (r : KernelRef) (lookaheads : TerminalSet) : Automaton :=
  a.modifyItems r.state (·.addLookaheads r.index lookaheads)

end Automaton

-- The kernel item that a reference refers to.
def IsRef (ctx : Context) (r : KernelRef) (c : Core) : Prop :=
  (kernelIn ctx .lr0 r.state)[r.index]?.map Item.core = some c

def HasLink (effects : List (KernelRef × List KernelRef)) (source target : KernelRef) : Prop :=
  ∃ targets, (source, targets) ∈ effects ∧ target ∈ targets

-- The source passes its lookaheads on to the target, whatever they are.
structure IsLink (ctx : Context) (source target : KernelRef) : Prop where
  passes : ∃ c d x, IsRef ctx source c ∧ LooksAhead ctx [⟨c, some {.marker}⟩] d .marker ∧
    d.next? ctx.grammar = some x ∧ target.state = targetIn ctx .lr0 source.state x ∧
    IsRef ctx target d.advance

-- The states and edges are those of the canonical LR(0) collection, and the items are LR(1) items.
structure IsShaped (ctx : Context) (a : Automaton) : Prop where
  algorithm  : a.algorithm = .lalrByPropagation
  size       : a.nodes.size = (collection ctx .lr0).length
  live       : ∀ n ∈ a.nodes, n.live = true
  edges      : ∀ {q : StateId} {n}, a.nodes[q.number]? = some n →
    n.edges = edgesOf ctx .lr0 (kernelIn ctx .lr0 q)
  cores      : ∀ q, (a.kernelItems q).map Item.core = (kernelIn ctx .lr0 q).map Item.core
  kinds      : ∀ q, ∀ i ∈ a.kernelItems q, i.kind = .lr1

-- At any time while lookaheads are added: the kernels have the cores of the LR(0) collection, and
-- no item has a lookahead that it must not have.
structure IsSound (ctx : Context) (a : Automaton) : Prop extends IsShaped ctx a where
  lookaheads : ∀ q c t, Covers (a.kernelItems q) c t → IsLookahead ctx q c t
  start      : Covers (a.kernelItems .start) ⟨.accept, 0⟩ .endOfInput
  links      : ∀ s t, HasLink a.effects s t → IsLink ctx s t

variable {ctx : Context} {a b c : Automaton} {r : KernelRef} {q : StateId} {k d : Core}
  {t : Terminal} {lookaheads : TerminalSet} {items : List Item} {j : Nat}

section Items

-- How an item of a kernel gains lookaheads.
def joining (lookaheads : TerminalSet) (i : Item) : Item :=
  i.join ⟨i.core, some lookaheads⟩

theorem mem_lookaheadSet_joining {i : Item} (h : i.kind = .lr1) :
    t ∈ (joining lookaheads i).lookaheadSet ↔ t ∈ i.lookaheadSet ∨ t ∈ lookaheads :=
  mem_lookaheadSet_join h rfl

theorem map_core_modify_joining :
    (items.modify j (joining lookaheads)).map Item.core = items.map Item.core := by
  refine List.ext_getElem? fun m => ?_
  rw [List.getElem?_map, List.getElem?_map, List.getElem?_modify]
  cases items[m]?
  case none => rfl
  case some i =>
    simp only [Option.map_some]
    split <;> simp [joining]

theorem kind_of_mem_modify_joining (h : ∀ i ∈ items, i.kind = .lr1) :
    ∀ i ∈ items.modify j (joining lookaheads), i.kind = .lr1 :=
  forall_mem_modify h fun _ => kind_join.trans

theorem covers_modify_joining (h : ∀ i ∈ items, i.kind = .lr1)
    (hk : items[j]?.map Item.core = some k) : Covers (items.modify j (joining lookaheads)) d t ↔
      Covers items d t ∨ (d = k ∧ t ∈ lookaheads) := by
  induction items generalizing j
  case nil => simp at hk
  case cons i items hi =>
    obtain ⟨hi₁, hi₂⟩ := List.forall_mem_cons.mp h
    cases j
    case zero =>
      have hk : i.core = k := by simpa using hk
      rw [List.modify_zero_cons, covers_cons, covers_cons, mem_lookaheadSet_joining hi₁, joining,
        Item.core_join, hk]
      grind
    case succ j =>
      rw [List.modify_succ_cons, covers_cons, covers_cons, hi hi₂ (by simpa using hk), or_assoc]

end Items

section Gain

theorem kernelItems_gain_self : (a.gain r lookaheads).kernelItems r.state =
    (a.kernelItems r.state).modify r.index (joining lookaheads) := by
  cases hn : a.nodes[r.state.number]?
  case none =>
    simp [gain, kernelItems, modifyItems, modifyNode, Array.getElem?_modify, hn]
  case some n =>
    simp [gain, kernelItems, modifyItems, modifyNode, Array.getElem?_modify, hn,
      ItemSet.addLookaheads]
    rfl

theorem kernelItems_gain_of_ne (h : q ≠ r.state) :
    (a.gain r lookaheads).kernelItems q = a.kernelItems q := by
  have hne : r.state.number ≠ q.number := fun he => h <| congrArg StateId.mk he.symm
  simp [gain, kernelItems, modifyItems, modifyNode, Array.getElem?_modify, hne]

end Gain

namespace IsShaped

-- Only what the automaton says of its kernels and edges counts.
theorem congr (h : IsShaped ctx a) (halg : b.algorithm = a.algorithm)
    (hsize : b.nodes.size = a.nodes.size) (hitems : ∀ q, b.kernelItems q = a.kernelItems q)
    (hnodes : ∀ (j : Nat) n, b.nodes[j]? = some n →
      ∃ m, a.nodes[j]? = some m ∧ n.live = m.live ∧ n.edges = m.edges) : IsShaped ctx b where
  algorithm := halg.trans h.algorithm
  size      := hsize.trans h.size
  live n hn := by
    obtain ⟨j, hj⟩ := Array.mem_iff_getElem?.mp hn
    obtain ⟨m, hm, hlive, _⟩ := hnodes j n hj
    exact hlive.trans <| h.live m (Array.mem_of_getElem? hm)
  edges     := by
    intro q n hn
    obtain ⟨m, hm, _, hedges⟩ := hnodes _ n hn
    exact hedges.trans <| h.edges hm
  cores q   := hitems q ▸ h.cores q
  kinds q   := hitems q ▸ h.kinds q

theorem kernelItems_isRef (h : IsShaped ctx a) (hr : IsRef ctx r k) :
    (a.kernelItems r.state)[r.index]?.map Item.core = some k := by
  have hcores := h.cores r.state
  rw [← List.getElem?_map, hcores, List.getElem?_map]
  exact hr

theorem covers_gain (h : IsShaped ctx a) (hr : IsRef ctx r k) :
    Covers ((a.gain r lookaheads).kernelItems q) d t ↔
      Covers (a.kernelItems q) d t ∨ (q = r.state ∧ d = k ∧ t ∈ lookaheads) := by
  by_cases hq : q = r.state
  case pos =>
    subst hq
    rw [kernelItems_gain_self, covers_modify_joining (h.kinds _) (h.kernelItems_isRef hr)]
    simp
  case neg => simp [kernelItems_gain_of_ne hq, hq]

theorem gain (h : IsShaped ctx a) : IsShaped ctx (a.gain r lookaheads) where
  algorithm := h.algorithm
  size      := size_modifyNode.trans h.size
  live      := live_modifyNode h.live fun _ => rfl
  edges     := by
    intro q n hn
    rw [Automaton.gain, modifyItems, modifyNode, Array.getElem?_modify] at hn
    split at hn
    case isTrue =>
      obtain ⟨m, hm, he⟩ := Option.map_eq_some_iff.mp hn
      subst he
      exact h.edges (n := m) hm
    case isFalse => exact h.edges hn
  cores q   := by
    by_cases hq : q = r.state
    case pos => rw [hq, kernelItems_gain_self, map_core_modify_joining, h.cores]
    case neg => rw [kernelItems_gain_of_ne hq, h.cores]
  kinds q   := by
    by_cases hq : q = r.state
    case pos =>
      rw [hq, kernelItems_gain_self]
      exact kind_of_mem_modify_joining (h.kinds _)
    case neg =>
      rw [kernelItems_gain_of_ne hq]
      exact h.kinds q

theorem getElem?_nodes (h : IsShaped ctx a) (hq : q.number < (collection ctx .lr0).length) :
    ∃ n, a.nodes[q.number]? = some n ∧ a.node? q = some n := by
  have hlt : q.number < a.nodes.size := h.size ▸ hq
  have hget : a.nodes[q.number]? = some a.nodes[q.number] := Array.getElem?_eq_getElem hlt
  exact ⟨_, hget, node?_eq_some_iff.mpr ⟨hget, h.live _ <| Array.mem_of_getElem? hget⟩⟩

end IsShaped

namespace IsSound

-- A gain of lookaheads that the item may have is sound.
theorem gain (h : IsSound ctx a) (hr : IsRef ctx r k)
    (hl : ∀ t ∈ lookaheads, IsLookahead ctx r.state k t) : IsSound ctx (a.gain r lookaheads) where
  toIsShaped       := h.toIsShaped.gain
  lookaheads q c t := by
    intro hc
    cases (h.covers_gain hr).mp hc
    case inl hc => exact h.lookaheads q c t hc
    case inr hc =>
      obtain ⟨hq, hk, ht⟩ := hc
      rw [hq, hk]
      exact hl t ht
  start            := (h.covers_gain hr).mpr <| .inl h.start
  links            := h.links

theorem congr (h : IsSound ctx a) (halg : b.algorithm = a.algorithm)
    (hsize : b.nodes.size = a.nodes.size) (hitems : ∀ q, b.kernelItems q = a.kernelItems q)
    (hnodes : ∀ (j : Nat) n, b.nodes[j]? = some n →
      ∃ m, a.nodes[j]? = some m ∧ n.live = m.live ∧ n.edges = m.edges)
    (hlinks : ∀ s t, HasLink b.effects s t → IsLink ctx s t) : IsSound ctx b where
  toIsShaped := h.toIsShaped.congr halg hsize hitems hnodes
  lookaheads q c t := hitems q ▸ h.lookaheads q c t
  start            := hitems _ ▸ h.start
  links            := hlinks

end IsSound
end ShiftReduce
