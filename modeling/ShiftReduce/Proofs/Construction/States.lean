import Mathlib.Data.List.Perm.Subperm
import Mathlib.Data.Set.Defs
import ShiftReduce.Automaton.Basic

namespace ShiftReduce

section Results

variable {ε ε' α β : Type} {x : Except ε α}

theorem exists_of_bind_eq_ok {f : α → Except ε β} {y : β} (h : x >>= f = .ok y) :
    ∃ a, x = .ok a ∧ f a = .ok y := by
  cases x
  case error => cases h
  case ok a  => exact ⟨a, rfl, h⟩

theorem eq_ok_of_mapError_eq_ok {f : ε → ε'} {y : α} (h : x.mapError f = .ok y) : x = .ok y := by
  cases x
  case error => cases h
  case ok    => cases h; rfl

end Results

namespace Automaton

def liveStates (a : Automaton) : Set StateId :=
  {q | (a.node? q).isSome}

-- Dead states have no edges.
def IsCut (a : Automaton) : Prop :=
  ∀ n ∈ a.nodes, n.live = false → n.edges = []

variable {a : Automaton} {n m : Node} {p q : StateId} {f : Node → Node} {e : Edge}

theorem node?_eq_some_iff :
    a.node? q = some n ↔ a.nodes[q.number]? = some n ∧ n.live = true := by
  simp [node?, Option.filter_eq_some_iff]

theorem mem_numbered : (q, n) ∈ a.numbered ↔ a.nodes[q.number]? = some n := by
  obtain ⟨j⟩ := q
  simp only [numbered, List.mem_map, Prod.exists, Prod.mk.injEq, StateId.mk.injEq,
    List.mem_zipIdx_iff_getElem?, Array.getElem?_toList]
  exact ⟨fun ⟨_, _, h, hj, hn⟩ => hj ▸ hn ▸ h, fun h => ⟨n, j, h, rfl, rfl⟩⟩

theorem mem_states : (q, n) ∈ a.states ↔ a.node? q = some n := by
  rw [states, List.mem_filter, mem_numbered, node?_eq_some_iff]

theorem pairwise_numbered : a.numbered.Pairwise (·.1.number < ·.1.number) := by
  have h : (a.nodes.toList.zipIdx.map Prod.snd).Pairwise (· < ·) := by
    rw [List.zipIdx_map_snd]
    exact List.pairwise_lt_range'
  rw [List.pairwise_map] at h
  simpa [numbered, List.pairwise_map] using h

theorem pairwise_states : a.states.Pairwise (·.1.number < ·.1.number) :=
  pairwise_numbered.filter _

theorem mem_transitions : (q, e) ∈ a.transitions ↔
    ∃ n, a.nodes[q.number]? = some n ∧ e ∈ n.edges := by
  simp only [transitions, List.mem_flatMap, Prod.exists, mem_numbered, List.mem_map, Prod.mk.injEq]
  constructor
  case mp  => exact fun ⟨_, n, hn, _, he, hq, heq⟩ => ⟨n, hq ▸ hn, heq ▸ he⟩
  case mpr => exact fun ⟨n, hn, he⟩ => ⟨q, n, hn, e, he, rfl, rfl⟩

theorem transitions_eq (h : a.IsCut) :
    a.transitions = a.states.flatMap fun s => s.2.edges.map (s.1, ·) := by
  have hall : ∀ s ∈ a.numbered, s.2.live = false → s.2.edges = [] := by
    rintro ⟨q, n⟩ hs
    exact h n <| Array.mem_of_getElem? <| mem_numbered.mp hs
  rw [transitions, states]
  generalize a.numbered = numbered at hall
  induction numbered
  case nil => rfl
  case cons s numbered hi =>
    obtain ⟨hs, hrest⟩ := List.forall_mem_cons.mp hall
    rw [List.flatMap_cons, hi hrest, List.filter_cons]
    cases hl : s.2.live
    case true  => simp
    case false => simp [hs hl]

theorem mem_transitions_iff (h : a.IsCut) : (q, e) ∈ a.transitions ↔
    ∃ n, a.node? q = some n ∧ e ∈ n.edges := by
  rw [mem_transitions]
  constructor
  case mp =>
    rintro ⟨n, hn, he⟩
    refine ⟨n, node?_eq_some_iff.mpr ⟨hn, ?_⟩, he⟩
    by_contra hdead
    have := h n (Array.mem_of_getElem? hn) <| by simpa using hdead
    simp [this] at he
  case mpr => exact fun ⟨n, hn, he⟩ => ⟨n, (node?_eq_some_iff.mp hn).left, he⟩

theorem mem_liveStates : q ∈ a.liveStates ↔ ∃ n, a.node? q = some n :=
  Option.isSome_iff_exists

theorem mem_liveStates_of_mem_states {s : StateId × Node} (h : s ∈ a.states) :
    s.1 ∈ a.liveStates :=
  mem_liveStates.mpr ⟨s.2, mem_states.mp h⟩

theorem nodup_states : (a.states.map Prod.fst).Nodup := by
  refine List.pairwise_map.mpr <| pairwise_states.imp fun hlt he => ?_
  exact Nat.ne_of_lt hlt <| congrArg StateId.number he

-- A map from live states onto live states bounds how many of them there are.
theorem stateCount_le_of_onto {b : Automaton} {μ : StateId → StateId}
    (h : ∀ p ∈ b.liveStates, ∃ q ∈ a.liveStates, μ q = p) : b.stateCount ≤ a.stateCount := by
  have hsub : b.states.map Prod.fst ⊆ a.states.map (μ ·.1) := by
    intro p hp
    obtain ⟨s, hs, hsp⟩ := List.mem_map.mp hp
    obtain ⟨q, hq, hqp⟩ := h p <| hsp ▸ mem_liveStates_of_mem_states hs
    obtain ⟨n, hn⟩ := mem_liveStates.mp hq
    exact List.mem_map.mpr ⟨(q, n), mem_states.mpr hn, hqp⟩
  simpa [stateCount] using (List.Nodup.subperm nodup_states hsub).length_le

theorem edge?_eq {s : Symbol} (h : a.node? q = some n) :
    a.edge? q s = n.edges.find? (·.symbol = s) := by
  simp [edge?, (node?_eq_some_iff.mp h).left]

theorem node?_modifyNode_of_ne (h : p ≠ q) : (a.modifyNode p f).node? q = a.node? q := by
  have hne : p.number ≠ q.number := fun he => h <| congrArg StateId.mk he
  simp [node?, modifyNode, Array.getElem?_modify, hne]

theorem node?_modifyNode_self (h : a.node? p = some n) (hf : (f n).live = true) :
    (a.modifyNode p f).node? p = some (f n) := by
  have hn := (node?_eq_some_iff.mp h).left
  exact node?_eq_some_iff.mpr ⟨by simp [modifyNode, Array.getElem?_modify, hn], hf⟩

theorem node?_modifyNode_dead (hf : ∀ n, (f n).live = false) :
    (a.modifyNode p f).node? p = none := by
  rw [Option.eq_none_iff_forall_ne_some]
  intro n hn
  obtain ⟨hget, hlive⟩ := node?_eq_some_iff.mp hn
  simp only [modifyNode, Array.getElem?_modify, if_true, Option.map_eq_some_iff] at hget
  obtain ⟨m, _, hm⟩ := hget
  simp [← hm, hf m] at hlive

theorem forall_mem_modifyNode {P : Node → Prop} (h : ∀ n ∈ a.nodes, P n)
    (hf : ∀ n, a.nodes[q.number]? = some n → P (f n)) : ∀ m ∈ (a.modifyNode q f).nodes, P m := by
  intro m hm
  obtain ⟨j, hj⟩ := Array.mem_iff_getElem?.mp hm
  rw [modifyNode, Array.getElem?_modify] at hj
  split at hj
  case isTrue hij =>
    obtain ⟨n, hn, he⟩ := Option.map_eq_some_iff.mp hj
    exact he ▸ hf n (hij ▸ hn)
  case isFalse => exact h m <| Array.mem_of_getElem? hj

theorem live_modifyNode (h : ∀ n ∈ a.nodes, n.live = true) (hf : ∀ n, (f n).live = n.live) :
    ∀ m ∈ (a.modifyNode q f).nodes, m.live = true :=
  forall_mem_modifyNode h fun n hn => (hf n).trans <| h n <| Array.mem_of_getElem? hn

theorem IsCut.modifyNode (h : a.IsCut)
    (hf : ∀ n, (n.live = false → n.edges = []) → (f n).live = false → (f n).edges = []) :
    (a.modifyNode q f).IsCut :=
  forall_mem_modifyNode h fun n hn => hf n <| h n <| Array.mem_of_getElem? hn

@[simp]
theorem size_modifyNode : (a.modifyNode p f).nodes.size = a.nodes.size := by
  simp [modifyNode]

end Automaton
end ShiftReduce
