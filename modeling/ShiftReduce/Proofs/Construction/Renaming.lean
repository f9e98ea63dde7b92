import Mathlib.Data.Set.Function
import ShiftReduce.Proofs.Construction.States

namespace ShiftReduce

def Edge.rename (φ : StateId → StateId) (e : Edge) : Edge :=
  { e with target := φ e.target }

namespace Automaton

-- The names keep the order of the states. Every state keeps its kernel and its closure, and its
-- edges lead to the renamed states.
structure Renamed (φ : StateId → StateId) (a b : Automaton) : Prop where
  monotone : ∀ p ∈ a.liveStates, ∀ q ∈ a.liveStates, p.number < q.number →
    (φ p).number < (φ q).number
  states   : b.states.map (·.1) = a.states.map (φ ·.1)
  nodes    : ∀ q n, a.node? q = some n → ∃ m, b.node? (φ q) = some m ∧
    m.items.kernel = n.items.kernel ∧ m.items.closure = n.items.closure ∧
    m.edges = n.edges.map (Edge.rename φ)

variable {a b : Automaton} {n m : Node} {p q : StateId} {φ : StateId → StateId} {s : Symbol}

namespace Renamed

theorem injOn (h : Renamed φ a b) : Set.InjOn φ a.liveStates := by
  intro p hp q hq he
  have he : (φ p).number = (φ q).number := by rw [he]
  obtain ⟨i⟩ := p
  obtain ⟨j⟩ := q
  refine congrArg StateId.mk ?_
  cases Nat.lt_trichotomy i j
  case inl hlt => exact absurd he (h.monotone _ hp _ hq hlt).ne
  case inr ho =>
    cases ho
    case inl heq => exact heq
    case inr hgt => exact absurd he (h.monotone _ hq _ hp hgt).ne'

-- What does not change under the renaming is the same in all states.
theorem map_states {α : Type} {f g : StateId × Node → α} (h : Renamed φ a b)
    (hf : ∀ q n m, a.node? q = some n → m.items.closure = n.items.closure →
      m.edges = n.edges.map (Edge.rename φ) → g (φ q, m) = f (q, n)) :
    b.states.map g = a.states.map f := by
  have hlength : b.states.length = a.states.length := by simpa using congrArg List.length h.states
  refine List.ext_getElem (by simpa using hlength) fun i hi hj => ?_
  rw [List.length_map] at hi hj
  have ha := List.getElem_mem hj
  have hb := List.getElem_mem hi
  have hid : (b.states[i]).1 = φ (a.states[i]).1 := by
    have := congrArg (·[i]?) h.states
    simpa [hi, hj] using this
  rw [List.getElem_map, List.getElem_map]
  generalize a.states[i] = s at ha hid
  generalize b.states[i] = s' at hb hid
  obtain ⟨q, n⟩ := s
  obtain ⟨q', n'⟩ := s'
  have hid : q' = φ q := hid
  subst hid
  have hn := mem_states.mp ha
  obtain ⟨m, hm, _, hclosure, hedges⟩ := h.nodes q n hn
  cases hm.symm.trans <| mem_states.mp hb
  exact hf q n n' hn hclosure hedges

theorem transitions (h : Renamed φ a b) (ha : a.IsCut) (hb : b.IsCut) :
    b.transitions = a.transitions.map fun (q, e) => (φ q, e.rename φ) := by
  have hmap := h.map_states (g := fun s => s.2.edges.map (s.1, ·))
    (f := fun s => s.2.edges.map fun e => (φ s.1, e.rename φ)) fun q n m _ _ hedges => by
      simp [hedges]
  rw [transitions_eq ha, transitions_eq hb, List.flatMap_def, hmap, List.flatMap_def,
    List.map_flatten, List.map_map]
  simp [Function.comp_def]

theorem edge? (h : Renamed φ a b) (hq : q ∈ a.liveStates) :
    b.edge? (φ q) s = (a.edge? q s).map (Edge.rename φ) := by
  obtain ⟨n, hn⟩ := mem_liveStates.mp hq
  obtain ⟨m, hm, _, _, hedges⟩ := h.nodes q n hn
  rw [edge?_eq hn, edge?_eq hm, hedges, List.find?_map]
  rfl

end Renamed
end Automaton
end ShiftReduce
