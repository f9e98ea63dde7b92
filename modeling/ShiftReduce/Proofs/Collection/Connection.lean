import ShiftReduce.Proofs.Collection.Kernels
import ShiftReduce.Proofs.Construction.States

namespace ShiftReduce

open Exploration

def kernelsOf (nodes : Array Node) : List (List Item) :=
  nodes.toList.map (·.items.kernel)

-- The first place of a kernel, also if its items are listed in another order.
def placeOf (kernels : List (List Item)) (kernel : List Item) : Nat :=
  kernels.findIdx (·.toFinset = kernel.toFinset)

def edgeTo (kernels : List (List Item)) (s : Successor) : Edge where
  symbol := s.symbol
  target := ⟨placeOf kernels s.kernel⟩
  rule   := s.rule

def freshNode (g : Grammar) (kernel : List Item) : Node where
  items := .ofKernel g kernel

variable {g : Grammar} {kind : ItemKind} {kernel xs : List Item}
  {kernels kernels' added : List (List Item)} {nodes nodes' : Array Node} {n : Node} {i j : Nat}

section Places

theorem placeOf_congr (h : kernel.toFinset = xs.toFinset) :
    placeOf kernels kernel = placeOf kernels xs := by
  simp only [placeOf, h]

theorem placeOf_lt_length_iff :
    placeOf kernels kernel < kernels.length ↔ kernel.toFinset ∈ kernels.map List.toFinset := by
  simp [placeOf, List.findIdx_lt_length]

theorem placeOf_eq_of_isPrefix (h : kernels <+: kernels')
    (hk : kernel.toFinset ∈ kernels.map List.toFinset) :
    placeOf kernels' kernel = placeOf kernels kernel := by
  obtain ⟨_, he⟩ := h
  have hlt := placeOf_lt_length_iff.mpr hk
  rw [← he, placeOf, List.findIdx_append]
  exact if_pos hlt

theorem placeOf_append_self (h : kernel.toFinset ∉ kernels.map List.toFinset) :
    placeOf (kernels ++ [kernel]) kernel = kernels.length := by
  have hge : ¬ kernels.findIdx (·.toFinset = kernel.toFinset) < kernels.length :=
    mt placeOf_lt_length_iff.mp h
  rw [placeOf, List.findIdx_append, if_neg hge]
  simp

theorem toFinset_getElem_placeOf (h : placeOf kernels kernel < kernels.length) :
    (kernels[placeOf kernels kernel]).toFinset = kernel.toFinset :=
  of_decide_eq_true <| List.findIdx_getElem (w := h)

theorem placeOf_getElem (hn : (kernels.map List.toFinset).Nodup) (h : kernels[i]? = some xs) :
    placeOf kernels xs = i := by
  have hmem : xs.toFinset ∈ kernels.map List.toFinset :=
    List.mem_map_of_mem <| List.mem_of_getElem? h
  have hlt := placeOf_lt_length_iff.mpr hmem
  have hget := toFinset_getElem_placeOf hlt
  obtain ⟨hi, hxs⟩ := List.getElem?_eq_some_iff.mp h
  have hlt' : placeOf kernels xs < (kernels.map List.toFinset).length := by simpa using hlt
  have hi' : i < (kernels.map List.toFinset).length := by simpa using hi
  refine hn.getElem_inj_iff.mp (?_ : (kernels.map List.toFinset)[placeOf kernels xs] = _[i])
  simp [hget, hxs]

end Places

section Nodes

theorem kernelsOf_getElem? : (kernelsOf nodes)[i]? = nodes[i]?.map (·.items.kernel) := by
  simp [kernelsOf]

@[simp]
theorem length_kernelsOf : (kernelsOf nodes).length = nodes.size := by
  simp [kernelsOf]

theorem kernelsOf_push : kernelsOf (nodes.push n) = kernelsOf nodes ++ [n.items.kernel] := by
  simp [kernelsOf]

theorem kernelsOf_modify {f : Node → Node}
    (h : ∀ n, nodes[i]? = some n → (f n).items.kernel = n.items.kernel) :
    kernelsOf (nodes.modify i f) = kernelsOf nodes := by
  refine List.ext_getElem? fun j => ?_
  rw [kernelsOf_getElem?, kernelsOf_getElem?, Array.getElem?_modify]
  split
  case isFalse => rfl
  case isTrue hij =>
    subst hij
    cases hn : nodes[i]?
    case none   => rfl
    case some n => simp [h n hn]

theorem forall_mem_push {P : Node → Prop} (h : ∀ n ∈ nodes, P n) (hn : P n) :
    ∀ m ∈ nodes.push n, P m := by
  intro m hm
  cases Array.mem_push.mp hm
  case inl hm => exact h m hm
  case inr hm => exact hm ▸ hn

theorem findIdx?_congr {α : Type} {xs : List α} {p q : α → Bool} (h : ∀ x ∈ xs, p x = q x) :
    xs.findIdx? p = xs.findIdx? q := by
  induction xs
  case nil          => rfl
  case cons x xs hi =>
    obtain ⟨hx, hxs⟩ := List.forall_mem_cons.mp h
    rw [List.findIdx?_cons, List.findIdx?_cons, hx, hi hxs]

-- A state is found iff its kernel is there.
theorem findState?_eq (hlive : ∀ n ∈ nodes, n.live = true)
    (hnodes : ∀ n ∈ nodes, IsKernel g kind n.items.kernel) (k : IsKernel g kind kernel) :
    Automaton.findState? kind kernel nodes =
      if kernel.toFinset ∈ (kernelsOf nodes).map List.toFinset then
        some ⟨placeOf (kernelsOf nodes) kernel⟩
      else none := by
  have hfind : nodes.findIdx? (fun n => n.live ∧ SameKernel kind n.items.kernel kernel) =
      (kernelsOf nodes).findIdx? (·.toFinset = kernel.toFinset) := by
    obtain ⟨nodes⟩ := nodes
    rw [kernelsOf, List.findIdx?_map, List.findIdx?_toArray]
    refine findIdx?_congr fun n hn => ?_
    have hn : n ∈ (⟨nodes⟩ : Array Node) := Array.mem_toList_iff.mp hn
    simp [hlive n hn, sameKernel_iff (hnodes n hn) k]
  rw [Automaton.findState?, hfind]
  split
  case isTrue hm =>
    have hlt := placeOf_lt_length_iff.mpr hm
    rw [List.findIdx?_eq_some_of_exists <| by simpa using hm]
    rfl
  case isFalse hm =>
    rw [List.findIdx?_eq_none_iff.mpr <| by simpa using hm]
    rfl

end Nodes

-- The nodes that the connection adds are fresh, their kernels are the new ones, and the edges are
-- right in every collection that extends the kernels found so far.
theorem connect_spec {succs : List Successor} (hlive : ∀ n ∈ nodes, n.live = true)
    (hnodes : ∀ n ∈ nodes, IsKernel g kind n.items.kernel)
    (hsuccs : ∀ s ∈ succs, IsKernel g kind s.kernel) :
    let c := Automaton.connect g kind nodes succs
    (∃ added : List (List Item), c.1.toList = nodes.toList ++ added.map (freshNode g)) ∧
      kernelsOf c.1 = insertAllNew List.toFinset (kernelsOf nodes) (succs.map (·.kernel)) ∧
      ∀ kernels, kernelsOf c.1 <+: kernels → c.2.map (·.1) = succs.map (edgeTo kernels) := by
  induction succs generalizing nodes
  case nil => exact ⟨⟨[], by simp [Automaton.connect]⟩, rfl, fun _ _ => rfl⟩
  case cons s succs hi =>
    obtain ⟨hs, hsuccs⟩ := List.forall_mem_cons.mp hsuccs
    simp only [Automaton.connect, findState?_eq hlive hnodes hs]
    by_cases hm : s.kernel.toFinset ∈ (kernelsOf nodes).map List.toFinset
    case pos =>
      obtain ⟨hadded, hkernels, hedges⟩ := hi hlive hnodes hsuccs
      simp only [if_pos hm]
      have hsame : insertAllNew _ _ (s.kernel :: succs.map (·.kernel)) = _ :=
        insertAllNew_cons_of_mem hm
      refine ⟨hadded, hkernels.trans hsame.symm, fun kernels hp => ?_⟩
      have hpre : kernelsOf nodes <+: kernels := (hkernels ▸ prefix_insertAllNew).trans hp
      rw [List.map_cons, List.map_cons, hedges kernels hp, edgeTo, placeOf_eq_of_isPrefix hpre hm]
    case neg =>
      have hkernel : (freshNode g s.kernel).items.kernel = s.kernel := by simp [freshNode]
      have hlive' := forall_mem_push (n := freshNode g s.kernel) hlive rfl
      have hnodes' := forall_mem_push (n := freshNode g s.kernel)
        (P := fun n => IsKernel g kind n.items.kernel) hnodes (hkernel.symm ▸ hs)
      obtain ⟨hadded, hkernels, hedges⟩ := hi hlive' hnodes' hsuccs
      simp only [if_neg hm]
      have hpush :
          kernelsOf (nodes.push (freshNode g s.kernel)) = kernelsOf nodes ++ [s.kernel] := by
        rw [kernelsOf_push, hkernel]
      have hsame : insertAllNew _ _ (s.kernel :: succs.map (·.kernel)) = _ :=
        insertAllNew_cons_of_not_mem hm
      rw [hpush] at hkernels
      refine ⟨?_, hkernels.trans hsame.symm, fun kernels hp => ?_⟩
      · obtain ⟨added, hadded⟩ := hadded
        refine ⟨s.kernel :: added, ?_⟩
        simpa [freshNode] using hadded
      · have hpre : kernelsOf nodes ++ [s.kernel] <+: kernels :=
          (hkernels ▸ prefix_insertAllNew).trans hp
        have hplace : placeOf kernels s.kernel = nodes.size := by
          rw [placeOf_eq_of_isPrefix hpre (by simp), placeOf_append_self hm, length_kernelsOf]
        rw [List.map_cons, List.map_cons, edgeTo, hplace]
        exact congrArg _ <| hedges kernels hp

section Added

theorem getElem?_of_added (h : nodes'.toList = nodes.toList ++ added.map (freshNode g))
    (hj : j < nodes.size) : nodes'[j]? = nodes[j]? := by
  rw [← Array.getElem?_toList, h, List.getElem?_append_left (by simpa using hj),
    Array.getElem?_toList]

theorem eq_freshNode_of_added (h : nodes'.toList = nodes.toList ++ added.map (freshNode g))
    (hj : nodes.size ≤ j) (hn : nodes'[j]? = some n) : n = freshNode g n.items.kernel := by
  rw [← Array.getElem?_toList, h, List.getElem?_append_right (by simpa using hj)] at hn
  obtain ⟨k, _, hk⟩ := List.mem_map.mp <| List.mem_of_getElem? hn
  simp [← hk, freshNode]

theorem live_of_added (h : nodes'.toList = nodes.toList ++ added.map (freshNode g))
    (hlive : ∀ n ∈ nodes, n.live = true) : ∀ n ∈ nodes', n.live = true := by
  intro n hn
  rw [← Array.mem_toList_iff, h] at hn
  cases List.mem_append.mp hn
  case inl hn => exact hlive n <| Array.mem_toList_iff.mp hn
  case inr hn =>
    obtain ⟨_, _, rfl⟩ := List.mem_map.mp hn
    rfl

end Added
end ShiftReduce
