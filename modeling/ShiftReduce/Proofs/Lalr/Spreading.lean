import Mathlib.Order.Bounds.Basic
import ShiftReduce.Proofs.Lalr.Passes

namespace ShiftReduce

open Exploration Automaton

namespace Automaton

-- The lookaheads of all kernel items together.
def family (a : Automaton) (r : KernelRef) : Set Terminal :=
  {t | t ∈ a.kernelLookaheads r}

-- The automata differ in the lookaheads of their kernels at most.
structure Keeps (a b : Automaton) : Prop where
  cores    : b.nodes.map (·.items.kernel.map Item.core) =
    a.nodes.map (·.items.kernel.map Item.core)
  closures : b.nodes.map (·.items.closure) = a.nodes.map (·.items.closure)
  edges    : b.nodes.map (·.edges) = a.nodes.map (·.edges)
  live     : b.nodes.map (·.live) = a.nodes.map (·.live)
  effects  : b.effects = a.effects

-- Passes over links, of which each has an order of its own.
def afterPasses (a : Automaton) (orders : Nat → List (KernelRef × List KernelRef)) :
    Nat → Automaton
  | 0     => a
  | n + 1 => (passAllOn (afterPasses a orders n) (orders n)).1

-- Which kernel items grow in the pass with this number.
def grownIn (a : Automaton) (orders : Nat → List (KernelRef × List KernelRef)) (n : Nat) :
    List KernelRef :=
  (passAllOn (a.afterPasses orders n) (orders n)).2

-- Every pass visits each link.
def IsSchedule (a : Automaton) (orders : Nat → List (KernelRef × List KernelRef)) : Prop :=
  ∀ i s t, HasLink (orders i) s t ↔ HasLink a.effects s t

end Automaton

-- Lookaheads have been handed on along the links, and `grown` are the kernel items that have more.
structure Spreads (links : KernelRef → KernelRef → Prop) (a b : Automaton)
    (grown : List KernelRef) : Prop where
  keeps : Keeps a b
  le    : a.family ≤ b.family
  least : ∀ L, a.family ≤ L → (∀ s t, links s t → L s ≤ L t) → b.family ≤ L
  grown : ∀ r, r ∈ grown ↔ ¬ b.family r ≤ a.family r

variable {ctx : Context} {a b c : Automaton} {source target r r' : KernelRef} {k : Core}
  {t : Terminal} {lookaheads : TerminalSet} {targets grown grown' : List KernelRef}
  {effects : List (KernelRef × List KernelRef)} {links links' : KernelRef → KernelRef → Prop}
  {orders : Nat → List (KernelRef × List KernelRef)} {m n : Nat}

section Gain

theorem kernelLookaheads_eq : a.kernelLookaheads r =
    ((a.kernelItems r.state)[r.index]?.map Item.lookaheadSet).getD ∅ := by
  unfold kernelLookaheads kernelItems
  cases a.nodes[r.state.number]?
  case none   => rfl
  case some n =>
    simp only [Option.bind_some, Option.map_some, Option.getD_some]
    cases n.items.kernel[r.index]? <;> rfl

theorem exists_covers_of_mem_family (h : t ∈ a.family r) :
    ∃ c, Covers (a.kernelItems r.state) c t := by
  have h : t ∈ a.kernelLookaheads r := h
  rw [kernelLookaheads_eq] at h
  cases hi : (a.kernelItems r.state)[r.index]?
  case none   => simp [hi] at h
  case some i => exact ⟨i.core, i, List.mem_of_getElem? hi, rfl, by simpa [hi] using h⟩

theorem mem_kernelLookaheads_gain (hk : ∀ i ∈ a.kernelItems r.state, i.kind = .lr1)
    (hr : r.index < (a.kernelItems r.state).length) :
    t ∈ (a.gain r lookaheads).kernelLookaheads r' ↔
      t ∈ a.kernelLookaheads r' ∨ (r' = r ∧ t ∈ lookaheads) := by
  rw [kernelLookaheads_eq, kernelLookaheads_eq]
  by_cases hq : r'.state = r.state
  case neg =>
    have hne : r' ≠ r := fun he => hq <| congrArg KernelRef.state he
    simp [kernelItems_gain_of_ne hq, hne]
  case pos =>
    rw [hq, kernelItems_gain_self, List.getElem?_modify]
    by_cases hi : r.index = r'.index
    case neg =>
      have hne : r' ≠ r := fun he => hi <| congrArg KernelRef.index he.symm
      simp [hi, hne]
    case pos =>
      have he : r' = r := by
        cases r
        cases r'
        simp_all
      rw [he, List.getElem?_eq_getElem hr]
      simpa using mem_lookaheadSet_joining <| hk _ <| List.getElem_mem hr

theorem IsShaped.mem_family_gain (h : IsShaped ctx a) (hr : IsRef ctx r k) :
    t ∈ (a.gain r lookaheads).family r' ↔ t ∈ a.family r' ∨ (r' = r ∧ t ∈ lookaheads) := by
  obtain ⟨i, hi, _⟩ := Option.map_eq_some_iff.mp <| h.kernelItems_isRef hr
  exact mem_kernelLookaheads_gain (h.kinds _) (List.getElem?_eq_some_iff.mp hi).choose

theorem map_nodes_modifyNode {β : Type} {q : StateId} {f : Node → Node} {g : Node → β}
    (h : ∀ n, g (f n) = g n) : (a.modifyNode q f).nodes.map g = a.nodes.map g := by
  refine Array.ext_getElem? fun j => ?_
  simp only [modifyNode, Array.getElem?_map, Array.getElem?_modify]
  split
  case isTrue  => cases a.nodes[j]? <;> simp [h]
  case isFalse => rfl

end Gain

namespace Automaton.Keeps

theorem refl : Keeps a a :=
  ⟨rfl, rfl, rfl, rfl, rfl⟩

theorem trans (h : Keeps a b) (h' : Keeps b c) : Keeps a c where
  cores    := h'.cores.trans h.cores
  closures := h'.closures.trans h.closures
  edges    := h'.edges.trans h.edges
  live     := h'.live.trans h.live
  effects  := h'.effects.trans h.effects

theorem gain : Keeps a (a.gain r lookaheads) where
  cores    := map_nodes_modifyNode fun _ => map_core_modify_joining
  closures := map_nodes_modifyNode fun _ => rfl
  edges    := map_nodes_modifyNode fun _ => rfl
  live     := map_nodes_modifyNode fun _ => rfl
  effects  := rfl

end Automaton.Keeps

namespace Spreads

theorem refl : Spreads links a a [] where
  keeps     := .refl
  le        := le_rfl
  least _ h := fun _ => h
  grown r   := by simp

theorem mono (h : Spreads links a b grown) (hlinks : ∀ s t, links s t → links' s t) :
    Spreads links' a b grown where
  keeps        := h.keeps
  le           := h.le
  least L hL hc := h.least L hL fun s t hst => hc s t <| hlinks s t hst
  grown        := h.grown

theorem trans (h : Spreads links a b grown) (h' : Spreads links b c grown') :
    Spreads links a c (grown ++ grown') where
  keeps         := h.keeps.trans h'.keeps
  le            := h.le.trans h'.le
  least L hL hc := h'.least L (h.least L hL hc) hc
  grown r       := by
    rw [List.mem_append, h.grown, h'.grown, ← not_and_or, not_iff_not]
    constructor
    case mp  => exact fun ⟨hb, hc⟩ => hc.trans hb
    case mpr => exact fun hc => ⟨(h'.le r).trans hc, hc.trans (h.le r)⟩

-- Only what the automata say of their nodes and links counts.
theorem move (h : Spreads links a b grown) (pointer passes : Nat) (phase : Phase)
    {pointer' passes' : Nat} {phase' : Phase} :
    Spreads links { a with pointer, passes, phase }
      { b with pointer := pointer', passes := passes', phase := phase' } grown where
  keeps := ⟨h.keeps.cores, h.keeps.closures, h.keeps.edges, h.keeps.live, h.keeps.effects⟩
  le    := h.le
  least := h.least
  grown := h.grown

-- What is closed under the links in the end is the least that is.
theorem isLeast (h : Spreads links a b grown) (hc : ∀ s t, links s t → b.family s ≤ b.family t) :
    IsLeast {L | a.family ≤ L ∧ ∀ s t, links s t → L s ≤ L t} b.family :=
  ⟨⟨h.le, hc⟩, fun L hL => h.least L hL.left hL.right⟩

end Spreads

-- Passing lookaheads on adds all of them to all targets. Those that had them do not count as grown.
structure HandsOn (lookaheads : TerminalSet) (targets : List KernelRef) (a : Automaton)
    (p : Automaton × List KernelRef) : Prop where
  keeps  : Keeps a p.1
  family : ∀ r t, t ∈ p.1.family r ↔ t ∈ a.family r ∨ (r ∈ targets ∧ t ∈ lookaheads)
  grown  : ∀ r, r ∈ p.2 ↔ r ∈ targets ∧ ∃ t ∈ lookaheads, t ∉ a.family r

theorem passOn_handsOn (lookaheads : TerminalSet) (h : IsShaped ctx a)
    (hrefs : ∀ r ∈ targets, ∃ k, IsRef ctx r k) :
    IsShaped ctx (passOn lookaheads a targets).1 ∧
      HandsOn lookaheads targets a (passOn lookaheads a targets) := by
  induction targets generalizing a
  case nil => exact ⟨h, .refl, by simp [passOn], by simp [passOn]⟩
  case cons target targets hi =>
    obtain ⟨⟨k, hk⟩, hrefs⟩ := List.forall_mem_cons.mp hrefs
    rw [passOn]
    split
    case isTrue hsub =>
      have hsub : ∀ t ∈ lookaheads, t ∈ a.family target := TerminalSet.subset_iff.mp hsub
      obtain ⟨hshaped, hands⟩ := hi h hrefs
      refine ⟨hshaped, hands.keeps, fun r t => ?_, fun r => ?_⟩
      · rw [hands.family, List.mem_cons]
        grind
      · rw [hands.grown, List.mem_cons]
        grind
    case isFalse hsub =>
      have hsub : ∃ t ∈ lookaheads, t ∉ a.family target := by
        simpa [TerminalSet.subset_iff, Automaton.family] using hsub
      obtain ⟨hshaped, hands⟩ := hi (a := a.gain target lookaheads) h.gain hrefs
      have hgain {r t} : t ∈ (a.gain target lookaheads).family r ↔ _ := h.mem_family_gain hk
      refine ⟨hshaped, Keeps.gain.trans hands.keeps, fun r t => ?_, fun r => ?_⟩
      · refine (hands.family r t).trans ?_
        rw [hgain, List.mem_cons]
        grind
      · refine List.mem_cons.trans <| (or_congr_right <| hands.grown r).trans ?_
        simp only [hgain, List.mem_cons]
        grind

theorem passAllOn_spreads (h : IsShaped ctx a)
    (hrefs : ∀ s t, HasLink effects s t → ∃ k, IsRef ctx t k) :
    IsShaped ctx (passAllOn a effects).1 ∧
      Spreads (HasLink effects) a (passAllOn a effects).1 (passAllOn a effects).2 := by
  induction effects generalizing a
  case nil => exact ⟨h, .refl⟩
  case cons e effects hi =>
    obtain ⟨source, targets⟩ := e
    have htargets : ∀ r ∈ targets, ∃ k, IsRef ctx r k := fun r hr =>
      hrefs source r <| hasLink_cons.mpr <| .inl ⟨rfl, hr⟩
    obtain ⟨hshaped₁, hands⟩ := passOn_handsOn (a.kernelLookaheads source) h htargets
    obtain ⟨hshaped₂, hrest⟩ := hi hshaped₁ fun s t hst =>
      hrefs s t <| hasLink_cons.mpr <| .inr hst
    have hfirst : Spreads (HasLink <| (source, targets) :: effects) a
        (passOn (a.kernelLookaheads source) a targets).1
        (passOn (a.kernelLookaheads source) a targets).2 := by
      constructor
      case keeps => exact hands.keeps
      case le    => exact fun r t ht => (hands.family r t).mpr <| .inl ht
      case least =>
        intro L hL hc r t ht
        cases (hands.family r t).mp ht
        case inl ht => exact hL r ht
        case inr ht =>
          exact hc source r (hasLink_cons.mpr <| .inl ⟨rfl, ht.left⟩) <| hL source ht.right
      case grown =>
        intro r
        rw [hands.grown, Set.not_subset]
        simp only [hands.family]
        grind
    refine ⟨hshaped₂, hfirst.trans <| hrest.mono fun s t hst => ?_⟩
    exact hasLink_cons.mpr <| .inr hst

namespace Automaton.IsSchedule

theorem isLink (ho : IsSchedule a orders) (h : IsSound ctx a) (i : Nat) :
    ∀ s t, HasLink (orders i) s t → IsLink ctx s t :=
  fun s t hst => h.links s t <| (ho i s t).mp hst

theorem afterPasses_spec (hg : ctx.grammar.WellFormed) (ho : IsSchedule a orders)
    (h : IsSound ctx a) (n : Nat) : IsSound ctx (a.afterPasses orders n) ∧
      ∃ grown, Spreads (HasLink a.effects) a (a.afterPasses orders n) grown := by
  induction n
  case zero => exact ⟨h, [], .refl⟩
  case succ n hi =>
    obtain ⟨hsound, grown, hspreads⟩ := hi
    obtain ⟨_, hpass⟩ := passAllOn_spreads hsound.toIsShaped
      fun s t hst => (ho.isLink h n s t hst).isRef.right
    have hpass := hpass.mono fun s t => (ho n s t).mp
    exact ⟨(passAllOn_spec hg hsound <| ho.isLink h n).sound, _, hspreads.trans hpass⟩

-- A pass that grows nothing has found nothing to add.
theorem closed_of_grownIn_eq_nil (hg : ctx.grammar.WellFormed) (ho : IsSchedule a orders)
    (h : IsSound ctx a) (hnil : a.grownIn orders n = []) : ∀ s t, HasLink a.effects s t →
      (a.afterPasses orders (n + 1)).family s ≤ (a.afterPasses orders (n + 1)).family t := by
  obtain ⟨hsound, _⟩ := ho.afterPasses_spec hg h n
  obtain ⟨hsame, hclosed⟩ := (passAllOn_spec hg hsound <| ho.isLink h n).unchanged hnil
  intro s t hst
  rw [afterPasses, hsame]
  exact TerminalSet.subset_iff.mp <| hclosed s t <| (ho n s t).mpr hst

theorem le_card_known (hg : ctx.grammar.WellFormed) (ho : IsSchedule a orders)
    (h : IsSound ctx a) (hne : ∀ j < n, a.grownIn orders j ≠ []) :
    n ≤ (known ctx <| a.afterPasses orders n).card := by
  induction n
  case zero => exact Nat.zero_le _
  case succ n hi =>
    obtain ⟨hsound, _⟩ := ho.afterPasses_spec hg h n
    have hpassed := passAllOn_spec hg hsound <| ho.isLink h n
    have hlt := known_card_lt hg hpassed.sound hpassed.advances
      (hpassed.outgrows <| hne n <| Nat.lt_succ_self n) hsound.toIsShaped
    exact (hi fun j hj => hne j <| Nat.lt_succ_of_lt hj).trans_lt hlt

-- Whatever the orders, the passes come to an end, and the end is the same.
theorem exists_isLeast (hg : ctx.grammar.WellFormed) (ho : IsSchedule a orders)
    (h : IsSound ctx a) : ∃ m, (∀ j ≤ m, a.grownIn orders j = [] ↔ j = m) ∧
      Keeps a (a.afterPasses orders (m + 1)) ∧
      IsLeast {L | a.family ≤ L ∧ ∀ s t, HasLink a.effects s t → L s ≤ L t}
        (a.afterPasses orders (m + 1)).family := by
  have hends : ∃ m, a.grownIn orders m = [] := by
    by_contra hnever
    have hle (n : Nat) := (ho.le_card_known (n := n) hg h fun j _ hj => hnever ⟨j, hj⟩).trans <|
      known_card_le ctx _
    exact Nat.not_succ_le_self _ <| hle _
  obtain ⟨_, grown, hspreads⟩ := ho.afterPasses_spec hg h (Nat.find hends + 1)
  refine ⟨Nat.find hends, fun j hj => ⟨fun hnil => ?_, fun he => ?_⟩, hspreads.keeps, ?_⟩
  · exact hj.antisymm <| Nat.find_min' hends hnil
  · exact he ▸ Nat.find_spec hends
  · exact hspreads.isLeast <| ho.closed_of_grownIn_eq_nil hg h <| Nat.find_spec hends

end Automaton.IsSchedule
end ShiftReduce
