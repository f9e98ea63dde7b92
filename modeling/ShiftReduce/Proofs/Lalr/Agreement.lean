import ShiftReduce.Proofs.Construction.Outcome
import ShiftReduce.Proofs.Lalr.Projection
import ShiftReduce.Proofs.Table.Agreement

namespace ShiftReduce

open Automaton

variable {ctx : Context} {a b : Automaton} {n m : Node} {p q : StateId} {c : Core} {t : Terminal}

namespace Merged

theorem isConnected (hg : ctx.grammar.WellFormed) (h : Merged ctx b) : b.IsConnected := by
  intro q n hn e he
  obtain ⟨hq, _⟩ := h.isLeader hn
  rw [h.edges hn] at he
  obtain ⟨e', he', hee⟩ := List.mem_map.mp he
  subst hee
  have hlt := target_lt_of_mem_edgesOf hg hq he'
  exact h.mem_liveStates.mpr ⟨(leader_le hlt).trans_lt hlt, leader_leader hlt⟩

end Merged

section Agreement

theorem map_project_states (hg : ctx.grammar.WellFormed) (ha : Propagated ctx a)
    (hb : Merged ctx b) : a.states.map (·.1) = b.states.map (project ctx ·.1) := by
  have hsorted : (a.states.map (·.1)).Pairwise (·.number < ·.number) :=
    List.pairwise_map.mpr pairwise_states
  have hsorted' : (b.states.map (project ctx ·.1)).Pairwise (·.number < ·.number) := by
    refine List.pairwise_map.mpr <| pairwise_states.imp_of_mem fun hp hq hlt => ?_
    obtain ⟨_, hlp⟩ := hb.isLeader (mem_states.mp hp)
    obtain ⟨hq, hlq⟩ := hb.isLeader (mem_states.mp hq)
    exact project_lt_project hg hq hlp hlq hlt
  have hmem : ∀ q, q ∈ a.states.map (·.1) ↔ q ∈ b.states.map (project ctx ·.1) := by
    intro q
    constructor
    case mp =>
      intro h
      obtain ⟨s, hs, hsq⟩ := List.mem_map.mp h
      have hlt := ha.live_iff.mp <| Option.isSome_iff_exists.mpr ⟨_, mem_states.mp hs⟩
      obtain ⟨p, hp, hlp, hps⟩ := exists_leader hg hlt
      obtain ⟨n, hn⟩ := Option.isSome_iff_exists.mp <| hb.live_iff.mpr ⟨hp, hlp⟩
      exact List.mem_map.mpr ⟨(p, n), mem_states.mpr hn, hps.trans hsq⟩
    case mpr =>
      intro h
      obtain ⟨s, hs, hsq⟩ := List.mem_map.mp h
      have hlt := project_lt hg (hb.isLeader (mem_states.mp hs)).left
      obtain ⟨n, hn⟩ := Option.isSome_iff_exists.mp <| ha.live_iff.mpr hlt
      exact List.mem_map.mpr ⟨(_, n), mem_states.mpr hn, hsq⟩
  have : Std.Irrefl fun p q : StateId => p.number < q.number := ⟨fun _ => Nat.lt_irrefl _⟩
  have : Std.Antisymm fun p q : StateId => p.number < q.number :=
    ⟨fun _ _ h h' => absurd h' h.not_gt⟩
  exact hsorted.eq_of_mem_iff hsorted' hmem

-- The states that were merged into a leader are those with its projection.
theorem project_eq_project_iff (hg : ctx.grammar.WellFormed)
    (hq : q.number < (collection ctx .lr1).length ∧ leader ctx q = q) :
    p.number < (collection ctx .lr1).length ∧ project ctx p = project ctx q ↔
      p.number < (collection ctx .lr1).length ∧ leader ctx p = q := by
  refine and_congr_right fun hp => ?_
  rw [project_eq_iff hg hp hq.left, ← leader_eq_leader_iff hp hq.left, hq.right]

theorem map_core_closure_eq (hg : ctx.grammar.WellFormed) (ha : Propagated ctx a)
    (hb : Merged ctx b) (hn : b.node? q = some n) (hm : a.node? (project ctx q) = some m) :
    m.items.closure.map Item.core = n.items.closure.map Item.core := by
  obtain ⟨hq, hl⟩ := hb.isLeader hn
  rw [(hb.items hn).closureCores]
  refine (ha.completes hm).map_core_eq (completes_closureIn hg hq) ?_
  rw [ha.cores hm, kernelIn_project hg hq hl, map_core_bare]

theorem closure_eq (hg : ctx.grammar.WellFormed) (ha : Propagated ctx a) (hb : Merged ctx b)
    (hn : b.node? q = some n) (hm : a.node? (project ctx q) = some m) :
    m.items.closure = n.items.closure := by
  have hq := hb.isLeader hn
  have hcores := map_core_closure_eq hg ha hb hn hm
  refine eq_of_covers (ha.completes hm).kinds (hb.items hn).closureKinds hcores ?_ fun c t => ?_
  · rw [hcores, (hb.items hn).closureCores]
    exact (completes_closureIn hg hq.left).nodup (isKernel_kernelIn hg hq.left).nodup
  · rw [ha.lookaheads hm, (hb.items hn).closureCovers, isLookahead_iff hg]
    simp only [project_eq_project_iff hg hq]

theorem kernel_eq (hg : ctx.grammar.WellFormed) (ha : Propagated ctx a) (hb : Merged ctx b)
    (hn : b.node? q = some n) (hm : a.node? (project ctx q) = some m) :
    m.items.kernel = n.items.kernel := by
  have hq := hb.isLeader hn
  have hcores : m.items.kernel.map Item.core = n.items.kernel.map Item.core := by
    rw [ha.cores hm, kernelIn_project hg hq.left hq.right, map_core_bare,
      (hb.items hn).kernelCores]
  have hnodup : (m.items.kernel.map Item.core).Nodup := by
    rw [hcores, (hb.items hn).kernelCores]
    exact (isKernel_kernelIn hg hq.left).nodup
  refine eq_of_covers (ha.kinds hm) (hb.items hn).kernelKinds hcores hnodup fun c t => ?_
  rw [(ha.completes hm).covers_kernel_iff hnodup, closure_eq hg ha hb hn hm, hcores,
    (hb.items hn).covers_kernel_iff hg (isClass_leader hq.left hq.right)]

theorem edges_eq (hg : ctx.grammar.WellFormed) (ha : Propagated ctx a) (hb : Merged ctx b)
    (hn : b.node? q = some n) (hm : a.node? (project ctx q) = some m) :
    m.edges = n.edges.map (Edge.rename (project ctx)) := by
  obtain ⟨hq, hl⟩ := hb.isLeader hn
  have hcores : (closureIn ctx .lr0 (project ctx q)).map Item.core =
      (closureIn ctx .lr1 q).map Item.core := by
    rw [closureIn, kernelIn_project hg hq hl, map_core_closureOf_bare hg (isKernel_kernelIn hg hq),
      closureIn]
  rw [ha.edges hm, hb.edges hn, edgesOf_eq, edgesOf_eq, hcores, List.map_map, List.map_map]
  refine List.map_congr_left fun x hx => ?_
  have hlt := targetIn_lt hg hq hx
  simp [Edge.rename, project_leader hlt, project_targetIn hg hq hx]

theorem renamed_project (hg : ctx.grammar.WellFormed) (ha : Propagated ctx a) (hb : Merged ctx b) :
    b.Renamed (project ctx) a where
  states   := map_project_states hg ha hb
  monotone := by
    intro p hp q hq hlt
    obtain ⟨_, hlp⟩ := hb.mem_liveStates.mp hp
    obtain ⟨hq, hlq⟩ := hb.mem_liveStates.mp hq
    exact project_lt_project hg hq hlp hlq hlt
  nodes    := by
    intro q n hn
    have hlt := project_lt hg (hb.isLeader hn).left
    obtain ⟨m, hm⟩ := Option.isSome_iff_exists.mp <| ha.live_iff.mpr hlt
    exact ⟨m, hm, kernel_eq hg ha hb hn hm, closure_eq hg ha hb hn hm, edges_eq hg ha hb hn hm⟩

-- Both constructions end, whatever conflicts the grammar has, and a renaming `φ` of the live states
-- takes one result to the other: their kernels, closures and transitions, and their tables.
theorem lalr_constructions_agree (h : ctx.grammar.IsDefined) :
    ∃ a b φ, Automaton.build ctx .lalrByPropagation = .ok a ∧
      Automaton.build ctx .lalrByMerging = .ok b ∧
      b.Renamed φ a ∧
      a.stateCount = b.stateCount ∧
      a.transitions = b.transitions.map (fun (q, e) => (φ q, e.rename φ)) ∧
      (∀ q ∈ b.liveStates, ∀ s, a.transition? (φ q) s = (b.transition? q s).map φ ∧
        a.transitionRule? (φ q) s = b.transitionRule? q s) ∧
      ∃ t u, ParseTable.build a ctx = .ok t ∧ ParseTable.build b ctx = .ok u ∧ u.Renamed φ t := by
  have hg := h.wellFormed
  obtain ⟨a, hbuild, ha, hdone⟩ := exists_build hg .lalrByPropagation
  obtain ⟨b, hbuild', hb, hdone'⟩ := exists_build hg .lalrByMerging
  have ha : Propagated ctx a := ha
  have hb : Merged ctx b := hb
  obtain ⟨t, ht, htable⟩ := exists_table ctx hdone
  obtain ⟨u, hu, htable'⟩ := exists_table ctx hdone'
  have hrenamed := renamed_project hg ha hb
  refine ⟨a, b, project ctx, hbuild, hbuild', hrenamed, ?_, hrenamed.transitions hb.cut ha.isCut,
    fun q hq s => ?_, t, u, ht, hu, ?_⟩
  · simpa [stateCount] using congrArg List.length hrenamed.states
  · rw [transition?, transition?, transitionRule?, transitionRule?, hrenamed.edge? hq]
    cases b.edge? q s <;> exact ⟨rfl, rfl⟩
  · refine hrenamed.table hb.cut ha.isCut (hb.isConnected hg) ?_ ?_ htable' htable
    · simp [hb.algorithm]
    · simp [ha.algorithm]

-- Three states are merged into others, which leaves a gap in the numbers: the complete items of
-- nested pairs are in the state `5` of one automaton and in the state `4` of the other one.
theorem lalr_constructions_agree_on_nesting : Grammar.nesting.IsDefined ∧
    ∃ a b φ, Automaton.build (.ofGrammar .nesting) .lalrByPropagation = .ok a ∧
      Automaton.build (.ofGrammar .nesting) .lalrByMerging = .ok b ∧ b.Renamed φ a ∧
      b.redirects = [(⟨4⟩, ⟨2⟩), (⟨6⟩, ⟨3⟩), (⟨7⟩, ⟨5⟩)] ∧ φ ⟨5⟩ = ⟨4⟩ ∧
      b.kernelItems ⟨5⟩ = [⟨⟨⟨1⟩, 3⟩, some {.endOfInput, ⟨3⟩}⟩] ∧
      b.transition? ⟨3⟩ (.terminal ⟨3⟩) = some ⟨5⟩ ∧
      a.transition? (φ ⟨3⟩) (.terminal ⟨3⟩) = some ⟨4⟩ := by
  have h := Grammar.nesting_isDefined
  obtain ⟨a, b, φ, ha, hb, hrenamed, _, _, hsame, _⟩ :=
    @lalr_constructions_agree (.ofGrammar .nesting) h
  have hnames : a.states.map (·.1) = [⟨0⟩, ⟨1⟩, ⟨2⟩, ⟨3⟩, ⟨4⟩] :=
    eq_of_build (·.states.map (·.1)) (by decide +kernel) ha
  have hnames' : b.states.map (·.1) = [⟨0⟩, ⟨1⟩, ⟨2⟩, ⟨3⟩, ⟨5⟩] :=
    eq_of_build (·.states.map (·.1)) (by decide +kernel) hb
  have hφ : φ ⟨5⟩ = ⟨4⟩ := by
    have hstates : (b.states.map (·.1)).map φ = a.states.map (·.1) := by
      rw [hrenamed.states, List.map_map]
      rfl
    rw [hnames, hnames'] at hstates
    simpa using congrArg List.getLast? hstates
  have hlive : (b.node? ⟨3⟩).isSome = true :=
    eq_of_build (·.node? ⟨3⟩ |>.isSome) (by decide +kernel) hb
  have hedge : b.transition? ⟨3⟩ (.terminal ⟨3⟩) = some ⟨5⟩ :=
    eq_of_build (·.transition? ⟨3⟩ (.terminal ⟨3⟩)) (by decide +kernel) hb
  refine ⟨h, a, b, φ, ha, hb, hrenamed, eq_of_build (·.redirects) (by decide +kernel) hb, hφ,
    eq_of_build (·.kernelItems ⟨5⟩) (by decide +kernel) hb, hedge, ?_⟩
  rw [(hsame ⟨3⟩ hlive _).left, hedge, Option.map_some, hφ]

end Agreement
end ShiftReduce
