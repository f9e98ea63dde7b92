import ShiftReduce.Proofs.Lalr.Projection
import ShiftReduce.Proofs.Table.Actions

namespace ShiftReduce

open Automaton

namespace Automaton

def kernelCores (a : Automaton) (q : StateId) : Finset Core :=
  (a.node? q).elim ∅ fun n => (n.items.kernel.map Item.core).toFinset

-- Every state of `a` goes to the one state of `b` that has its cores.
structure MatchesCores (μ : StateId → StateId) (a b : Automaton) : Prop where
  live   : ∀ q ∈ a.liveStates, μ q ∈ b.liveStates
  onto   : ∀ p ∈ b.liveStates, ∃ q ∈ a.liveStates, μ q = p
  eq_iff : ∀ q ∈ a.liveStates, ∀ p ∈ b.liveStates, μ q = p ↔ b.kernelCores p = a.kernelCores q

variable {ctx : Context} {τ μ ρ : StateId → StateId} {a b c : Automaton} {t u v : ParseTable}
  {n : Node} {p q : StateId} {r : RuleId} {x : Terminal} {s : Symbol} {α : Action}

theorem kernelCores_eq (hn : a.node? q = some n) :
    a.kernelCores q = (n.items.kernel.map Item.core).toFinset := by
  simp [kernelCores, hn]

theorem MatchesCores.comp (h : MatchesCores μ a b) (h' : MatchesCores ρ b c) :
    MatchesCores (ρ ∘ μ) a c where
  live q hq := h'.live _ <| h.live q hq
  onto p hp := by
    obtain ⟨q', hq', hp'⟩ := h'.onto p hp
    obtain ⟨q, hq, hqq'⟩ := h.onto q' hq'
    exact ⟨q, hq, by rw [Function.comp_apply, hqq', hp']⟩
  eq_iff q hq p hp := by
    rw [← (h.eq_iff q hq _ <| h.live q hq).mp rfl]
    exact h'.eq_iff _ (h.live q hq) p hp

theorem MatchesCores.congr (h : MatchesCores μ a b) (he : ∀ q ∈ a.liveStates, μ q = ρ q) :
    MatchesCores ρ a b where
  live q hq := he q hq ▸ h.live q hq
  onto p hp := by
    obtain ⟨q, hq, hqp⟩ := h.onto p hp
    exact ⟨q, hq, he q hq ▸ hqp⟩
  eq_iff q hq := he q hq ▸ h.eq_iff q hq

theorem mem_liveStates_of_kernelCores (h : (a.kernelCores q).Nonempty) : q ∈ a.liveStates := by
  cases hn : a.node? q
  case none => simp [kernelCores, hn] at h
  case some => exact mem_liveStates.mpr ⟨_, hn⟩

-- Where a state goes can be told from its cores.
theorem MatchesCores.apply_eq (h : MatchesCores μ a b) (hq : (a.kernelCores q).Nonempty)
    (hp : b.kernelCores p = a.kernelCores q) : μ q = p :=
  (h.eq_iff q (mem_liveStates_of_kernelCores hq) p <| mem_liveStates_of_kernelCores <| hp ▸ hq).mpr
    hp

-- Two LR(1) states complete nested pairs, one of them the outermost pair.
theorem kernelCores_nesting (ha : Automaton.build (.ofGrammar .nesting) .lr1 = .ok a) :
    a.kernelCores ⟨5⟩ = {⟨⟨1⟩, 3⟩} ∧ a.kernelCores ⟨7⟩ = {⟨⟨1⟩, 3⟩} := by
  constructor
  case left  => exact eq_of_build (·.kernelCores ⟨5⟩) (by decide +kernel) ha
  case right => exact eq_of_build (·.kernelCores ⟨7⟩) (by decide +kernel) ha

theorem MatchesCores.stateCount_le (h : MatchesCores μ a b) : b.stateCount ≤ a.stateCount :=
  stateCount_le_of_onto h.onto

namespace Unites

theorem finishes_iff (hg : ctx.grammar.WellFormed) (h : a.Unites ctx τ) :
    a.Finishes ctx p r x ↔ ∃ q, (q.number < (collection ctx .lr1).length ∧ τ q = p) ∧
      Finishing ctx.grammar (closureIn ctx .lr1 q) r x := by
  have hiff {n : Node} (hn : a.node? p = some n) : a.Finishes ctx p r x ↔
      ∃ q, (q.number < (collection ctx .lr1).length ∧ τ q = p) ∧
        Finishing ctx.grammar (closureIn ctx .lr1 q) r x := by
    rw [Automaton.finishes_iff h.algorithm hn (h.kinds hn)]
    simp only [Finishing]
    split
    case isTrue =>
      rw [h.follows.closure hn]
      constructor
      case mp  => exact fun hc => ⟨p, ⟨h.follows.lt hn, h.fixed hn⟩, hc⟩
      case mpr =>
        rintro ⟨q, ⟨hq, hqp⟩, hc⟩
        exact ⟨hqp ▸ (h.mem_closureIn_iff hg hq).mpr hc.left, hc.right⟩
    case isFalse =>
      rw [h.covers hn]
      constructor
      case mp =>
        rintro ⟨⟨q, hq, hc⟩, hne⟩
        exact ⟨q, hq, hc, hne⟩
      case mpr =>
        rintro ⟨q, hq, hc, hne⟩
        exact ⟨⟨q, hq, hc⟩, hne⟩
  constructor
  case mp =>
    intro hf
    obtain ⟨n, hn, hcompletes⟩ := hf
    exact (hiff hn).mp ⟨n, hn, hcompletes⟩
  case mpr =>
    rintro ⟨q, ⟨hq, hqp⟩, hf⟩
    obtain ⟨n, hn⟩ := mem_liveStates.mp <| hqp ▸ h.follows.live hq
    exact (hiff hn).mpr ⟨q, ⟨hq, hqp⟩, hf⟩

theorem mem_liveStates_iff (ha : a.Unites ctx id) :
    q ∈ a.liveStates ↔ q.number < (collection ctx .lr1).length := by
  constructor
  case mp =>
    intro hq
    obtain ⟨n, hn⟩ := mem_liveStates.mp hq
    exact ha.follows.lt hn
  case mpr => exact ha.follows.live

variable (hg : ctx.grammar.WellFormed) (ha : a.Unites ctx id) (ht : IsTableOf ctx a t)

include hg ha

theorem transition?_map (hb : b.Unites ctx τ) (hq : q ∈ a.liveStates) :
    b.transition? (τ q) s = (a.transition? q s).map τ := by
  have hlt := ha.mem_liveStates_iff.mp hq
  have heq : a.transition? q s = _ := ha.transition?_eq hg hlt
  rw [hb.transition?_eq hg hlt, heq]
  split <;> rfl

include ht

-- The actions of a state are those of the states that it unites.
theorem mem_actionsAt_iff (hb : b.Unites ctx τ) (hu : IsTableOf ctx b u) :
    α ∈ u.actionsAt p x ↔ ∃ q ∈ a.liveStates, τ q = p ∧
      ∃ β ∈ t.actionsAt q x, β.relabel τ = α := by
  have hca := ha.follows.coherent hg
  have hcb := hb.follows.coherent hg
  constructor
  case mp =>
    intro hα
    cases (hu.mem_actionsAt hcb).mp hα
    case inl hs =>
      obtain ⟨p', hp', hα⟩ := hs
      obtain ⟨n, _, hn, _⟩ := hcb.exists_of_transition? hp'
      have hlive := ha.mem_liveStates_iff.mpr <| hb.follows.lt hn
      rw [← hb.fixed hn, transition?_map hg ha hb hlive] at hp'
      obtain ⟨q', hq', heq⟩ := Option.map_eq_some_iff.mp hp'
      refine ⟨p, hlive, hb.fixed hn, .shift q', ?_, by rw [hα, ← heq]; rfl⟩
      exact (ht.mem_actionsAt hca).mpr <| .inl ⟨q', hq', rfl⟩
    case inr hr =>
      obtain ⟨r, hr, hα⟩ := hr
      obtain ⟨q, ⟨hq, hqp⟩, hf⟩ := (hb.finishes_iff hg).mp hr
      refine ⟨q, ha.mem_liveStates_iff.mpr hq, hqp, completion ctx.grammar r, ?_, ?_⟩
      · exact (ht.mem_actionsAt hca).mpr <|
          .inr ⟨r, (ha.finishes_iff hg).mpr ⟨q, ⟨hq, rfl⟩, hf⟩, rfl⟩
      · rw [hα, relabel_completion]
  case mpr =>
    rintro ⟨q, hq, hqp, β, hβ, hα⟩
    refine (hu.mem_actionsAt hcb).mpr ?_
    cases (ht.mem_actionsAt hca).mp hβ
    case inl hs =>
      obtain ⟨q', hq', hβ⟩ := hs
      refine .inl ⟨τ q', ?_, by rw [← hα, hβ]; rfl⟩
      rw [← hqp, transition?_map hg ha hb hq, hq']
      rfl
    case inr hr =>
      obtain ⟨r, hr, hβ⟩ := hr
      obtain ⟨q', ⟨hlt, hqq'⟩, hf⟩ := (ha.finishes_iff hg).mp hr
      have hqq' : q' = q := hqq'
      refine .inr ⟨r, (hb.finishes_iff hg).mpr ⟨q', ⟨hlt, hqq' ▸ hqp⟩, hf⟩, ?_⟩
      rw [← hα, hβ, relabel_completion]

-- A state with a shift and a reduction unites one with both.
theorem exists_shift_reduce (hb : b.Unites ctx τ) (hu : IsTableOf ctx b u) {p' : StateId}
    (hs : .shift p' ∈ u.actionsAt p x) (hr : .reduce r ∈ u.actionsAt p x) :
    ∃ q ∈ a.liveStates, τ q = p ∧
      (∃ q', .shift q' ∈ t.actionsAt q x) ∧ .reduce r ∈ t.actionsAt q x := by
  have hca := ha.follows.coherent hg
  obtain ⟨q, hq, hqp, β, hβ, heq⟩ := (mem_actionsAt_iff hg ha ht hb hu).mp hr
  have hβr : β = .reduce r := by
    cases β <;> simp_all [Action.relabel]
  have htransition := hu.transition?_of_mem (hb.follows.coherent hg) hs
  rw [← hqp, transition?_map hg ha hb hq] at htransition
  obtain ⟨q', hq', _⟩ := Option.map_eq_some_iff.mp htransition
  exact ⟨q, hq, hqp, ⟨q', (ht.mem_actionsAt hca).mpr <| .inl ⟨q', hq', rfl⟩⟩, hβr ▸ hβ⟩

end Unites
end Automaton

variable {ctx : Context} {a b c : Automaton} {t u v : ParseTable} {p q : StateId} {r : RuleId}
  {x : Terminal} {s : Symbol} {α : Action}

namespace Collected

-- The projection commutes with transitions, also where there are none.
theorem transition?_map_project (hg : ctx.grammar.WellFormed) (hc : Collected ctx .lr0 c)
    (ha : a.Unites ctx id) (hq : q ∈ a.liveStates) :
    c.transition? (project ctx q) s = (a.transition? q s).map (project ctx) := by
  obtain ⟨n, hn⟩ := Automaton.mem_liveStates.mp hq
  have hlt := ha.follows.lt hn
  obtain ⟨m, hm⟩ := Automaton.mem_liveStates.mp <| hc.mem_liveStates <| project_lt hg hlt
  have hfollows : c.Follows ctx .lr0 id := hc.follows hg
  have hmem : s ∈ nextSymbols ctx.grammar
      ((closureIn ctx .lr0 (project ctx q)).map Item.core) ↔
      s ∈ nextSymbols ctx.grammar ((closureIn ctx .lr1 q).map Item.core) := by
    simp only [mem_nextSymbols, mem_map_core_closureIn_project hg hlt]
  rw [ha.follows.transition?_eq hn, hfollows.transition?_eq hm]
  simp only [hmem]
  split
  case isTrue hs  => exact congrArg some (project_targetIn hg hlt hs).symm
  case isFalse hs => rfl

theorem transition?_project (hg : ctx.grammar.WellFormed) (hc : Collected ctx .lr0 c)
    (ha : a.Unites ctx id) (hq : a.transition? q s = some p) :
    c.transition? (project ctx q) s = some (project ctx p) := by
  obtain ⟨n, _, hn, _⟩ := (ha.follows.coherent hg).exists_of_transition? hq
  rw [hc.transition?_map_project hg ha (Automaton.mem_liveStates.mpr ⟨n, hn⟩), hq]
  rfl

theorem finishes_project (hg : ctx.grammar.WellFormed) (hc : Collected ctx .lr0 c)
    (ha : a.Unites ctx id) (hr : a.Finishes ctx q r x) :
    c.Finishes ctx (project ctx q) r x := by
  obtain ⟨q', ⟨hlt, hqq'⟩, hf⟩ := (ha.finishes_iff hg).mp hr
  cases show q' = q from hqq'
  obtain ⟨hmem, hx⟩ : ⟨r, (ctx.grammar.right r).length⟩ ∈ (closureIn ctx .lr1 q).map Item.core ∧
      if ctx.grammar.left r = .accept then x = .endOfInput
      else x ∈ ctx.grammar.vocabulary.inputTerminals := by
    rw [Finishing] at hf
    split at hf
    case isTrue hl  => rwa [if_pos hl]
    case isFalse hl =>
      obtain ⟨i, hi, _, hx⟩ := hf.left
      rw [if_neg hl]
      exact ⟨hf.left.mem_map_core,
        (completes_closureIn hg hlt).terminals hg (isKernel_kernelIn hg hlt) hi hx⟩
  obtain ⟨m, hm⟩ := Automaton.mem_liveStates.mp <| hc.mem_liveStates <| project_lt hg hlt
  obtain ⟨i, hi, hcore⟩ := List.mem_map.mp <| (mem_map_core_closureIn_project hg hlt).mpr hmem
  have hrule : i.rule = r := congrArg Core.rule hcore
  refine ⟨m, hm, i, hc.closure_eq hm ▸ hi, hcore, ?_⟩
  rw [completesOn, hrule, hc.algorithm, reduceOn_lr0]
  split
  case isTrue hl  => simpa [hl] using hx
  case isFalse hl => simpa [hl] using hx

-- An automaton with lookaheads has no more actions than the one without them.
theorem relabel_mem_actionsAt (hg : ctx.grammar.WellFormed) (hc : Collected ctx .lr0 c)
    (hv : IsTableOf ctx c v) (ha : a.Unites ctx id) (ht : IsTableOf ctx a t)
    (hα : α ∈ t.actionsAt q x) : α.relabel (project ctx) ∈ v.actionsAt (project ctx q) x := by
  refine (hv.mem_actionsAt <| (hc.follows hg).coherent hg).mpr ?_
  cases (ht.mem_actionsAt <| ha.follows.coherent hg).mp hα
  case inl hs =>
    obtain ⟨q', hq', hα⟩ := hs
    exact .inl ⟨project ctx q', hc.transition?_project hg ha hq', by rw [hα]; rfl⟩
  case inr hr =>
    obtain ⟨r, hr, hα⟩ := hr
    exact .inr ⟨r, hc.finishes_project hg ha hr, by rw [hα, relabel_completion]⟩

end Collected

-- Merged states have one projection.
theorem relabel_leader (hg : ctx.grammar.WellFormed) (ha : a.Unites ctx id)
    (ht : IsTableOf ctx a t) (hα : α ∈ t.actionsAt q x) :
    (α.relabel (leader ctx)).relabel (project ctx) = α.relabel (project ctx) := by
  have hca := ha.follows.coherent hg
  cases (ht.mem_actionsAt hca).mp hα
  case inl hs =>
    obtain ⟨q', hq', hα⟩ := hs
    obtain ⟨n, e, hn, he, _, htarget⟩ := hca.exists_of_transition? hq'
    obtain ⟨m, hm, _⟩ := hca.targets hn he
    rw [hα]
    exact congrArg Action.shift <| project_leader <| ha.follows.lt (htarget ▸ hm)
  case inr hr =>
    obtain ⟨r, _, hα⟩ := hr
    rw [hα, relabel_completion, relabel_completion]

-- A relabelling keeps conflicts.
theorem IsTableOf.conflict_of_relabel {φ : StateId → StateId} (ht : IsTableOf ctx a t)
    (hca : a.Coherent ctx) (hcb : b.Coherent ctx) (hu : IsTableOf ctx b u)
    (h : ∀ q x, ∀ α ∈ t.actionsAt q x, α.relabel φ ∈ u.actionsAt (φ q) x)
    (hconflict : t.conflict = true) : u.conflict = true := by
  obtain ⟨q, x, α, hα, β, hβ, hne⟩ := (ht.conflict_iff hca).mp hconflict
  refine (hu.conflict_iff hcb).mpr ⟨φ q, x, _, h q x α hα, _, h q x β hβ, fun he => hne ?_⟩
  exact ht.eq_of_relabel_eq hca hα hβ he

section Cores

theorem kernelCores_of_collected (h : Collected ctx .lr1 a) (hq : q ∈ a.liveStates) :
    a.kernelCores q = coresAt ctx q := by
  obtain ⟨n, hn⟩ := mem_liveStates.mp hq
  rw [kernelCores_eq hn, (h.kernel_eq hn).right]
  rfl

theorem kernelCores_of_merged (h : Merged ctx b) (hq : q ∈ b.liveStates) :
    b.kernelCores q = coresAt ctx q := by
  obtain ⟨n, hn⟩ := mem_liveStates.mp hq
  rw [kernelCores_eq hn, (h.items hn).toFinset_cores]

theorem matchesCores_leader (hg : ctx.grammar.WellFormed) (ha : Collected ctx .lr1 a)
    (hb : Merged ctx b) : MatchesCores (leader ctx) a b where
  live q hq := (hb.unites hg).follows.live <| (ha.unites hg).mem_liveStates_iff.mp hq
  onto p hp := by
    obtain ⟨hlt, hl⟩ := hb.mem_liveStates.mp hp
    exact ⟨p, ha.mem_liveStates hlt, hl⟩
  eq_iff q hq p hp := by
    obtain ⟨hlt, hl⟩ := hb.mem_liveStates.mp hp
    have hqlt := (ha.unites hg).mem_liveStates_iff.mp hq
    rw [kernelCores_of_collected ha hq, kernelCores_of_merged hb hp,
      ← leader_eq_leader_iff hlt hqlt, hl, eq_comm]

theorem matchesCores_project (hg : ctx.grammar.WellFormed) (hb : Merged ctx b)
    (hc : Collected ctx .lr0 c) : MatchesCores (project ctx) b c where
  live q hq := hc.mem_liveStates <| project_lt hg (hb.mem_liveStates.mp hq).left
  onto p hp := by
    obtain ⟨n, hn⟩ := mem_liveStates.mp hp
    obtain ⟨q, hlt, hl, hqp⟩ := exists_leader hg (hc.kernel_eq hn).left
    exact ⟨q, hb.mem_liveStates.mpr ⟨hlt, hl⟩, hqp⟩
  eq_iff q hq p hp := by
    obtain ⟨hlt, hl⟩ := hb.mem_liveStates.mp hq
    obtain ⟨m, hm⟩ := mem_liveStates.mp hp
    obtain ⟨q', hlt', hl', hqp⟩ := exists_leader hg (hc.kernel_eq hm).left
    have hcores : c.kernelCores p = coresAt ctx q' := by
      rw [kernelCores_eq hm, (hc.kernel_eq hm).right, ← hqp]
      show ((kernelIn ctx .lr0 (project ctx q')).map Item.core).toFinset = _
      rw [kernelIn_project hg hlt' hl', map_core_bare, coresAt]
    rw [hcores, kernelCores_of_merged hb hq, ← hqp, project_eq_iff hg hlt hlt', eq_comm]

end Cores

-- The automata of LR(1), LALR(1) and LR(0). `μ` takes the states of the first to those of the
-- second, `ρ` the states of the second to those of the third.
theorem tables_refine (h : ctx.grammar.IsDefined) :
    ∃ a b c t u v μ ρ, Automaton.build ctx .lr1 = .ok a ∧
      Automaton.build ctx .lalrByMerging = .ok b ∧ Automaton.build ctx .lr0 = .ok c ∧
      ParseTable.build a ctx = .ok t ∧ ParseTable.build b ctx = .ok u ∧
      ParseTable.build c ctx = .ok v ∧
      MatchesCores μ a b ∧ MatchesCores ρ b c ∧ MatchesCores (ρ ∘ μ) a c ∧
      (∀ p x α, α ∈ u.actionsAt p x ↔
        ∃ q ∈ a.liveStates, μ q = p ∧ ∃ β ∈ t.actionsAt q x, β.relabel μ = α) ∧
      (∀ p x, ∀ α ∈ u.actionsAt p x, α.relabel ρ ∈ v.actionsAt (ρ p) x) ∧
      (t.conflict = true → u.conflict = true) ∧ (u.conflict = true → v.conflict = true) ∧
      ∀ p x p' r, .shift p' ∈ u.actionsAt p x → .reduce r ∈ u.actionsAt p x →
        ∃ q ∈ a.liveStates, μ q = p ∧
          (∃ q', .shift q' ∈ t.actionsAt q x) ∧ .reduce r ∈ t.actionsAt q x := by
  have hg := h.wellFormed
  obtain ⟨a, hbuild, ha, hdone⟩ := exists_build hg .lr1
  obtain ⟨b, hbuild', hb, hdone'⟩ := exists_build hg .lalrByMerging
  obtain ⟨c, hbuild'', hc, hdone''⟩ := exists_build hg .lr0
  obtain ⟨t, ht, htable⟩ := exists_table ctx hdone
  obtain ⟨u, hu, htable'⟩ := exists_table ctx hdone'
  obtain ⟨v, hv, htable''⟩ := exists_table ctx hdone''
  have hca := IsOutcome.coherent hg ha
  have hcb := IsOutcome.coherent hg hb
  have hcc := IsOutcome.coherent hg hc
  have ha : Collected ctx .lr1 a := ha.left
  have hb : Merged ctx b := hb
  have hc : Collected ctx .lr0 c := hc.left
  have hmatch := matchesCores_leader hg ha hb
  have hmatch' := matchesCores_project hg hb hc
  have hunion (p x α) : α ∈ u.actionsAt p x ↔ ∃ q ∈ a.liveStates, leader ctx q = p ∧
      ∃ β ∈ t.actionsAt q x, β.relabel (leader ctx) = α :=
    Unites.mem_actionsAt_iff hg (ha.unites hg) htable (hb.unites hg) htable'
  have hleader : ∀ q x, ∀ α ∈ t.actionsAt q x,
      α.relabel (leader ctx) ∈ u.actionsAt (leader ctx q) x := by
    intro q x α hα
    exact (hunion _ x _).mpr ⟨q, htable.mem_liveStates hca hα, rfl, α, hα, rfl⟩
  have hsubset : ∀ p x, ∀ α ∈ u.actionsAt p x,
      α.relabel (project ctx) ∈ v.actionsAt (project ctx p) x := by
    intro p x α hα
    obtain ⟨q, hq, hqp, β, hβ, heq⟩ := (hunion p x α).mp hα
    rw [← hqp, ← heq, relabel_leader hg (ha.unites hg) htable hβ,
      project_leader <| (ha.unites hg).mem_liveStates_iff.mp hq]
    exact hc.relabel_mem_actionsAt hg htable'' (ha.unites hg) htable hβ
  exact ⟨a, b, c, t, u, v, leader ctx, project ctx, hbuild, hbuild', hbuild'', ht, hu, hv, hmatch,
    hmatch', hmatch.comp hmatch', hunion, hsubset,
    htable.conflict_of_relabel hca hcb htable' hleader,
    htable'.conflict_of_relabel hcb hcc htable'' hsubset,
    fun _ _ _ _ => Unites.exists_shift_reduce hg (ha.unites hg) htable (hb.unites hg) htable'⟩

-- Two LR(1) states complete nested pairs, and each reduces on one terminal. They become one LALR(1)
-- state, which reduces on both, and an LR(0) state that reduces on every terminal.
theorem tables_refine_on_nesting : Grammar.nesting.IsDefined ∧
    ∃ a b c t u v μ ρ, Automaton.build (.ofGrammar .nesting) .lr1 = .ok a ∧
      Automaton.build (.ofGrammar .nesting) .lalrByMerging = .ok b ∧
      Automaton.build (.ofGrammar .nesting) .lr0 = .ok c ∧
      ParseTable.build a (.ofGrammar .nesting) = .ok t ∧
      ParseTable.build b (.ofGrammar .nesting) = .ok u ∧
      ParseTable.build c (.ofGrammar .nesting) = .ok v ∧
      MatchesCores μ a b ∧ MatchesCores ρ b c ∧ μ ⟨5⟩ = ⟨5⟩ ∧ μ ⟨7⟩ = ⟨5⟩ ∧ ρ ⟨5⟩ = ⟨4⟩ ∧
      (t.actionsAt ⟨5⟩ .endOfInput = [.reduce ⟨1⟩] ∧ t.actionsAt ⟨5⟩ ⟨3⟩ = []) ∧
      (t.actionsAt ⟨7⟩ .endOfInput = [] ∧ t.actionsAt ⟨7⟩ ⟨3⟩ = [.reduce ⟨1⟩]) ∧
      (.reduce ⟨1⟩ ∈ u.actionsAt ⟨5⟩ .endOfInput ∧ .reduce ⟨1⟩ ∈ u.actionsAt ⟨5⟩ ⟨3⟩) ∧
      u.actionsAt ⟨5⟩ ⟨2⟩ = [] ∧ v.actionsAt ⟨4⟩ ⟨2⟩ = [.reduce ⟨1⟩] := by
  have h := Grammar.nesting_isDefined
  obtain ⟨a, b, c, t, u, v, μ, ρ, ha, hb, hc, ht, hu, hv, hmatch, hmatch', _, hunion, _⟩ :=
    @tables_refine (.ofGrammar .nesting) h
  obtain ⟨houter, hinner⟩ := kernelCores_nesting ha
  have hunited : b.kernelCores ⟨5⟩ = {⟨⟨1⟩, 3⟩} :=
    eq_of_build (·.kernelCores ⟨5⟩) (by decide +kernel) hb
  have hlr0 : c.kernelCores ⟨4⟩ = {⟨⟨1⟩, 3⟩} :=
    eq_of_build (·.kernelCores ⟨4⟩) (by decide +kernel) hc
  have hμ : μ ⟨5⟩ = ⟨5⟩ := hmatch.apply_eq (by simp [houter]) (hunited.trans houter.symm)
  have hμ' : μ ⟨7⟩ = ⟨5⟩ := hmatch.apply_eq (by simp [hinner]) (hunited.trans hinner.symm)
  have hρ : ρ ⟨5⟩ = ⟨4⟩ := hmatch'.apply_eq (by simp [hunited]) (hlr0.trans hunited.symm)
  have hactions : t.actionsAt ⟨5⟩ .endOfInput = [.reduce ⟨1⟩] ∧ t.actionsAt ⟨5⟩ ⟨3⟩ = [] :=
    Prod.mk.inj <| eq_of_builds (fun t => (t.actionsAt ⟨5⟩ .endOfInput, t.actionsAt ⟨5⟩ ⟨3⟩))
      (by decide +kernel) ha ht
  have hactions' : t.actionsAt ⟨7⟩ .endOfInput = [] ∧ t.actionsAt ⟨7⟩ ⟨3⟩ = [.reduce ⟨1⟩] :=
    Prod.mk.inj <| eq_of_builds (fun t => (t.actionsAt ⟨7⟩ .endOfInput, t.actionsAt ⟨7⟩ ⟨3⟩))
      (by decide +kernel) ha ht
  have hreduce {q : StateId} {x : Terminal} (hq : (a.kernelCores q).Nonempty)
      (hx : t.actionsAt q x = [.reduce ⟨1⟩]) : .reduce ⟨1⟩ ∈ u.actionsAt (μ q) x :=
    (hunion _ x _).mpr
      ⟨q, mem_liveStates_of_kernelCores hq, rfl, .reduce ⟨1⟩, by simp [hx], rfl⟩
  exact ⟨h, a, b, c, t, u, v, μ, ρ, ha, hb, hc, ht, hu, hv, hmatch, hmatch', hμ, hμ', hρ, hactions,
    hactions', ⟨hμ ▸ hreduce (by simp [houter]) hactions.left,
      hμ' ▸ hreduce (by simp [hinner]) hactions'.right⟩,
    eq_of_builds (·.actionsAt ⟨5⟩ ⟨2⟩) (by decide +kernel) hb hu,
    eq_of_builds (·.actionsAt ⟨4⟩ ⟨2⟩) (by decide +kernel) hc hv⟩

end ShiftReduce
