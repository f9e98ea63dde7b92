import ShiftReduce.Proofs.Construction.Outcome
import ShiftReduce.Proofs.Construction.Renaming

namespace ShiftReduce

namespace Automaton

-- What the automata of all four algorithms have in common: states are linked by prediction and by
-- transitions.
structure Coherent (ctx : Context) (a : Automaton) : Prop where
  start   : ∃ n, a.node? .start = some n ∧ n.items.kernel.map Item.core = [⟨.accept, 0⟩]
  cut     : a.IsCut
  closed  : ∀ {q n}, a.node? q = some n → ∀ c, c ∈ n.items.closure.map Item.core ↔
    Predicted ctx.grammar (n.items.kernel.map Item.core) c
  valid   : ∀ {q n}, a.node? q = some n → ∀ c ∈ n.items.closure.map Item.core,
    (ctx.grammar.rule? c.rule).isSome ∧ c.dot ≤ (ctx.grammar.right c.rule).length
  symbols : ∀ {q n}, a.node? q = some n → n.edges.map (·.symbol) =
    nextSymbols ctx.grammar (n.items.closure.map Item.core)
  targets : ∀ {q n e}, a.node? q = some n → e ∈ n.edges → ∃ m, a.node? e.target = some m ∧
    ∀ c, c ∈ m.items.kernel.map Item.core ↔ ∃ d ∈ n.items.closure.map Item.core,
      d.next? ctx.grammar = some e.symbol ∧ d.advance = c

-- The item `c` of the state `q` may act on `t`, once it is complete.
def Looks (ctx : Context) (a : Automaton) (q : StateId) (c : Core) (t : Terminal) : Prop :=
  ∃ n, a.node? q = some n ∧ c ∈ n.items.closure.map Item.core ∧
    if a.algorithm = .lr0 then t ∈ ctx.grammar.vocabulary.inputTerminals
    else Covers n.items.closure c t

theorem Looks.exists_node {ctx : Context} {a : Automaton} {q : StateId} {c : Core} {t : Terminal}
    (h : a.Looks ctx q c t) : ∃ n, a.node? q = some n ∧ c ∈ n.items.closure.map Item.core := by
  obtain ⟨n, hn, hcore, _⟩ := h
  exact ⟨n, hn, hcore⟩

-- What an item may look ahead to is closed under prediction and under transitions.
structure Foresees (ctx : Context) (a : Automaton) : Prop where
  start     : a.Looks ctx .start ⟨.accept, 0⟩ .endOfInput
  generated : ∀ {q n c d t}, a.node? q = some n → c ∈ n.items.closure.map Item.core →
    d ∈ c.predicted ctx.grammar → t ∈ ctx.first.ofSeq (c.afterNext ctx.grammar) ∅ →
    a.Looks ctx q d t
  passed    : ∀ {q c d t}, a.Looks ctx q c t → d ∈ c.predicted ctx.grammar →
    ctx.first.NullableSeq (c.afterNext ctx.grammar) → a.Looks ctx q d t
  shifted   : ∀ {q n c t e}, a.Looks ctx q c t → a.node? q = some n → e ∈ n.edges →
    c.next? ctx.grammar = some e.symbol → a.Looks ctx e.target c.advance t
  kinds     : a.algorithm ≠ .lr0 → ∀ {q n}, a.node? q = some n →
    ∀ i ∈ n.items.closure, i.kind = .lr1

def IsReachable (a : Automaton) : StateId → Prop :=
  Relation.ReflTransGen (fun p q => ∃ x, a.transition? p x = some q) .start

-- The live states are states of the canonical collection, up to lookaheads, with the transitions
-- there led on to live states by `τ`.
structure Follows (ctx : Context) (kind : ItemKind) (τ : StateId → StateId) (a : Automaton) :
    Prop where
  start   : .start ∈ a.liveStates
  cut     : a.IsCut
  lt      : ∀ {q n}, a.node? q = some n → q.number < (collection ctx kind).length
  kernel  : ∀ {q n}, a.node? q = some n →
    n.items.kernel.map Item.core = (kernelIn ctx kind q).map Item.core
  closure : ∀ {q n}, a.node? q = some n →
    n.items.closure.map Item.core = (closureIn ctx kind q).map Item.core
  edges   : ∀ {q n}, a.node? q = some n →
    n.edges = (edgesOf ctx kind (kernelIn ctx kind q)).map (Edge.rename τ)
  live    : ∀ {p : StateId}, p.number < (collection ctx kind).length → τ p ∈ a.liveStates
  cores   : ∀ {p : StateId}, p.number < (collection ctx kind).length → ∀ c,
    c ∈ (kernelIn ctx kind (τ p)).map Item.core ↔ c ∈ (kernelIn ctx kind p).map Item.core

variable {ctx : Context} {kind : ItemKind} {alg : Algorithm} {τ : StateId → StateId} {a : Automaton}
  {n m : Node} {p q : StateId} {c d : Core} {t : Terminal} {e : Edge} {x : Symbol}

namespace Coherent

theorem start_closure (h : a.Coherent ctx) :
    ∃ n, a.node? .start = some n ∧ ⟨.accept, 0⟩ ∈ n.items.closure.map Item.core := by
  obtain ⟨n, hn, hk⟩ := h.start
  exact ⟨n, hn, (h.closed hn _).mpr <| .start <| by simp [hk]⟩

theorem eq_of_isEnd (h : a.Coherent ctx) (hn : a.node? q = some n)
    (hc : c ∈ n.items.closure.map Item.core) (hend : c.IsEnd ctx.grammar) :
    c = ⟨c.rule, (ctx.grammar.right c.rule).length⟩ :=
  congrArg (Core.mk c.rule) <| Nat.le_antisymm (h.valid hn c hc).right hend

theorem mem_closure_of_predicted (h : a.Coherent ctx) (hn : a.node? q = some n)
    (hc : c ∈ n.items.closure.map Item.core) (hd : d ∈ c.predicted ctx.grammar) :
    d ∈ n.items.closure.map Item.core :=
  (h.closed hn d).mpr <| .step ((h.closed hn c).mp hc) hd

theorem exists_next (h : a.Coherent ctx) (hn : a.node? q = some n) (he : e ∈ n.edges) :
    ∃ c ∈ n.items.closure.map Item.core, c.next? ctx.grammar = some e.symbol := by
  refine mem_nextSymbols.mp ?_
  rw [← h.symbols hn]
  exact List.mem_map_of_mem he

-- There is exactly one transition for each symbol after a dot.
theorem exists_edge (h : a.Coherent ctx) (hn : a.node? q = some n)
    (hc : c ∈ n.items.closure.map Item.core) (hx : c.next? ctx.grammar = some x) :
    ∃ e ∈ n.edges, e.symbol = x := by
  refine List.mem_map.mp ?_
  rw [h.symbols hn]
  exact mem_nextSymbols.mpr ⟨c, hc, hx⟩

theorem eq_of_symbol_eq {e' : Edge} (h : a.Coherent ctx) (hn : a.node? q = some n)
    (he : e ∈ n.edges) (he' : e' ∈ n.edges) (hs : e.symbol = e'.symbol) : e = e' := by
  have hnodup : (n.edges.map (·.symbol)).Nodup := h.symbols hn ▸ nodup_nextSymbols
  exact List.inj_on_of_nodup_map hnodup he he' hs

theorem transition?_eq (h : a.Coherent ctx) (hn : a.node? q = some n) (he : e ∈ n.edges) :
    a.transition? q e.symbol = some e.target := by
  have hfind : n.edges.find? (·.symbol = e.symbol) = some e := by
    have hsome : (n.edges.find? (·.symbol = e.symbol)).isSome :=
      List.find?_isSome.mpr ⟨e, he, decide_eq_true rfl⟩
    obtain ⟨e', hfind⟩ := Option.isSome_iff_exists.mp hsome
    have hsymbol : e'.symbol = e.symbol := by simpa using List.find?_some hfind
    rw [hfind, h.eq_of_symbol_eq hn (List.mem_of_find?_eq_some hfind) he hsymbol]
  rw [transition?, edge?_eq hn, hfind]
  rfl

theorem exists_of_transition? (h : a.Coherent ctx) (ht : a.transition? q x = some p) :
    ∃ n e, a.node? q = some n ∧ e ∈ n.edges ∧ e.symbol = x ∧ e.target = p := by
  obtain ⟨e, he, htarget⟩ := Option.map_eq_some_iff.mp ht
  obtain ⟨n, hn, hfind⟩ := Option.bind_eq_some_iff.mp he
  have hmem := List.mem_of_find?_eq_some hfind
  obtain ⟨n', hn', hmem⟩ := (mem_transitions_iff h.cut).mp <| mem_transitions.mpr ⟨n, hn, hmem⟩
  exact ⟨n', e, hn', hmem, by simpa using List.find?_some hfind, htarget⟩

theorem advance_mem_closure (h : a.Coherent ctx) (hn : a.node? q = some n)
    (hc : c ∈ n.items.closure.map Item.core) (hx : c.next? ctx.grammar = some x)
    (hp : a.transition? q x = some p) :
    ∃ m, a.node? p = some m ∧ c.advance ∈ m.items.closure.map Item.core := by
  obtain ⟨n', e, hn', he, hs, htarget⟩ := h.exists_of_transition? hp
  cases hn.symm.trans hn'
  obtain ⟨m, hm, hcores⟩ := h.targets hn he
  refine ⟨m, htarget ▸ hm, (h.closed hm _).mpr <| .start ?_⟩
  exact (hcores _).mpr ⟨c, hc, hs ▸ hx, rfl⟩

theorem exists_transition? (h : a.Coherent ctx) (hn : a.node? q = some n)
    (hc : c ∈ n.items.closure.map Item.core) (hx : c.next? ctx.grammar = some x) :
    ∃ p, a.transition? q x = some p := by
  obtain ⟨e, he, hs⟩ := h.exists_edge hn hc hx
  exact ⟨e.target, hs ▸ h.transition?_eq hn he⟩

-- What does not begin in a state has been advanced over the symbol that leads to it.
theorem exists_advanced (h : a.Coherent ctx) (hp : a.transition? q x = some p)
    (hn : a.node? p = some n) (hc : c ∈ n.items.closure.map Item.core) (hdot : c.dot ≠ 0) :
    ∃ d : Core, d.next? ctx.grammar = some x ∧ d.advance = c := by
  obtain ⟨_, e, hq, he, hs, htarget⟩ := h.exists_of_transition? hp
  obtain ⟨m, hm, hcores⟩ := h.targets hq he
  cases hn.symm.trans (htarget ▸ hm)
  have hkernel := ((h.closed hn c).mp hc).mem_or_dot_eq_zero.resolve_right (hdot ·.left)
  obtain ⟨d, _, hnext, hadvance⟩ := (hcores c).mp hkernel
  exact ⟨d, hs ▸ hnext, hadvance⟩

end Coherent

theorem Foresees.advance (hf : a.Foresees ctx) (h : a.Coherent ctx) (hl : a.Looks ctx q c t)
    (hx : c.next? ctx.grammar = some x) (hp : a.transition? q x = some p) :
    a.Looks ctx p c.advance t := by
  obtain ⟨n, e, hn, he, hs, htarget⟩ := h.exists_of_transition? hp
  exact htarget ▸ hf.shifted hl hn he (hs ▸ hx)

-- The edges of a state of the collection, with the targets led on by `τ`.
theorem edge?_of_edges (hn : a.node? q = some n)
    (he : n.edges = (edgesOf ctx kind (kernelIn ctx kind q)).map (Edge.rename τ)) :
    a.edge? q x =
      if x ∈ nextSymbols ctx.grammar ((closureIn ctx kind q).map Item.core) then
        some ⟨x, τ (targetIn ctx kind q x),
          ruleOver ctx.grammar x ((closureIn ctx kind q).map Item.core)⟩
      else none := by
  have hfind : n.edges.find? (·.symbol = x) =
      ((edgesOf ctx kind (kernelIn ctx kind q)).find? (·.symbol = x)).map (Edge.rename τ) := by
    rw [he, List.find?_map]
    rfl
  rw [edge?_eq hn, hfind]
  split
  case isTrue hx  =>
    rw [find?_edgesOf hx]
    rfl
  case isFalse hx =>
    rw [find?_edgesOf_of_not_mem hx]
    rfl

theorem transition?_of_edges (hn : a.node? q = some n)
    (he : n.edges = (edgesOf ctx kind (kernelIn ctx kind q)).map (Edge.rename τ)) :
    a.transition? q x =
      if x ∈ nextSymbols ctx.grammar ((closureIn ctx kind q).map Item.core) then
        some (τ <| targetIn ctx kind q x)
      else none := by
  rw [transition?, edge?_of_edges hn he]
  split <;> rfl

namespace Follows

theorem exists_target (h : Follows ctx kind τ a) (hn : a.node? q = some n) (he : e ∈ n.edges) :
    e.symbol ∈ nextSymbols ctx.grammar ((closureIn ctx kind q).map Item.core) ∧
      e.target = τ (targetIn ctx kind q e.symbol) := by
  rw [h.edges hn, edgesOf_eq, List.map_map] at he
  obtain ⟨x, hx, hxe⟩ := List.mem_map.mp he
  exact hxe ▸ ⟨hx, rfl⟩

theorem transition?_eq (h : Follows ctx kind τ a) (hn : a.node? q = some n) :
    a.transition? q x =
      if x ∈ nextSymbols ctx.grammar ((closureIn ctx kind q).map Item.core) then
        some (τ <| targetIn ctx kind q x)
      else none :=
  transition?_of_edges hn (h.edges hn)

theorem coherent (hg : ctx.grammar.WellFormed) (h : Follows ctx kind τ a) : a.Coherent ctx where
  cut     := h.cut
  start   := by
    obtain ⟨n, hn⟩ := mem_liveStates.mp h.start
    refine ⟨n, hn, ?_⟩
    rw [h.kernel hn, kernelIn_start hg]
    cases kind <;> rfl
  closed  := by
    intro q n hn c
    rw [h.closure hn, h.kernel hn, (completes_closureIn hg (h.lt hn)).mem_iff_predicted]
  valid   := by
    intro q n hn c hc
    rw [h.closure hn] at hc
    obtain ⟨i, hi, hic⟩ := List.mem_map.mp hc
    have k := isKernel_kernelIn hg (h.lt hn)
    have hcompletes := completes_closureIn hg (h.lt hn)
    exact hic ▸ ⟨hcompletes.rules k hi, hcompletes.dots k hi⟩
  symbols := by
    intro q n hn
    rw [h.edges hn, edgesOf_eq, h.closure hn, List.map_map, List.map_map]
    exact List.map_id _
  targets := by
    intro q n e hn he
    obtain ⟨hsymbol, htarget⟩ := h.exists_target hn he
    have hlt := targetIn_lt hg (h.lt hn) hsymbol
    obtain ⟨m, hm⟩ := mem_liveStates.mp <| h.live hlt
    refine ⟨m, htarget ▸ hm, fun c => ?_⟩
    rw [h.kernel hm, h.cores hlt, mem_map_core_kernelIn_targetIn hg (h.lt hn) hsymbol,
      h.closure hn]

-- Without lookaheads every item may act on every terminal.
theorem foresees_lr0 (hg : ctx.grammar.WellFormed) (h : Follows ctx kind τ a)
    (halg : a.algorithm = .lr0) : a.Foresees ctx := by
  have hcoherent := h.coherent hg
  have hlooks {q n c t} (hn : a.node? q = some n) (hc : c ∈ n.items.closure.map Item.core)
      (ht : t ∈ ctx.grammar.vocabulary.inputTerminals) : a.Looks ctx q c t :=
    ⟨n, hn, hc, by rwa [if_pos halg]⟩
  constructor
  case start =>
    obtain ⟨n, hn, hc⟩ := hcoherent.start_closure
    exact hlooks hn hc hg.endOfInput_mem_inputTerminals
  case generated =>
    intro q n c d t hn hc hd ht
    exact hlooks hn (hcoherent.mem_closure_of_predicted hn hc hd) <|
      ctx.mem_inputTerminals_of_mem_ofSeq hg ht
  case passed =>
    rintro q c d t ⟨n, hn, hc, ht⟩ hd _
    rw [if_pos halg] at ht
    exact hlooks hn (hcoherent.mem_closure_of_predicted hn hc hd) ht
  case shifted =>
    rintro q n c t e ⟨n', hn', hc, ht⟩ hn he hx
    cases hn.symm.trans hn'
    rw [if_pos halg] at ht
    obtain ⟨m, hm, hcores⟩ := hcoherent.targets hn he
    refine hlooks hm ((hcoherent.closed hm _).mpr <| .start ?_) ht
    exact (hcores _).mpr ⟨c, hc, hx, rfl⟩
  case kinds => exact absurd halg

end Follows

-- Lookaheads that come from the states that `τ` unites.
structure Unites (ctx : Context) (τ : StateId → StateId) (a : Automaton) : Prop where
  follows    : a.Follows ctx .lr1 τ
  algorithm  : a.algorithm ≠ .lr0
  kinds      : ∀ {q n}, a.node? q = some n → ∀ i ∈ n.items.closure, i.kind = .lr1
  fixed      : ∀ {q n}, a.node? q = some n → τ q = q
  covers     : ∀ {q n}, a.node? q = some n → ∀ c t, Covers n.items.closure c t ↔
    ∃ p, (p.number < (collection ctx .lr1).length ∧ τ p = q) ∧ Covers (closureIn ctx .lr1 p) c t
  compatible : ∀ {p q x}, p.number < (collection ctx .lr1).length →
    q.number < (collection ctx .lr1).length → τ p = τ q →
    x ∈ nextSymbols ctx.grammar ((closureIn ctx .lr1 p).map Item.core) →
    τ (targetIn ctx .lr1 p x) = τ (targetIn ctx .lr1 q x)

namespace Unites

theorem looks_iff (h : a.Unites ctx τ) (hn : a.node? q = some n) :
    a.Looks ctx q c t ↔ Covers n.items.closure c t := by
  simp only [Looks, hn, Option.some.injEq, exists_eq_left', if_neg h.algorithm]
  exact and_iff_right_of_imp Covers.mem_map_core

-- The lookaheads of a state are those of the states that it unites.
theorem looks_iff_exists (h : a.Unites ctx τ) (hn : a.node? q = some n) : a.Looks ctx q c t ↔
    ∃ p, (p.number < (collection ctx .lr1).length ∧ τ p = q) ∧ Covers (closureIn ctx .lr1 p) c t :=
  (h.looks_iff hn).trans <| h.covers hn c t

theorem mem_closureIn_iff (hg : ctx.grammar.WellFormed) (h : a.Unites ctx τ)
    (hq : q.number < (collection ctx .lr1).length) :
    c ∈ (closureIn ctx .lr1 (τ q)).map Item.core ↔ c ∈ (closureIn ctx .lr1 q).map Item.core := by
  obtain ⟨n, hn⟩ := mem_liveStates.mp <| h.follows.live hq
  rw [(completes_closureIn hg (h.follows.lt hn)).mem_iff_predicted,
    (completes_closureIn hg hq).mem_iff_predicted]
  constructor
  case mp  => exact Predicted.subset fun c hc => (h.follows.cores hq c).mp hc
  case mpr => exact Predicted.subset fun c hc => (h.follows.cores hq c).mpr hc

-- Merged states have the same transitions.
theorem transition?_eq (hg : ctx.grammar.WellFormed) (h : a.Unites ctx τ)
    (hq : q.number < (collection ctx .lr1).length) : a.transition? (τ q) x =
      if x ∈ nextSymbols ctx.grammar ((closureIn ctx .lr1 q).map Item.core) then
        some (τ <| targetIn ctx .lr1 q x)
      else none := by
  obtain ⟨n, hn⟩ := mem_liveStates.mp <| h.follows.live hq
  have hmem : x ∈ nextSymbols ctx.grammar ((closureIn ctx .lr1 (τ q)).map Item.core) ↔
      x ∈ nextSymbols ctx.grammar ((closureIn ctx .lr1 q).map Item.core) := by
    simp only [mem_nextSymbols, h.mem_closureIn_iff hg hq]
  rw [h.follows.transition?_eq hn]
  simp only [hmem]
  split
  case isTrue hx  => rw [h.compatible hq (h.follows.lt hn) (h.fixed hn).symm hx]
  case isFalse hx => rfl

theorem foresees (hg : ctx.grammar.WellFormed) (h : a.Unites ctx τ) : a.Foresees ctx where
  start     := by
    obtain ⟨n, hn⟩ := mem_liveStates.mp h.follows.start
    refine (h.looks_iff_exists hn).mpr ⟨.start, ⟨h.follows.lt hn, h.fixed hn⟩, ?_⟩
    refine Covers.subset (completes_closureIn hg (h.follows.lt hn)).subset.subset ?_
    rw [kernelIn_start hg]
    exact covers_singleton.mpr ⟨rfl, TerminalSet.mem_singleton.mpr rfl⟩
  generated := by
    intro q n c d t hn hc hd ht
    have hcompletes : Completes ctx .lr1 _ _ := completes_closureIn hg (h.follows.lt hn)
    rw [h.follows.closure hn, hcompletes.mem_iff_predicted] at hc
    refine (h.looks_iff_exists hn).mpr ⟨q, ⟨h.follows.lt hn, h.fixed hn⟩, ?_⟩
    exact (hcompletes.covers rfl _ _).mpr <| .generated hc hd ht
  passed    := by
    intro q c d t hl hd hnull
    obtain ⟨n, hn, _⟩ := hl.exists_node
    obtain ⟨p, hp, hcovers⟩ := (h.looks_iff_exists hn).mp hl
    have hcompletes : Completes ctx .lr1 _ _ := completes_closureIn hg hp.left
    refine (h.looks_iff_exists hn).mpr ⟨p, hp, ?_⟩
    have l := (hcompletes.covers rfl _ _).mp hcovers
    exact (hcompletes.covers rfl _ _).mpr <| .passed l hd hnull
  shifted   := by
    intro q n c t e hl hn he hx
    obtain ⟨p, ⟨hp, hpq⟩, hcovers⟩ := (h.looks_iff_exists hn).mp hl
    obtain ⟨_, htarget⟩ := h.follows.exists_target hn he
    have hsymbol := mem_nextSymbols_closureIn hcovers.mem_map_core hx
    have hlt := targetIn_lt hg hp hsymbol
    have hsame : τ (targetIn ctx .lr1 p e.symbol) = e.target := by
      rw [htarget]
      exact h.compatible hp (h.follows.lt hn) (hpq.trans (h.fixed hn).symm) hsymbol
    obtain ⟨m, hm⟩ := mem_liveStates.mp <| hsame ▸ h.follows.live hlt
    refine (h.looks_iff_exists hm).mpr ⟨_, ⟨hlt, hsame⟩, ?_⟩
    refine Covers.subset (completes_closureIn hg hlt).subset.subset ?_
    refine Covers.subset (fun i hi => (mem_kernelIn_targetIn hg hp hsymbol).mpr hi) ?_
    exact covers_kernelOver.mpr ⟨c, hx, rfl, hcovers⟩
  kinds _   := h.kinds

end Unites
end Automaton

section Outcomes

open Automaton

namespace Collected

theorem kernel_eq (h : Collected ctx alg a) (hn : a.node? q = some n) :
    q.number < (collection ctx alg.itemKind).length ∧
      n.items.kernel = kernelIn ctx alg.itemKind q := by
  have hget := h.getElem?_eq (node?_eq_some_iff.mp hn).left
  exact ⟨(List.getElem?_eq_some_iff.mp hget).choose, (kernelIn_eq hget).symm⟩

theorem isCollected (h : Collected ctx alg a) (hn : a.node? q = some n) :
    IsCollected ctx alg.itemKind n :=
  h.nodes n <| Array.mem_of_getElem? (node?_eq_some_iff.mp hn).left

theorem closure_eq (h : Collected ctx alg a) (hn : a.node? q = some n) :
    n.items.closure = closureIn ctx alg.itemKind q := by
  rw [(h.isCollected hn).closure, (h.kernel_eq hn).right, closureIn]

theorem mem_liveStates (h : Collected ctx alg a)
    (hq : q.number < (collection ctx alg.itemKind).length) : q ∈ a.liveStates := by
  rw [← h.size_eq] at hq
  have hn := Array.getElem?_eq_getElem hq
  refine Automaton.mem_liveStates.mpr ⟨_, node?_eq_some_iff.mpr ⟨hn, ?_⟩⟩
  exact (h.nodes _ <| Array.mem_of_getElem? hn).live

theorem follows (hg : ctx.grammar.WellFormed) (h : Collected ctx alg a) :
    a.Follows ctx alg.itemKind id where
  start      := h.mem_liveStates <| length_collection_pos hg
  cut n hn   := by simp [(h.nodes n hn).live]
  lt hn      := (h.kernel_eq hn).left
  kernel hn  := by rw [(h.kernel_eq hn).right]
  closure hn := by rw [h.closure_eq hn]
  edges hn   := by
    rw [(h.isCollected hn).edges, (h.kernel_eq hn).right]
    exact (List.map_id _).symm
  live hp    := h.mem_liveStates hp
  cores _ _  := Iff.rfl

theorem unites (hg : ctx.grammar.WellFormed) (h : Collected ctx .lr1 a) : a.Unites ctx id where
  follows    := h.follows hg
  algorithm  := by simp [h.algorithm]
  fixed _    := rfl
  kinds      := by
    intro q n hn
    rw [h.closure_eq hn]
    exact (completes_closureIn hg (h.kernel_eq hn).left).kinds
  covers     := by
    intro q n hn c t
    have hlt : q.number < (collection ctx .lr1).length := (h.kernel_eq hn).left
    rw [h.closure_eq hn]
    constructor
    case mp  => exact fun hc => ⟨q, ⟨hlt, rfl⟩, hc⟩
    case mpr => exact fun ⟨p, ⟨_, hpq⟩, hc⟩ => (show p = q from hpq) ▸ hc
  compatible := by
    intro p q x _ _ hpq _
    rw [show p = q from hpq]

end Collected

theorem leader_targetIn (hg : ctx.grammar.WellFormed)
    (hp : p.number < (collection ctx .lr1).length) (hq : q.number < (collection ctx .lr1).length)
    (hpq : leader ctx p = leader ctx q)
    (hx : x ∈ nextSymbols ctx.grammar ((closureIn ctx .lr1 p).map Item.core)) :
    leader ctx (targetIn ctx .lr1 p x) = leader ctx (targetIn ctx .lr1 q x) := by
  have hcores := (leader_eq_leader_iff hp hq).mp hpq
  have hmem (c : Core) : c ∈ (closureIn ctx .lr1 p).map Item.core ↔
      c ∈ (closureIn ctx .lr1 q).map Item.core :=
    ⟨@map_core_closureIn_subset _ _ _ hg hp hq hcores c,
      @map_core_closureIn_subset _ _ _ hg hq hp hcores.symm c⟩
  have hx' : x ∈ nextSymbols ctx.grammar ((closureIn ctx .lr1 q).map Item.core) := by
    simp only [mem_nextSymbols, hmem] at hx ⊢
    exact hx
  refine leader_eq_leader <| Finset.ext fun c => ?_
  rw [mem_coresAt, mem_coresAt, mem_map_core_kernelIn_targetIn hg hp hx,
    mem_map_core_kernelIn_targetIn hg hq hx']
  simp only [hmem]

theorem Merged.follows (hg : ctx.grammar.WellFormed) (h : Merged ctx a) :
    a.Follows ctx .lr1 (leader ctx) where
  start      := by
    have hlt : StateId.start.number < (collection ctx .lr1).length := length_collection_pos hg
    refine h.mem_liveStates.mpr ⟨hlt, ?_⟩
    have hle := leader_le hlt
    exact congrArg StateId.mk <| Nat.le_zero.mp hle
  cut        := h.cut
  lt hn      := (h.isLeader hn).left
  kernel hn  := (h.items hn).kernelCores
  closure hn := (h.items hn).closureCores
  edges hn   := h.edges hn
  live hp    := h.mem_liveStates.mpr ⟨(leader_le hp).trans_lt hp, leader_leader hp⟩
  cores hp c := by rw [← mem_coresAt, ← mem_coresAt, coresAt_leader hp]

theorem Merged.unites (hg : ctx.grammar.WellFormed) (h : Merged ctx a) :
    a.Unites ctx (leader ctx) where
  follows    := h.follows hg
  algorithm  := by simp [h.algorithm]
  kinds hn   := (h.items hn).closureKinds
  fixed hn   := (h.isLeader hn).right
  covers hn  := (h.items hn).closureCovers
  compatible := leader_targetIn hg

namespace Propagated

theorem closureCores (hg : ctx.grammar.WellFormed) (h : Propagated ctx a)
    (hn : a.node? q = some n) :
    n.items.closure.map Item.core = (closureIn ctx .lr0 q).map Item.core := by
  have hlt := h.live_iff.mp <| Option.isSome_iff_exists.mpr ⟨n, hn⟩
  exact (h.completes hn).map_core_eq (completes_closureIn hg hlt) (h.cores hn)

theorem follows (hg : ctx.grammar.WellFormed) (h : Propagated ctx a) :
    a.Follows ctx .lr0 id where
  start      := h.live_iff.mpr <| length_collection_pos hg
  cut        := h.isCut
  lt hn      := h.live_iff.mp <| Option.isSome_iff_exists.mpr ⟨_, hn⟩
  kernel hn  := h.cores hn
  closure hn := h.closureCores hg hn
  edges hn   := (h.edges hn).trans (List.map_id _).symm
  live hp    := h.live_iff.mpr hp
  cores _ _  := Iff.rfl

theorem looks_iff (h : Propagated ctx a) (hn : a.node? q = some n) :
    a.Looks ctx q c t ↔ IsLookahead ctx q c t := by
  simp only [Looks, hn, Option.some.injEq, exists_eq_left', h.algorithm, reduceCtorEq, if_false]
  rw [and_iff_right_of_imp Covers.mem_map_core, h.lookaheads hn]

theorem foresees (hg : ctx.grammar.WellFormed) (h : Propagated ctx a) : a.Foresees ctx where
  start     := by
    obtain ⟨n, hn⟩ := mem_liveStates.mp (h.follows hg).start
    exact (h.looks_iff hn).mpr .start
  generated := by
    intro q n c d t hn hc hd ht
    rw [h.closureCores hg hn] at hc
    exact (h.looks_iff hn).mpr <| .generated ((h.follows hg).lt hn) hc hd ht
  passed    := by
    intro q c d t hl hd hnull
    obtain ⟨n, hn, _⟩ := hl.exists_node
    exact (h.looks_iff hn).mpr <| .passed ((h.looks_iff hn).mp hl) hd hnull
  shifted   := by
    intro q n c t e hl hn he hx
    obtain ⟨hsymbol, htarget⟩ := (h.follows hg).exists_target hn he
    have hlt := targetIn_lt hg ((h.follows hg).lt hn) hsymbol
    obtain ⟨m, hm⟩ := mem_liveStates.mp <| (h.follows hg).live hlt
    rw [htarget]
    exact (h.looks_iff hm).mpr <| .shifted ((h.looks_iff hn).mp hl) hx
  kinds _   := fun hn => (h.completes hn).kinds

end Propagated

theorem IsOutcome.algorithm (h : IsOutcome ctx alg a) : a.algorithm = alg := by
  cases alg
  case lr0 | lr1         => exact h.left.algorithm
  case lalrByMerging     => exact Merged.algorithm h
  case lalrByPropagation => exact Propagated.algorithm h

theorem IsOutcome.coherent (hg : ctx.grammar.WellFormed) (h : IsOutcome ctx alg a) :
    a.Coherent ctx := by
  cases alg
  case lr0 | lr1         => exact (h.left.follows hg).coherent hg
  case lalrByMerging     => exact (Merged.follows hg h).coherent hg
  case lalrByPropagation => exact (Propagated.follows hg h).coherent hg

theorem IsOutcome.foresees (hg : ctx.grammar.WellFormed) (h : IsOutcome ctx alg a) :
    a.Foresees ctx := by
  cases alg
  case lr0               => exact (h.left.follows hg).foresees_lr0 hg h.left.algorithm
  case lr1               => exact (h.left.unites hg).foresees hg
  case lalrByMerging     => exact (Merged.unites hg h).foresees hg
  case lalrByPropagation => exact Propagated.foresees hg h

-- The transitions of the automaton follow the exploration of the collection.
theorem isReachable_of_targetIn {ctx : Context} {kind : ItemKind} {τ : StateId → StateId}
    {a : Automaton} {q : StateId} (hg : ctx.grammar.WellFormed) (hs : τ .start = .start)
    (ht : ∀ p : StateId, p.number < (collection ctx kind).length →
      ∀ x ∈ nextSymbols ctx.grammar ((closureIn ctx kind p).map Item.core),
        a.transition? (τ p) x = some (τ <| targetIn ctx kind p x))
    (hq : q.number < (collection ctx kind).length) : a.IsReachable (τ q) := by
  refine forall_of_targetIn (P := fun q => a.IsReachable (τ q)) hg ?_ (fun p hp hi x hx => ?_) hq
  case refine_1 =>
    rw [hs]
    exact .refl
  case refine_2 => exact hi.tail ⟨x, ht p hp x hx⟩

theorem IsOutcome.isReachable (hg : ctx.grammar.WellFormed) (h : IsOutcome ctx alg a)
    (hq : q ∈ a.liveStates) : a.IsReachable q := by
  have hfollows {kind} (hf : a.Follows ctx kind id) : a.IsReachable q := by
    obtain ⟨n, hn⟩ := mem_liveStates.mp hq
    refine isReachable_of_targetIn hg (τ := id) rfl (fun p hp x hx => ?_) (hf.lt hn)
    obtain ⟨m, hm⟩ := mem_liveStates.mp <| hf.live hp
    exact (hf.transition?_eq hm).trans <| if_pos hx
  cases alg
  case lr0 | lr1         => exact hfollows <| h.left.follows hg
  case lalrByPropagation => exact hfollows <| Propagated.follows hg h
  case lalrByMerging     =>
    have hunites := Merged.unites hg h
    obtain ⟨n, hn⟩ := mem_liveStates.mp hq
    obtain ⟨m, hm⟩ := mem_liveStates.mp hunites.follows.start
    rw [← hunites.fixed hn]
    exact isReachable_of_targetIn hg (hunites.fixed hm)
      (fun p hp x hx => (hunites.transition?_eq hg hp).trans <| if_pos hx) (hunites.follows.lt hn)

end Outcomes
end ShiftReduce
