import ShiftReduce.Proofs.Lalr.Kernels

namespace ShiftReduce

open Exploration Automaton

variable {ctx : Context} {a b c : Automaton} {source target r x y : KernelRef} {q : StateId}
  {k d : Core} {t : Terminal} {items : List Item} {item : Item} {symbol : Symbol}
  {effects effects' : List (KernelRef × List KernelRef)} {s s' : Survey} {g : Grammar}

section Links

theorem hasLink_cons {e : KernelRef × List KernelRef} :
    HasLink (e :: effects) x y ↔ (x = e.1 ∧ y ∈ e.2) ∨ HasLink effects x y := by
  simp only [HasLink, List.mem_cons, or_and_right, exists_or]
  refine or_congr_left ⟨fun ⟨_, he, hy⟩ => ?_, fun ⟨hx, hy⟩ => ⟨e.2, by rw [hx], hy⟩⟩
  subst he
  exact ⟨rfl, hy⟩

theorem hasLink_extendEffect (h : ∃ targets, (source, targets) ∈ effects) :
    HasLink (extendEffect source target effects) x y ↔
      HasLink effects x y ∨ (x = source ∧ y = target) := by
  induction effects
  case nil =>
    obtain ⟨_, h⟩ := h
    contradiction
  case cons e effects hi =>
    rw [extendEffect]
    split
    case isTrue he =>
      simp only [hasLink_cons, List.mem_cons, he]
      grind
    case isFalse hne =>
      obtain ⟨targets, hm⟩ := h
      have hm := (List.mem_cons.mp hm).resolve_left fun he => hne <| by rw [← he]
      simp only [hasLink_cons, hi ⟨targets, hm⟩, or_assoc]

theorem hasLink_insertLink? (h : insertLink? source target effects = some effects') :
    HasLink effects' x y ↔ HasLink effects x y ∨ (x = source ∧ y = target) := by
  rw [insertLink?] at h
  split at h
  case h_1 =>
    cases h
    simp only [hasLink_cons, List.mem_singleton]
    exact or_comm
  case h_2 e targets he =>
    split at h
    case isTrue => contradiction
    case isFalse =>
      cases h
      have hm := List.mem_of_find?_eq_some he
      have hs : e = source := by simpa using List.find?_some he
      exact hasLink_extendEffect ⟨targets, hs ▸ hm⟩

theorem hasLink_of_insertLink?_eq_none (h : insertLink? source target effects = none) :
    HasLink effects source target := by
  rw [insertLink?] at h
  split at h
  case h_1 => contradiction
  case h_2 e targets he =>
    split at h
    case isFalse => contradiction
    case isTrue ht =>
      have hm := List.mem_of_find?_eq_some he
      have hs : e = source := by simpa using List.find?_some he
      exact ⟨targets, hs ▸ hm, ht⟩

theorem hasLink_link : HasLink (s.link source target).automaton.effects x y ↔
    HasLink s.automaton.effects x y ∨ (x = source ∧ y = target) := by
  rw [Survey.link]
  split
  case h_1 hnone =>
    refine ⟨.inl, fun h => h.elim id fun ⟨hx, hy⟩ => ?_⟩
    rw [hx, hy]
    exact hasLink_of_insertLink?_eq_none hnone
  case h_2 hsome => exact hasLink_insertLink? hsome

theorem nodes_link : (s.link source target).automaton.nodes = s.automaton.nodes := by
  rw [Survey.link]
  split <;> rfl

theorem generated_link : (s.link source target).generated = s.generated := by
  rw [Survey.link]
  split <;> rfl

end Links

namespace Automaton.Survey

theorem destination?_lt (h : destination? g a q item = .ok (some r)) :
    r.index < (a.kernelItems r.state).length := by
  unfold destination? at h
  split at h
  case h_1 => cases h
  case h_2 symbol _ =>
    split at h
    case h_1 => cases h
    case h_2 target _ =>
      obtain ⟨n, hn, h⟩ := exists_of_bind_eq_ok h
      split at h
      case h_1 => cases h
      case h_2 j hj =>
        cases h
        have hget := (node?_eq_some_iff.mp <| node_eq_ok_iff.mp hn).left
        have hlt := (List.findIdx?_eq_some_iff_getElem.mp hj).choose
        simpa [kernelItems, hget] using hlt

-- What links and gains keep holds of what a survey comes to.
theorem take_induction {P : Survey → Prop}
    (hlink : ∀ {s source target}, P s → P (s.link source target))
    (hgenerate : ∀ {s target}, target.index < (s.automaton.kernelItems target.state).length →
      P s → P (s.generate target (item.lookaheadSet.erase .marker)))
    (h : P s) (hs : s.take g source item = .ok s') : P s' := by
  obtain ⟨r?, hd, hs⟩ := exists_of_bind_eq_ok hs
  cases r?
  case none => exact Except.ok.inj hs ▸ h
  case some r =>
    cases Except.ok.inj hs
    have hlinked : ∃ s₁, P s₁ ∧ s₁.automaton.nodes = s.automaton.nodes ∧
        (if .marker ∈ item.lookaheadSet then s.link source r else s) = s₁ := by
      split
      · exact ⟨_, hlink h, nodes_link, rfl⟩
      · exact ⟨_, h, rfl, rfl⟩
    obtain ⟨s₁, h₁, hnodes, hs₁⟩ := hlinked
    rw [hs₁]
    split
    case isTrue  => exact h₁
    case isFalse =>
      refine hgenerate ?_ h₁
      rw [kernelItems, hnodes]
      exact destination?_lt hd

theorem takeAll_induction {P : Survey → Prop}
    (hlink : ∀ {s source target}, P s → P (s.link source target))
    (hgenerate : ∀ item ∈ items, ∀ {s target},
      target.index < (s.automaton.kernelItems target.state).length →
      P s → P (s.generate target (item.lookaheadSet.erase .marker)))
    (h : P s) : P (s.takeAll g source items).1 := by
  induction items generalizing s
  case nil => exact h
  case cons i items hi =>
    rw [Survey.takeAll]
    split
    case h_1 => exact h
    case h_2 hs =>
      refine hi (fun j hj => hgenerate j <| .tail _ hj) ?_
      exact take_induction hlink (hgenerate i <| .head _) h hs

theorem kernel_induction {P : Survey → Prop} {index : Nat} {cores : List Core}
    (hlink : ∀ {s source target}, P s → P (s.link source target))
    (hgenerate : ∀ {c items}, probe ctx c = .ok items → ∀ item ∈ items, ∀ {s target},
      target.index < (s.automaton.kernelItems target.state).length →
      P s → P (s.generate target (item.lookaheadSet.erase .marker)))
    (h : P s) : P (s.kernel ctx q index cores).1 := by
  induction cores generalizing s index
  case nil => exact h
  case cons c cores hi =>
    rw [Survey.kernel]
    split
    case h_1 => exact h
    case h_2 items hprobe =>
      have htaken : P (s.takeAll ctx.grammar ⟨q, index⟩ items).1 :=
        takeAll_induction hlink (hgenerate hprobe) h
      generalize s.takeAll ctx.grammar ⟨q, index⟩ items = taken at htaken
      obtain ⟨s', result⟩ := taken
      cases result
      case error => exact htaken
      case ok    => exact hi htaken

end Automaton.Survey

-- The second automaton is at the same point as the first one and knows at least as much.
structure Advances (a b : Automaton) : Prop where
  pointer : b.pointer = a.pointer
  phase   : b.phase = a.phase
  covers  : ∀ q c t, Covers (a.kernelItems q) c t → Covers (b.kernelItems q) c t
  links   : ∀ s t, HasLink a.effects s t → HasLink b.effects s t

namespace Advances

theorem refl : Advances a a :=
  ⟨rfl, rfl, fun _ _ _ => id, fun _ _ => id⟩

theorem trans (h : Advances a b) (h' : Advances b c) : Advances a c where
  pointer      := h'.pointer.trans h.pointer
  phase        := h'.phase.trans h.phase
  covers q k t := h'.covers q k t ∘ h.covers q k t
  links s t    := h'.links s t ∘ h.links s t

theorem gain (h : IsSound ctx a) (hr : IsRef ctx r k) {lookaheads : TerminalSet} :
    Advances a (a.gain r lookaheads) where
  pointer    := rfl
  phase      := rfl
  covers _ _ _ hc := (h.covers_gain hr).mpr <| .inl hc
  links _ _  := id

end Advances

-- What a source knows of an item in the closure has been handed on over the next symbol.
def Delivered (ctx : Context) (a : Automaton) (source : KernelRef) (d : Core) (t : Terminal) :
    Prop :=
  ∀ x, d.next? ctx.grammar = some x →
    if t = .marker then
      ∃ r, HasLink a.effects source r ∧ r.state = targetIn ctx .lr0 source.state x ∧
        IsRef ctx r d.advance
    else Covers (a.kernelItems <| targetIn ctx .lr0 source.state x) d.advance t

theorem Delivered.mono (h : Advances a b) (hd : Delivered ctx a source d t) :
    Delivered ctx b source d t := by
  intro x hx
  have hd := hd x hx
  split
  case isTrue ht =>
    rw [if_pos ht] at hd
    obtain ⟨r, hr, hd⟩ := hd
    exact ⟨r, h.links _ _ hr, hd⟩
  case isFalse ht =>
    rw [if_neg ht] at hd
    exact h.covers _ _ _ hd

namespace IsSound

theorem link (h : IsSound ctx a) (hl : IsLink ctx source target)
    (he : ∀ x y, HasLink b.effects x y ↔ HasLink a.effects x y ∨ (x = source ∧ y = target))
    (hn : b.nodes = a.nodes) (halg : b.algorithm = a.algorithm) : IsSound ctx b := by
  refine h.congr halg (by rw [hn]) (fun q => by rw [kernelItems, hn]; rfl) (fun j n hj => ?_) ?_
  · exact ⟨n, hn ▸ hj, rfl, rfl⟩
  · intro x y hxy
    cases (he x y).mp hxy
    case inl hxy => exact h.links x y hxy
    case inr hxy => exact hxy.left ▸ hxy.right ▸ hl

theorem destination?_eq (hg : ctx.grammar.WellFormed) (h : IsSound ctx a)
    (hq : q.number < (collection ctx .lr0).length)
    (hd : item.core ∈ (closureIn ctx .lr0 q).map Item.core)
    (hx : item.next? ctx.grammar = some symbol) :
    ∃ r, Survey.destination? ctx.grammar a q item = .ok (some r) ∧
      r.state = targetIn ctx .lr0 q symbol ∧ IsRef ctx r item.core.advance := by
  have hsymbol := mem_nextSymbols_closureIn hd hx
  obtain ⟨n, hn, _⟩ := h.getElem?_nodes hq
  have htransition : a.transition? q symbol = some (targetIn ctx .lr0 q symbol) := by
    simp [transition?, edge?, hn, h.edges hn, find?_edgesOf hsymbol]
  obtain ⟨m, hm, hm'⟩ := h.getElem?_nodes <| targetIn_lt hg hq hsymbol
  have hnode := node_eq_ok_iff.mpr hm'
  have hkernel : a.kernelItems (targetIn ctx .lr0 q symbol) = m.items.kernel := by
    simp [kernelItems, hm]
  have hmem : item.core.advance ∈ m.items.kernel.map Item.core := by
    rw [← hkernel, h.cores]
    exact advance_mem_kernelIn hg hq hd hx
  obtain ⟨j, hj⟩ : ∃ j, m.items.kernel.findIdx? (·.core = item.core.advance) = some j := by
    rw [← Option.isSome_iff_exists, List.findIdx?_isSome]
    simpa using hmem
  refine ⟨⟨targetIn ctx .lr0 q symbol, j⟩, ?_, rfl, ?_⟩
  case refine_1 =>
    simp [Survey.destination?, hx, htransition, hnode, hj, bind, Except.bind, pure, Except.pure]
  case refine_2 =>
    obtain ⟨hlt, hcore, _⟩ := List.findIdx?_eq_some_iff_getElem.mp hj
    rw [IsRef, ← List.getElem?_map, ← h.cores, List.getElem?_map, hkernel,
      List.getElem?_eq_getElem hlt]
    simpa using hcore

theorem advances_link : Advances s.automaton (s.link source target).automaton where
  pointer        := by rw [Survey.link]; split <;> rfl
  phase          := by rw [Survey.link]; split <;> rfl
  covers q c t h := by rwa [kernelItems, nodes_link]
  links _ _ h    := hasLink_link.mpr <| .inl h

theorem algorithm_link : (s.link source target).automaton.algorithm = s.automaton.algorithm := by
  rw [Survey.link]
  split <;> rfl

-- The marker becomes a link.
theorem link_spec (h : IsSound ctx s.automaton) (target : KernelRef) (lookaheads : TerminalSet)
    (hl : .marker ∈ lookaheads → IsLink ctx source target) :
    let s' := if .marker ∈ lookaheads then s.link source target else s
    IsSound ctx s'.automaton ∧ Advances s.automaton s'.automaton ∧
      (.marker ∈ lookaheads → HasLink s'.automaton.effects source target) := by
  intro s'
  by_cases hm : .marker ∈ lookaheads
  case neg =>
    have hs' : s' = s := if_neg hm
    rw [hs']
    exact ⟨h, .refl, fun h => absurd h hm⟩
  case pos =>
    have hs' : s' = s.link source target := if_pos hm
    rw [hs']
    refine ⟨?_, advances_link, fun _ => hasLink_link.mpr <| .inr ⟨rfl, rfl⟩⟩
    exact h.link (hl hm) (fun _ _ => hasLink_link) nodes_link algorithm_link

-- All other lookaheads go to the target.
theorem generate_spec (h : IsSound ctx s.automaton) (hr : IsRef ctx target d)
    (lookaheads : TerminalSet)
    (hl : ∀ t ∈ lookaheads, t ≠ .marker → IsLookahead ctx target.state d t) :
    let rest := lookaheads.erase .marker
    let s' := if rest = ∅ then s else s.generate target rest
    IsSound ctx s'.automaton ∧ Advances s.automaton s'.automaton ∧
      ∀ t ∈ lookaheads, t ≠ .marker → Covers (s'.automaton.kernelItems target.state) d t := by
  intro rest s'
  have hrest (t : Terminal) : t ∈ rest ↔ t ∈ lookaheads ∧ t ≠ .marker := by
    simp [rest, TerminalSet.mem_erase]
  by_cases hempty : rest = ∅
  case pos =>
    have hs' : s' = s := if_pos hempty
    rw [hs']
    refine ⟨h, .refl, fun t ht hne => ?_⟩
    have := (hrest t).mpr ⟨ht, hne⟩
    simp [hempty] at this
  case neg =>
    have hs' : s' = s.generate target rest := if_neg hempty
    rw [hs']
    refine ⟨h.gain hr ?_, .gain h hr, fun t ht hne => ?_⟩
    · exact fun t ht => hl t ((hrest t).mp ht).left ((hrest t).mp ht).right
    · exact (h.covers_gain hr).mpr <| .inr ⟨rfl, rfl, (hrest t).mpr ⟨ht, hne⟩⟩

-- One item of a probe is delivered to its successor.
theorem take_spec (hg : ctx.grammar.WellFormed) (h : IsSound ctx s.automaton)
    (hs : IsRef ctx source k) (hq : source.state.number < (collection ctx .lr0).length)
    (hk : k ∈ (closureIn ctx .lr0 source.state).map Item.core)
    (hd : item.core ∈ (closureIn ctx .lr0 source.state).map Item.core)
    (hl : ∀ t ∈ item.lookaheadSet, LooksAhead ctx [⟨k, some {.marker}⟩] item.core t) :
    ∃ s', s.take ctx.grammar source item = .ok s' ∧ IsSound ctx s'.automaton ∧
      Advances s.automaton s'.automaton ∧
      ∀ t ∈ item.lookaheadSet, Delivered ctx s'.automaton source item.core t := by
  cases hx : item.next? ctx.grammar
  case none =>
    have hx' : item.core.next? ctx.grammar = none := hx
    refine ⟨s, ?_, h, .refl, fun t _ x hx => by simp [hx'] at hx⟩
    simp [Survey.take, Survey.destination?, hx, bind, Except.bind, pure, Except.pure]
  case some symbol =>
    have hx' : item.core.next? ctx.grammar = some symbol := hx
    obtain ⟨r, hr, hstate, href⟩ := h.destination?_eq hg hq hd hx
    obtain ⟨h₁, ha₁, hlinked⟩ := link_spec h r item.lookaheadSet
      fun hm => ⟨k, _, symbol, hs, hl _ hm, hx', hstate, href⟩
    obtain ⟨h₂, ha₂, hcovered⟩ := generate_spec h₁ href item.lookaheadSet
      fun t ht hne => hstate ▸ .shifted (.of_marked hg hq hk hne <| hl t ht) hx'
    refine ⟨_, ?_, h₂, ha₁.trans ha₂, fun t ht x hx => ?_⟩
    · simp [Survey.take, hr, bind, Except.bind, pure, Except.pure]
    · cases hx'.symm.trans hx
      split
      case isTrue hm => exact ⟨r, ha₂.links _ _ <| hlinked (hm ▸ ht), hstate, href⟩
      case isFalse hm => exact hstate ▸ hcovered t ht hm

theorem takeAll_spec (hg : ctx.grammar.WellFormed) (h : IsSound ctx s.automaton)
    (hs : IsRef ctx source k) (hq : source.state.number < (collection ctx .lr0).length)
    (hk : k ∈ (closureIn ctx .lr0 source.state).map Item.core)
    (hd : ∀ i ∈ items, i.core ∈ (closureIn ctx .lr0 source.state).map Item.core)
    (hl : ∀ c t, Covers items c t → LooksAhead ctx [⟨k, some {.marker}⟩] c t) :
    ∃ s', s.takeAll ctx.grammar source items = (s', .ok ()) ∧ IsSound ctx s'.automaton ∧
      Advances s.automaton s'.automaton ∧
      ∀ c t, Covers items c t → Delivered ctx s'.automaton source c t := by
  induction items generalizing s
  case nil => exact ⟨s, rfl, h, .refl, by simp⟩
  case cons i items hi =>
    obtain ⟨hd₁, hd₂⟩ := List.forall_mem_cons.mp hd
    obtain ⟨s₁, htake, h₁, ha₁, hdelivered₁⟩ := h.take_spec hg hs hq hk hd₁ fun t ht =>
      hl _ t <| covers_cons.mpr <| .inl ⟨rfl, ht⟩
    obtain ⟨s₂, htakeAll, h₂, ha₂, hdelivered₂⟩ := hi h₁ hd₂ fun c t hc =>
      hl c t <| covers_cons.mpr <| .inr hc
    refine ⟨s₂, by rw [Survey.takeAll, htake]; exact htakeAll, h₂, ha₁.trans ha₂, fun c t hc => ?_⟩
    cases covers_cons.mp hc
    case inl hc => exact hc.left ▸ (hdelivered₁ t hc.right).mono ha₂
    case inr hc => exact hdelivered₂ c t hc

end IsSound

theorem probe_spec (hg : ctx.grammar.WellFormed) (hr : (ctx.grammar.rule? k.rule).isSome)
    (hd : k.dot ≤ (ctx.grammar.right k.rule).length) :
    ∃ items, Survey.probe ctx k = .ok items ∧
      (∀ i ∈ items, Predicted ctx.grammar [k] i.core) ∧
      ∀ c t, Covers items c t ↔ LooksAhead ctx [⟨k, some {.marker}⟩] c t := by
  obtain ⟨rule, hrule⟩ := Option.isSome_iff_exists.mp hr
  have hmake : Item.make ctx.grammar k.rule k.dot (some {.marker}) =
      .ok ⟨k, some {.marker}⟩ := by
    simp [Item.make, hrule, ← Grammar.right_of_rule? hrule, hd]
  have hkinds : ∀ i ∈ [⟨k, some {.marker}⟩], Item.kind i = .lr1 := by simp [Item.kind]
  obtain ⟨s, steps, hs, cl, hclosed⟩ := computeClosure_ofKernel hg hkinds
  refine ⟨s.closure, ?_, cl.predicted, fun c t => cl.covers_iff_looksAhead hclosed⟩
  simp [Survey.probe, hmake, hs, bind, Except.bind, Except.mapError, pure, Except.pure]

-- The probe of a kernel item finds items that are in the closure of its state.
theorem exists_probe (hg : ctx.grammar.WellFormed) (hs : IsRef ctx source k)
    (hq : source.state.number < (collection ctx .lr0).length) :
    k ∈ (closureIn ctx .lr0 source.state).map Item.core ∧
    ∃ items, Survey.probe ctx k = .ok items ∧
      (∀ i ∈ items, i.core ∈ (closureIn ctx .lr0 source.state).map Item.core) ∧
      ∀ c t, Covers items c t ↔ LooksAhead ctx [⟨k, some {.marker}⟩] c t := by
  have kernel : IsKernel ctx.grammar .lr0 _ := isKernel_kernelIn hg hq
  have hcompletes : Completes ctx .lr0 _ _ := completes_closureIn hg hq
  obtain ⟨i, hi, hik⟩ := Option.map_eq_some_iff.mp hs
  have hmem := List.mem_of_getElem? hi
  have hk : k ∈ (closureIn ctx .lr0 source.state).map Item.core :=
    hik ▸ List.mem_map_of_mem (hcompletes.subset.subset hmem)
  obtain ⟨items, hprobe, hpredicted, hcovers⟩ := probe_spec (k := k) hg
    (hik ▸ kernel.rules i hmem) (hik ▸ kernel.dots i hmem)
  refine ⟨hk, items, hprobe, fun j hj => ?_, hcovers⟩
  refine hcompletes.mem_iff_predicted.mpr <| (hpredicted j hj).mono fun c hc => ?_
  exact hcompletes.mem_iff_predicted.mp <| List.mem_singleton.mp hc ▸ hk

-- The cores are those of the kernel items of a state from some place on.
theorem Survey.kernel_spec (hg : ctx.grammar.WellFormed)
    (hq : q.number < (collection ctx .lr0).length) {index : Nat} {cores : List Core}
    (h : IsSound ctx s.automaton)
    (hcores : ((kernelIn ctx .lr0 q).map Item.core).drop index = cores) :
    ∃ s', s.kernel ctx q index cores = (s', .ok ()) ∧ IsSound ctx s'.automaton ∧
      Advances s.automaton s'.automaton ∧
      ∀ r k, r.state = q → IsRef ctx r k → index ≤ r.index → ∀ d t,
        LooksAhead ctx [⟨k, some {.marker}⟩] d t → Delivered ctx s'.automaton r d t := by
  induction cores generalizing s index
  case nil =>
    refine ⟨s, rfl, h, .refl, fun r k hr href hle => ?_⟩
    subst hr
    have hlt := List.drop_eq_nil_iff.mp hcores
    rw [List.length_map] at hlt
    rw [IsRef, List.getElem?_eq_none (hlt.trans hle)] at href
    contradiction
  case cons k cores hi =>
    have href : IsRef ctx ⟨q, index⟩ k := by
      have := congrArg (·[0]?) hcores
      simpa [IsRef] using this
    have hrest : ((kernelIn ctx .lr0 q).map Item.core).drop (index + 1) = cores := by
      rw [← List.tail_drop, hcores, List.tail_cons]
    obtain ⟨hk, items, hprobe, hclosure, hcovers⟩ := exists_probe hg href hq
    obtain ⟨s₁, htake, h₁, ha₁, hdelivered₁⟩ := h.takeAll_spec hg href hq hk hclosure fun c t =>
      (hcovers c t).mp
    obtain ⟨s₂, hkernel, h₂, ha₂, hdelivered₂⟩ := hi h₁ hrest
    refine ⟨s₂, ?_, h₂, ha₁.trans ha₂, fun r k' hr href' hle d t hl => ?_⟩
    · rw [Survey.kernel, hprobe]
      simp only [htake]
      exact hkernel
    · cases Nat.lt_or_eq_of_le hle
      case inl hlt => exact hdelivered₂ r k' hr href' hlt d t hl
      case inr heq =>
        have hrk : r = ⟨q, index⟩ := by
          cases r
          simp_all
        subst hrk
        cases href.symm.trans href'
        exact (hdelivered₁ d t <| (hcovers d t).mpr hl).mono ha₂

end ShiftReduce
