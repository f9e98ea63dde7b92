import ShiftReduce.Automaton.Canonical
import ShiftReduce.Proofs.Closure.Completion

namespace ShiftReduce

open Exploration

-- The symbols after the dots, in the order of their first occurrences.
def nextSymbols (g : Grammar) (cores : List Core) : List Symbol :=
  firsts id (cores.filterMap (·.next? g))

def kernelOver (g : Grammar) (x : Symbol) (closure : List Item) : List Item :=
  (closure.filter (·.core.next? g = some x)).map Item.advance

-- Of several rules that ask for a transition, the first one that no later one outranks.
def bestRule (g : Grammar) : List RuleId → RuleId
  | []      => .accept
  | r :: rs => rs.foldl (fun s r => if (g.rule r).Outranks (g.rule s) then r else s) r

def ruleOver (g : Grammar) (x : Symbol) (cores : List Core) : RuleId :=
  bestRule g <| (cores.filter (·.next? g = some x)).map Core.rule

def successorOver (g : Grammar) (closure : List Item) (x : Symbol) : Successor where
  symbol := x
  kernel := kernelOver g x closure
  rule   := ruleOver g x (closure.map Item.core)

variable {ctx : Context} {g : Grammar} {kind : ItemKind} {kernel closure : List Item}
  {symbols : List Symbol} {cores : List Core} {i j : Item} {c d : Core} {x y : Symbol}
  {t : Terminal}

theorem mem_nextSymbols : x ∈ nextSymbols g cores ↔ ∃ c ∈ cores, c.next? g = some x := by
  simp [nextSymbols, mem_firsts_id]

theorem nodup_nextSymbols : (nextSymbols g cores).Nodup := by
  have : ((firsts id (cores.filterMap (·.next? g))).map id).Nodup := nodup_firsts
  rwa [List.map_id] at this

theorem mem_kernelOver : i ∈ kernelOver g x closure ↔
    ∃ j ∈ closure, j.next? g = some x ∧ j.advance = i := by
  simp [kernelOver, and_assoc, Item.next?]

theorem kernelOver_eq_nil_iff :
    kernelOver g x closure = [] ↔ x ∉ nextSymbols g (closure.map Item.core) := by
  simp [kernelOver, mem_nextSymbols]

theorem map_core_kernelOver : (kernelOver g x closure).map Item.core =
    ((closure.map Item.core).filter (·.next? g = some x)).map Core.advance := by
  simp [kernelOver, List.filter_map, Function.comp_def, Item.advance]

section OfClosure

theorem bestRule_append_singleton {rs : List RuleId} {r : RuleId} (h : rs ≠ []) :
    bestRule g (rs ++ [r]) =
      if (g.rule r).Outranks (g.rule (bestRule g rs)) then r else bestRule g rs := by
  cases rs
  case nil       => contradiction
  case cons s rs => exact List.foldl_append

theorem bestRule_mem {rs : List RuleId} (h : rs ≠ []) : bestRule g rs ∈ rs := by
  induction rs using List.reverseRecOn
  case nil => contradiction
  case append_singleton rs r hi =>
    cases hrs : rs
    case nil       => exact .head _
    case cons s ss =>
      rw [← hrs, bestRule_append_singleton <| hrs ▸ List.cons_ne_nil s ss]
      split
      case isTrue  => exact List.mem_append_right _ <| .head _
      case isFalse => exact List.mem_append_left _ <| hi <| hrs ▸ List.cons_ne_nil s ss

theorem not_outranks_bestRule {rs : List RuleId} :
    ∀ s ∈ rs, ¬ (g.rule s).Outranks (g.rule <| bestRule g rs) := by
  induction rs using List.reverseRecOn
  case nil => exact List.forall_mem_nil _
  case append_singleton rs r hi =>
    by_cases hrs : rs = []
    case pos => simp [hrs, bestRule, Rule.Outranks.irrefl]
    case neg =>
      rw [bestRule_append_singleton hrs]
      intro s hs
      cases List.mem_append.mp hs
      case inl hs =>
        split
        -- What outranks the new best rule outranks the old one as well.
        case isTrue hr => exact fun hsr => hi s hs <| hsr.trans hr
        case isFalse   => exact hi s hs
      case inr hs =>
        cases List.mem_singleton.mp hs
        split
        case isTrue     => exact Rule.Outranks.irrefl _
        case isFalse hr => exact hr

theorem successorOver_append_of_ne (h : i.next? g ≠ some x) :
    successorOver g (closure ++ [i]) x = successorOver g closure x := by
  have hc : i.core.next? g ≠ some x := h
  simp [successorOver, kernelOver, ruleOver, hc]

theorem successorOver_append_of_not_mem (h : i.next? g = some x)
    (hx : x ∉ nextSymbols g (closure.map Item.core)) :
    successorOver g (closure ++ [i]) x = ⟨x, [i.advance], i.rule⟩ := by
  have hc : i.core.next? g = some x := h
  have hnil := kernelOver_eq_nil_iff.mpr hx
  have hrules : (closure.map Item.core).filter (·.next? g = some x) = [] := by
    have : (kernelOver g x closure).map Item.core = _ := map_core_kernelOver
    simpa [hnil] using this.symm
  simp only [kernelOver, List.map_eq_nil_iff] at hnil
  simp only [successorOver, kernelOver, ruleOver, List.map_append, List.filter_append, hnil, hrules]
  simp [hc, bestRule, Item.rule]

theorem successorOver_append_of_mem (h : i.next? g = some x)
    (hx : x ∈ nextSymbols g (closure.map Item.core)) :
    successorOver g (closure ++ [i]) x =
      { successorOver g closure x with
        kernel := (successorOver g closure x).kernel ++ [i.advance]
        rule   := if (g.rule i.rule).Outranks (g.rule (successorOver g closure x).rule)
          then i.rule else (successorOver g closure x).rule } := by
  have hc : i.core.next? g = some x := h
  have hne : ((closure.map Item.core).filter (·.next? g = some x)).map Core.rule ≠ [] := by
    obtain ⟨d, hd, hdx⟩ := mem_nextSymbols.mp hx
    refine List.ne_nil_of_mem (a := d.rule) <| List.mem_map_of_mem ?_
    exact List.mem_filter.mpr ⟨hd, by simpa using hdx⟩
  simp only [successorOver, kernelOver, ruleOver, List.map_append, List.filter_append,
    List.map_cons, List.map_nil, List.filter_cons, hc, decide_true, if_true, List.filter_nil,
    bestRule_append_singleton hne]
  rfl

-- The insertion of an item changes the successor for its symbol only.
theorem insert_map (h : i.next? g = some x) (hs : symbols.Nodup)
    (hmem : ∀ y ∈ symbols, y ∈ nextSymbols g (closure.map Item.core)) (hx : x ∈ symbols) :
    Successor.insert g x i (symbols.map (successorOver g closure)) =
      symbols.map (successorOver g (closure ++ [i])) := by
  induction symbols
  case nil => contradiction
  case cons y symbols hi =>
    rw [List.map_cons, List.map_cons, Successor.insert]
    by_cases hyx : y = x
    case pos =>
      subst hyx
      have hrest : ∀ z ∈ symbols,
          successorOver g (closure ++ [i]) z = successorOver g closure z := by
        intro z hz
        refine successorOver_append_of_ne fun he => ?_
        cases h.symm.trans he
        exact (List.nodup_cons.mp hs).left hz
      rw [List.map_congr_left hrest, successorOver_append_of_mem h (hmem y <| .head _)]
      exact if_pos rfl
    case neg =>
      have hne : i.next? g ≠ some y := by simpa [h] using Ne.symm hyx
      have hx := List.mem_cons.mp hx |>.resolve_left (Ne.symm hyx)
      rw [successorOver_append_of_ne hne,
        ← hi (List.nodup_cons.mp hs).right (fun z hz => hmem z <| .tail _ hz) hx]
      exact if_neg hyx

theorem insert_map_of_not_mem (h : i.next? g = some x) (hx : x ∉ symbols) :
    Successor.insert g x i (symbols.map (successorOver g closure)) =
      symbols.map (successorOver g (closure ++ [i])) ++ [⟨x, [i.advance], i.rule⟩] := by
  induction symbols
  case nil => rfl
  case cons y symbols hi =>
    obtain ⟨hyx, hx⟩ := not_or.mp <| mt List.mem_cons.mpr hx
    have hne : i.next? g ≠ some y := by simpa [h] using hyx
    rw [List.map_cons, List.map_cons, Successor.insert, successorOver_append_of_ne hne, hi hx]
    exact if_neg (Ne.symm hyx)

theorem ofClosure_eq : Successor.ofClosure g closure =
    (nextSymbols g (closure.map Item.core)).map (successorOver g closure) := by
  induction closure using List.reverseRecOn
  case nil => rfl
  case append_singleton closure i hi =>
    simp only [Successor.ofClosure, List.foldl_append, List.foldl_cons, List.foldl_nil] at hi ⊢
    rw [hi]
    split
    case h_1 x hx =>
      have hc : i.core.next? g = some x := hx
      have hsymbols : nextSymbols g ((closure ++ [i]).map Item.core) =
          insertNew id (nextSymbols g (closure.map Item.core)) x := by
        simp only [nextSymbols, List.map_append, List.filterMap_append, firsts_append]
        simp [hc, insertAllNew]
      rw [hsymbols, insertNew]
      split
      case isTrue hm =>
        exact insert_map hx nodup_nextSymbols (fun _ => id) <| by simpa using hm
      case isFalse hm =>
        have hm : x ∉ nextSymbols g (closure.map Item.core) := by simpa using hm
        rw [insert_map_of_not_mem hx hm, List.map_append, List.map_singleton,
          successorOver_append_of_not_mem hx hm]
    case h_2 hx =>
      have hc : i.core.next? g = none := hx
      have hsymbols : nextSymbols g ((closure ++ [i]).map Item.core) =
          nextSymbols g (closure.map Item.core) := by
        simp [nextSymbols, List.filterMap_append, hc]
      rw [hsymbols]
      refine List.map_congr_left fun y _ => ?_
      exact (successorOver_append_of_ne <| by simp [hx]).symm

end OfClosure

theorem Core.advance_injective : Function.Injective Core.advance := by
  rintro ⟨r, m⟩ ⟨r', m'⟩ h
  simpa [Core.advance] using h

theorem Core.next?_isSome {x : Symbol} (h : c.next? g = some x) :
    c.dot < (g.right c.rule).length :=
  (List.getElem?_eq_some_iff.mp h).choose

theorem covers_kernelOver : Covers (kernelOver g x closure) c t ↔
    ∃ d, d.next? g = some x ∧ d.advance = c ∧ Covers closure d t := by
  constructor
  case mp =>
    rintro ⟨i, hi, hc, ht⟩
    obtain ⟨j, hj, hx, hji⟩ := mem_kernelOver.mp hi
    subst hji
    exact ⟨j.core, hx, hc, j, hj, rfl, ht⟩
  case mpr =>
    rintro ⟨d, hx, hc, j, hj, hd, ht⟩
    subst hd hc
    exact ⟨j.advance, mem_kernelOver.mpr ⟨j, hj, hx, rfl⟩, rfl, ht⟩

-- The successors of a complete closure have kernels.
theorem Completes.isKernel_kernelOver (hg : ctx.grammar.WellFormed)
    (h : Completes ctx kind kernel closure) (k : IsKernel ctx.grammar kind kernel)
    (hx : x ∈ nextSymbols ctx.grammar (closure.map Item.core)) :
    IsKernel ctx.grammar kind (kernelOver ctx.grammar x closure) where
  ne_nil    := fun he => kernelOver_eq_nil_iff.mp he hx
  nodup     := by
    rw [map_core_kernelOver]
    exact ((h.nodup k.nodup).filter _).map Core.advance_injective
  kinds i hi := by
    obtain ⟨j, hj, _, hji⟩ := mem_kernelOver.mp hi
    exact hji ▸ h.kinds j hj
  rules i hi := by
    obtain ⟨j, hj, _, hji⟩ := mem_kernelOver.mp hi
    have hj := h.rules k hj
    exact hji ▸ hj
  dots i hi := by
    obtain ⟨j, _, hx, hji⟩ := mem_kernelOver.mp hi
    exact hji ▸ Core.next?_isSome hx
  free i hi hdot := by
    obtain ⟨j, _, _, hji⟩ := mem_kernelOver.mp hi
    simp [← hji, Item.advance, Core.advance] at hdot
  terminals c t hc := by
    obtain ⟨_, _, _, i, hi, _, ht⟩ := covers_kernelOver.mp hc
    exact h.terminals hg k hi ht

end ShiftReduce
