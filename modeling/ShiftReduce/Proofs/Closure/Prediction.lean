import Mathlib.Data.List.Basic
import ShiftReduce.Item.ItemSet
import ShiftReduce.Proofs.FirstSets

namespace ShiftReduce

-- The cores that the nonterminal after the dot predicts.
def Core.predicted (g : Grammar) (c : Core) : List Core :=
  match c.next? g with
  | some (.nonterminal n) => (g.rulesOf n).map (⟨·, 0⟩)
  | _                     => []

-- Some item with this core has the lookahead.
def Covers (items : List Item) (c : Core) (t : Terminal) : Prop :=
  ∃ i ∈ items, i.core = c ∧ t ∈ i.lookaheadSet

-- The least family that contains the cores and is closed under prediction, in whichever order a
-- closure is computed.
inductive Predicted (g : Grammar) (cores : List Core) : Core → Prop
  | start {c} : c ∈ cores → Predicted g cores c
  | step {c d} : Predicted g cores c → d ∈ c.predicted g → Predicted g cores d

-- The lookahead is one of the kernel's, it begins what follows the predicting nonterminal, or it is
-- passed on over a nullable rest.
inductive LooksAhead (ctx : Context) (kernel : List Item) : Core → Terminal → Prop
  | kernel {c t} : Covers kernel c t → LooksAhead ctx kernel c t
  | generated {c d t} :
    Predicted ctx.grammar (kernel.map Item.core) c → d ∈ c.predicted ctx.grammar →
    t ∈ ctx.first.ofSeq (c.afterNext ctx.grammar) ∅ → LooksAhead ctx kernel d t
  | passed {c d t} :
    LooksAhead ctx kernel c t → d ∈ c.predicted ctx.grammar →
    ctx.first.NullableSeq (c.afterNext ctx.grammar) → LooksAhead ctx kernel d t

variable {g : Grammar} {ctx : Context} {c d : Core} {cs ds : List Core} {xs ys kernel : List Item}
  {i : Item} {t : Terminal} {k : Core}

section Cores

theorem next?_of_drop {y : Symbol} {ss : List Symbol} (h : (g.right c.rule).drop c.dot = y :: ss) :
    c.next? g = some y ∧ c.afterNext g = ss := by
  constructor
  case left =>
    rw [Core.next?, ← List.head?_drop, h]
    rfl
  case right =>
    rw [Core.afterNext, ← List.tail_drop, h]
    rfl

theorem drop_of_next? {y : Symbol} (h : c.next? g = some y) :
    (g.right c.rule).drop c.dot = y :: c.afterNext g := by
  obtain ⟨hlt, hy⟩ := List.getElem?_eq_some_iff.mp h
  rw [List.drop_eq_getElem_cons hlt, hy]
  rfl

theorem mem_predicted : d ∈ c.predicted g ↔
    d.dot = 0 ∧ (g.rule? d.rule).isSome ∧ c.next? g = some (.nonterminal (g.left d.rule)) := by
  obtain ⟨r, m⟩ := d
  unfold Core.predicted
  split
  case h_1 n hn =>
    simp only [List.mem_map, Grammar.mem_rulesOf, hn, Core.mk.injEq, Option.some.injEq,
      Symbol.nonterminal.injEq]
    constructor
    case mp =>
      rintro ⟨r, ⟨hr, hleft⟩, rfl, rfl⟩
      exact ⟨rfl, hr, hleft.symm⟩
    case mpr => exact fun ⟨hm, hr, hleft⟩ => ⟨r, ⟨hr, hleft.symm⟩, rfl, hm.symm⟩
  case h_2 hn => exact iff_of_false List.not_mem_nil fun h => hn _ h.right.right

-- The accept rule is never predicted.
theorem rule_ne_accept_of_mem_predicted (h : g.WellFormed) (hd : d ∈ c.predicted g) :
    d.rule ≠ .accept := by
  intro he
  obtain ⟨_, _, hnext⟩ := mem_predicted.mp hd
  rw [he, h.left_accept] at hnext
  exact h.accept_not_mem_right <| List.mem_of_getElem? hnext

theorem predictions_eq : i.predictions ctx =
    (i.core.predicted ctx.grammar).map
      (⟨·, i.lookaheads.map (ctx.first.ofSeq (i.core.afterNext ctx.grammar))⟩) := by
  simp only [Item.predictions, Core.predicted, Item.next?]
  split <;> simp_all

theorem map_core_predictions :
    (i.predictions ctx).map Item.core = i.core.predicted ctx.grammar := by
  simp [predictions_eq, Function.comp_def]

theorem Predicted.mono (h : ∀ c ∈ cs, Predicted g ds c) (p : Predicted g cs c) :
    Predicted g ds c := by
  induction p
  case start hc => exact h _ hc
  case step hd hi => exact .step hi hd

theorem Predicted.subset (h : cs ⊆ ds) : Predicted g cs c → Predicted g ds c :=
  mono fun _ hc => .start <| h hc

theorem Predicted.exists_mem (p : Predicted g cs c) : ∃ d ∈ cs, Predicted g [d] c := by
  induction p
  case start hc => exact ⟨_, hc, .start <| .head _⟩
  case step hd hi =>
    obtain ⟨b, hb, hp⟩ := hi
    exact ⟨b, hb, .step hp hd⟩

-- A predicted core is in the start or has its dot in front.
theorem Predicted.mem_or_dot_eq_zero (p : Predicted g cs c) :
    c ∈ cs ∨ (c.dot = 0 ∧
      ∃ d, Predicted g cs d ∧ d.next? g = some (.nonterminal (g.left c.rule))) := by
  cases p
  case start hc => exact .inl hc
  case step d hp hd =>
    have hd := mem_predicted.mp hd
    exact .inr ⟨hd.left, d, hp, hd.right.right⟩

-- Predicted cores are cores of the grammar if those in the start are.
theorem Predicted.isSome_rule? (p : Predicted g cs c) (h : ∀ d ∈ cs, (g.rule? d.rule).isSome) :
    (g.rule? c.rule).isSome := by
  cases p
  case start hc => exact h c hc
  case step hd  => exact (mem_predicted.mp hd).right.left

theorem Predicted.dot_le (p : Predicted g cs c)
    (h : ∀ d ∈ cs, d.dot ≤ (g.right d.rule).length) : c.dot ≤ (g.right c.rule).length := by
  cases p
  case start hc => exact h c hc
  case step hd  => exact (mem_predicted.mp hd).left ▸ Nat.zero_le _

end Cores

section Coverage

theorem Covers.mem_map_core (h : Covers xs c t) : c ∈ xs.map Item.core := by
  obtain ⟨i, hi, hc, _⟩ := h
  exact hc ▸ List.mem_map_of_mem hi

theorem covers_append : Covers (xs ++ ys) c t ↔ Covers xs c t ∨ Covers ys c t := by
  simp [Covers, or_and_right, exists_or]

theorem covers_cons : Covers (i :: xs) c t ↔ (i.core = c ∧ t ∈ i.lookaheadSet) ∨ Covers xs c t := by
  simp [Covers]

@[simp]
theorem not_covers_nil : ¬ Covers [] c t := by
  simp [Covers]

theorem covers_singleton : Covers [i] c t ↔ i.core = c ∧ t ∈ i.lookaheadSet := by
  simp [Covers]

theorem Covers.subset (h : xs ⊆ ys) : Covers xs c t → Covers ys c t :=
  fun ⟨i, hi, hc⟩ => ⟨i, h hi, hc⟩

end Coverage

theorem Context.mem_inputTerminals_of_mem_ofSeq (h : ctx.grammar.WellFormed)
    (ht : t ∈ ctx.first.ofSeq (c.afterNext ctx.grammar) ∅) :
    t ∈ ctx.grammar.vocabulary.inputTerminals := by
  refine FirstSets.ofSeq_forall ?_ ?_ ?_ _ ht
  · exact fun u hu => h.mem_inputTerminals_of_mem_right (List.mem_of_mem_drop hu)
  · exact fun n u hu => ctx.mem_inputTerminals_of_mem_first h hu
  · simp

namespace LooksAhead

-- A lookahead goes back to a single kernel item.
theorem exists_singleton (l : LooksAhead ctx kernel c t) :
    ∃ i ∈ kernel, LooksAhead ctx [i] c t := by
  induction l
  case kernel hk =>
    obtain ⟨i, hi, hc⟩ := hk
    exact ⟨i, hi, .kernel ⟨i, .head _, hc⟩⟩
  case generated hp hd ht =>
    obtain ⟨b, hb, hpb⟩ := hp.exists_mem
    obtain ⟨i, hi, hib⟩ := List.mem_map.mp hb
    have hpi : Predicted ctx.grammar [i.core] _ := hib ▸ hpb
    exact ⟨i, hi, .generated hpi hd ht⟩
  case passed hd hn hi =>
    obtain ⟨i, hik, hl⟩ := hi
    exact ⟨i, hik, .passed hl hd hn⟩

theorem mono (hcores : xs.map Item.core ⊆ ys.map Item.core)
    (hcovers : ∀ c t, Covers xs c t → Covers ys c t) (l : LooksAhead ctx xs c t) :
    LooksAhead ctx ys c t := by
  induction l
  case kernel hk          => exact .kernel <| hcovers _ _ hk
  case generated hp hd ht => exact .generated (hp.subset hcores) hd ht
  case passed hd hn hi    => exact .passed hi hd hn

-- Whatever holds of the lookaheads of the kernel and of the terminals of the grammar holds of all.
theorem forall_of_kernel {P : Terminal → Prop} (h : ctx.grammar.WellFormed)
    (hg : ∀ t ∈ ctx.grammar.vocabulary.inputTerminals, P t)
    (hk : ∀ c t, Covers kernel c t → P t) (l : LooksAhead ctx kernel c t) : P t := by
  induction l
  case kernel hc => exact hk _ _ hc
  case generated ht => exact hg _ <| ctx.mem_inputTerminals_of_mem_ofSeq h ht
  case passed hi => exact hi

theorem marker_not_mem_ofSeq (h : ctx.grammar.WellFormed) :
    .marker ∉ ctx.first.ofSeq (c.afterNext ctx.grammar) ∅ :=
  fun hm => (Vocabulary.mem_inputTerminals.mp <| ctx.mem_inputTerminals_of_mem_ofSeq h hm).right rfl

theorem replace_marker (h : ctx.grammar.WellFormed) {lookaheads : TerminalSet}
    (ht : t ∈ lookaheads) (l : LooksAhead ctx [⟨k, some {.marker}⟩] c .marker) :
    LooksAhead ctx [⟨k, some lookaheads⟩] c t := by
  suffices hall : ∀ c u, LooksAhead ctx [⟨k, some {.marker}⟩] c u → u = .marker →
      LooksAhead ctx [⟨k, some lookaheads⟩] c t from hall _ _ l rfl
  intro c u l hu
  induction l
  case kernel hk => exact .kernel <| covers_singleton.mpr ⟨(covers_singleton.mp hk).left, ht⟩
  case generated hg => exact absurd (hu ▸ hg) <| marker_not_mem_ofSeq h
  case passed hd hn hi => exact .passed (hi hu) hd hn

end LooksAhead

-- The closure of a kernel item whose only lookahead is the marker tells the closure of the item
-- with any other lookaheads: a lookahead is generated on the way, or the item passes its own on.
theorem looksAhead_iff_marked (h : ctx.grammar.WellFormed) {lookaheads : TerminalSet}
    (hm : t ≠ .marker) : LooksAhead ctx [⟨k, some lookaheads⟩] c t ↔
      LooksAhead ctx [⟨k, some {.marker}⟩] c t ∨
        (t ∈ lookaheads ∧ LooksAhead ctx [⟨k, some {.marker}⟩] c .marker) := by
  constructor
  case mp =>
    intro l
    induction l
    case kernel hk =>
      obtain ⟨hc, ht⟩ := covers_singleton.mp hk
      exact .inr ⟨ht, .kernel <| covers_singleton.mpr ⟨hc, TerminalSet.mem_singleton.mpr rfl⟩⟩
    case generated hp hd ht => exact .inl <| .generated hp hd ht
    case passed hd hn hi => exact (hi hm).imp (.passed · hd hn) (.imp_right (.passed · hd hn))
  case mpr =>
    intro hl
    cases hl
    case inl l =>
      induction l
      case kernel hk =>
        exact absurd (TerminalSet.mem_singleton.mp (covers_singleton.mp hk).right) hm
      case generated hp hd ht => exact .generated hp hd ht
      case passed hd hn hi => exact .passed (hi hm) hd hn
    case inr hl =>
      obtain ⟨ht, l⟩ := hl
      exact l.replace_marker h ht

end ShiftReduce
