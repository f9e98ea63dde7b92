import Mathlib.Data.List.Basic
import ShiftReduce.Grammar.Draft

namespace ShiftReduce

namespace Vocabulary

-- Names and symbols determine one another. Only the marker has a name that does not lead to it.
structure IsSound (v : Vocabulary) : Prop where
  terminals_size    : Terminal.firstFree ≤ v.terminals.size
  nonterminals_size : Nonterminal.firstFree ≤ v.nonterminals.size
  name?_endOfInput  : v.name? (.terminal .endOfInput) = some endOfInputName
  symbol?_iff       : ∀ {name : String} {s : Symbol},
    v.symbol? name = some s ↔ v.name? s = some name ∧ s ≠ .terminal .marker

variable {v : Vocabulary} {name : String} {s : Symbol}

theorem symbol?_initial : initial.symbol? name =
    if acceptName = name then some (.nonterminal .accept)
    else if endOfInputName = name then some (.terminal .endOfInput)
    else none := by
  simp [symbol?, initial, Std.TreeMap.getElem?_insert]

theorem initial_isSound : initial.IsSound where
  terminals_size    := by decide
  nonterminals_size := by decide
  name?_endOfInput  := rfl
  symbol?_iff {name s} := by
    have hne : acceptName ≠ endOfInputName := by decide
    rw [symbol?_initial]
    cases s
    case terminal t =>
      obtain ⟨_ | _ | k⟩ := t
      case succ.zero => grind [initial, Terminal.endOfInput, Terminal.marker]
      all_goals grind [initial, name?, Terminal.endOfInput, Terminal.marker]
    case nonterminal n =>
      obtain ⟨_ | k⟩ := n <;> grind [initial, name?, Nonterminal.accept]

namespace IsSound

theorem symbol?_name (h : v.IsSound) (hd : v.Declares s) (hm : s ≠ .terminal .marker) :
    v.symbol? (v.name s) = some s := by
  obtain ⟨name, hn⟩ := Option.isSome_iff_exists.mp (name?_isSome_iff.mpr hd)
  rw [Vocabulary.name, hn]
  exact h.symbol?_iff.mpr ⟨hn, hm⟩

theorem symbol?_of_terminal? {t : Terminal} (ht : v.terminal? name = some t) :
    v.symbol? name = some (.terminal t) ∧ t ≠ .marker := by
  unfold terminal? at ht
  split at ht
  case h_1 u hs =>
    split at ht
    · contradiction
    · cases ht
      exact ⟨hs, ‹_›⟩
  case h_2 => contradiction

theorem name_of_terminal? (h : v.IsSound) {t : Terminal} (ht : v.terminal? name = some t) :
    v.name? (.terminal t) = some name :=
  (h.symbol?_iff.mp (symbol?_of_terminal? ht).left).left

theorem terminal?_endOfInput (h : v.IsSound) :
    v.terminal? endOfInputName = some .endOfInput := by
  have hne : Symbol.terminal .endOfInput ≠ .terminal .marker := by decide
  have hs := h.symbol?_iff.mpr ⟨h.name?_endOfInput, hne⟩
  simp [terminal?, hs, Terminal.endOfInput_ne_marker]

theorem terminal?_name (h : v.IsSound) {t : Terminal} (ht : t ∈ v.inputTerminals) :
    v.terminal? (v.name (.terminal t)) = some t := by
  obtain ⟨hdeclares, hmarker⟩ := mem_inputTerminals.mp ht
  have hs := h.symbol?_name hdeclares (by simpa using hmarker)
  simp [terminal?, hs, hmarker]

theorem name_eq_endOfInputName (h : v.IsSound) (ht : v.terminal? name = some .endOfInput) :
    name = endOfInputName :=
  Option.some.inj <| (h.name_of_terminal? ht).symm.trans h.name?_endOfInput

end IsSound

-- A new name gets a number that nothing else has.
private theorem symbol?_iff_of_push {v' : Vocabulary} (new : Symbol) (h : v.IsSound)
    (hfree : v.symbol? name = none) (hnew : ¬ v.Declares new) (hm : new ≠ .terminal .marker)
    (hname : ∀ s, v'.name? s = if s = new then some name else v.name? s)
    (hsymbol : ∀ x, v'.symbol? x = if name = x then some new else v.symbol? x)
    {x : String} {s : Symbol} :
    v'.symbol? x = some s ↔ v'.name? s = some x ∧ s ≠ .terminal .marker := by
  have hnone : v.name? new = none := by simpa [← name?_isSome_iff] using hnew
  rw [hname, hsymbol]
  have hfree' : v.symbol? name = some s ↔ _ := h.symbol?_iff
  have hx : v.symbol? x = some s ↔ _ := h.symbol?_iff
  by_cases hs : s = new
  case pos => grind
  case neg => grind

theorem declareTerminal_isSound (h : v.IsSound) : (v.declareTerminal name).1.IsSound := by
  unfold declareTerminal
  split
  case h_1 | h_2 => exact h
  case h_3 hfree =>
    simp only
    split
    case isFalse => exact h
    case isTrue =>
      have hsize := h.terminals_size
      have hend : (v.terminals.push name)[0]? = v.terminals[0]? := by
        rw [Array.getElem?_push]
        simp only [Terminal.firstFree] at hsize
        exact if_neg (by omega)
      refine ⟨by simp; omega, h.nonterminals_size, hend.trans h.name?_endOfInput, ?_⟩
      refine symbol?_iff_of_push (.terminal ⟨v.terminals.size⟩) h hfree ?_ ?_ ?_ ?_
      · simp [Declares]
      · simp only [Terminal.firstFree] at hsize
        simp only [Terminal.marker, ne_eq, Symbol.terminal.injEq, Terminal.mk.injEq]
        omega
      · intro s
        cases s
        case terminal t =>
          cases t
          simp [name?, Array.getElem?_push]
        case nonterminal => simp [name?]
      · intro x
        simp [symbol?, Std.TreeMap.getElem?_insert]

theorem declareNonterminal_isSound (h : v.IsSound) : (v.declareNonterminal name).1.IsSound := by
  unfold declareNonterminal
  split
  case h_1 | h_2 => exact h
  case h_3 hfree =>
    simp only
    split
    case isFalse => exact h
    case isTrue =>
      have hsize := h.nonterminals_size
      refine ⟨h.terminals_size, by simp; omega, h.name?_endOfInput, ?_⟩
      refine symbol?_iff_of_push (.nonterminal ⟨v.nonterminals.size⟩) h hfree ?_ ?_ ?_ ?_
      · simp [Declares]
      · simp
      · intro s
        cases s
        case terminal      => simp [name?]
        case nonterminal n =>
          cases n
          simp [name?, Array.getElem?_push]
      · intro x
        simp [symbol?, Std.TreeMap.getElem?_insert]

theorem Declares.declareTerminal (h : v.Declares s) : (v.declareTerminal name).1.Declares s := by
  unfold Vocabulary.declareTerminal
  split <;> simp only <;> try split
  all_goals cases s <;> simp_all [Declares]
  omega

theorem Declares.declareNonterminal (h : v.Declares s) :
    (v.declareNonterminal name).1.Declares s := by
  unfold Vocabulary.declareNonterminal
  split <;> simp only <;> try split
  all_goals cases s <;> simp_all [Declares]
  omega

end Vocabulary

namespace Draft

-- One call on a draft, with its arguments.
inductive Call
  | terminal (name : String)
  | nonterminal (name : String)
  | rule (left : Nonterminal) (right : List Symbol) (priority? : Option Int)
  | ruleWithOrder (left : Nonterminal) (right : List Symbol) (order : Nat) (priority : Int)
  | startSymbol (n : Nonterminal)
  | startSymbolByName (name : String)

-- The draft that a call leaves, whether it succeeds or not.
def Call.apply (d : Draft) : Call → Draft
  | terminal name                           => (d.terminal name).1
  | nonterminal name                        => (d.nonterminal name).1
  | rule left right priority?               => (d.rule left right priority?).1
  | ruleWithOrder left right order priority => (d.ruleWithOrder left right order priority).1
  | startSymbol n                           => d.startSymbol n
  | startSymbolByName name                  => (d.startSymbolByName name).1

def afterCalls (calls : List Call) : Draft :=
  calls.foldl Call.apply .initial

-- A rule that a draft with this vocabulary accepts.
structure Admits (v : Vocabulary) (rule : Rule) : Prop where
  left_ne_accept : rule.left ≠ .accept
  declares_left  : v.Declares (.nonterminal rule.left)
  declares_right : ∀ s ∈ rule.right, v.Declares s
  not_reserved   : ∀ s ∈ rule.right, ¬ s.IsReserved

structure IsSound (d : Draft) : Prop where
  vocabulary : d.vocabulary.IsSound
  rules      : ∀ rule ∈ d.rules, Admits d.vocabulary rule

variable {d : Draft}

theorem initial_isSound : initial.IsSound where
  vocabulary := Vocabulary.initial_isSound
  rules      := by simp [initial]

theorem Admits.mono {v v' : Vocabulary} {rule : Rule} (a : Admits v rule)
    (h : ∀ s, v.Declares s → v'.Declares s) : Admits v' rule where
  left_ne_accept := a.left_ne_accept
  declares_left  := h _ a.declares_left
  declares_right := fun s hs => h s <| a.declares_right s hs
  not_reserved   := a.not_reserved

theorem admits_of_refusal?_eq_none {left : Nonterminal} {right : List Symbol} {order : Nat}
    {priority : Int} (h : d.refusal? left right = none) :
    Admits d.vocabulary ⟨left, right, order, priority⟩ := by
  unfold refusal? at h
  split at h
  case h_1 => contradiction
  case h_2 hdeclared =>
    simp only [List.find?_eq_none, List.mem_cons, decide_not, Bool.not_eq_true,
      Bool.not_eq_false', decide_eq_true_eq, forall_eq_or_imp] at hdeclared
    split at h
    · contradiction
    case isFalse hreserved =>
      simp only [List.any_eq_true, decide_eq_true_eq, not_or, not_exists, not_and] at hreserved
      exact ⟨hreserved.left, hdeclared.left, hdeclared.right, hreserved.right⟩

theorem ruleWithOrder_isSound {left : Nonterminal} {right : List Symbol} {order : Nat}
    {priority : Int} (h : d.IsSound) : (d.ruleWithOrder left right order priority).1.IsSound := by
  unfold ruleWithOrder
  split
  case h_1 => exact h
  case h_2 hnone =>
    refine ⟨h.vocabulary, ?_⟩
    intro rule hrule
    cases Array.mem_push.mp hrule
    case inl hmem => exact h.rules rule hmem
    case inr heq =>
      subst heq
      exact admits_of_refusal?_eq_none (d := d) hnone

-- No call takes a draft out of soundness, also if it fails.
theorem Call.apply_isSound (h : d.IsSound) : (c : Call) → (c.apply d).IsSound
  | terminal _ => {
      vocabulary := Vocabulary.declareTerminal_isSound h.vocabulary
      rules      := fun rule hr => (h.rules rule hr).mono fun _ => (·.declareTerminal) }
  | nonterminal _ => {
      vocabulary := Vocabulary.declareNonterminal_isSound h.vocabulary
      rules      := fun rule hr => (h.rules rule hr).mono fun _ => (·.declareNonterminal) }
  | rule .. | ruleWithOrder .. => ruleWithOrder_isSound h
  | startSymbol _ => ⟨h.vocabulary, h.rules⟩
  | startSymbolByName _ => by
    simp only [apply, Draft.startSymbolByName]
    split <;> try split
    all_goals exact ⟨h.vocabulary, h.rules⟩

theorem afterCalls_isSound (calls : List Call) : (afterCalls calls).IsSound := by
  unfold afterCalls
  suffices h : ∀ d : Draft, d.IsSound → (calls.foldl Call.apply d).IsSound from
    h initial initial_isSound
  induction calls
  case nil => exact fun _ h => h
  case cons c _ hi => exact fun _ h => hi _ <| c.apply_isSound h

end Draft

namespace Grammar

-- A grammar that some definition accepts.
def IsDefined (g : Grammar) : Prop :=
  ∃ calls : List Draft.Call, (Draft.afterCalls calls).finish = .ok g

-- The accept rule is the first one, and it is the only one that knows the augmented start symbol.
-- All other symbols in rules are declared and not reserved.
structure WellFormed (g : Grammar) : Prop where
  vocabulary     : g.vocabulary.IsSound
  accept_rule    : g.rule? .accept = some ⟨.accept, [.nonterminal g.start], 0, 0⟩
  rule_left      : ∀ {r : RuleId} {rule : Rule},
    g.rule? r = some rule → r ≠ .accept → rule.left ≠ .accept
  declares_left  : ∀ {r : RuleId} {rule : Rule},
    g.rule? r = some rule → g.vocabulary.Declares (.nonterminal rule.left)
  declares_right : ∀ {r : RuleId} {rule : Rule},
    g.rule? r = some rule → ∀ s ∈ rule.right, g.vocabulary.Declares s
  rule_right     : ∀ {r : RuleId} {rule : Rule},
    g.rule? r = some rule → ∀ s ∈ rule.right, ¬ s.IsReserved

-- The accept rule comes before the rules of the draft, one of which derives the start symbol.
structure Finishes (d : Draft) (g : Grammar) : Prop where
  vocabulary  : g.vocabulary = d.vocabulary
  accept_rule : g.rule? .accept = some ⟨.accept, [.nonterminal g.start], 0, 0⟩
  rule_mem    : ∀ {r : RuleId} {rule : Rule}, g.rule? r = some rule → r ≠ .accept → rule ∈ d.rules
  start_rule  : ∃ rule ∈ d.rules, rule.left = g.start

-- A draft is refused if no rule derives the symbol that it would start at.
theorem finish_cases (d : Draft) :
    ((∃ name, d.finish = .error (.startNotFound name)) ∧
      ∀ start, d.effectiveStart? = some start → ∀ rule ∈ d.rules, rule.left ≠ start) ∨
    ∃ start, d.effectiveStart? = some start ∧ (∃ rule ∈ d.rules, rule.left = start) ∧
      d.finish = .ok {
        vocabulary := d.vocabulary
        rules      := #[⟨.accept, [.nonterminal start], 0, 0⟩] ++ d.rules
        start      := start } := by
  unfold Draft.finish
  split
  case h_1 hnone => exact .inl ⟨⟨_, rfl⟩, by simp [hnone]⟩
  case h_2 start hstart =>
    split
    case isTrue hany =>
      obtain ⟨rule, hmem, heq⟩ := Array.any_eq_true'.mp hany
      exact .inr ⟨start, hstart, ⟨rule, hmem, of_decide_eq_true heq⟩, rfl⟩
    case isFalse hany =>
      refine .inl ⟨⟨_, rfl⟩, fun start' hstart' rule hmem heq => hany ?_⟩
      cases hstart.symm.trans hstart'
      exact Array.any_eq_true'.mpr ⟨rule, hmem, decide_eq_true heq⟩

theorem finishes_of_finish_eq_ok {d : Draft} {g : Grammar} (h : d.finish = .ok g) :
    Finishes d g := by
  obtain ⟨⟨_, he⟩, _⟩ | ⟨start, _, hrule, hok⟩ := finish_cases d
  case inl => cases h.symm.trans he
  cases h.symm.trans hok
  refine ⟨rfl, ?_, ?_, hrule⟩
  · rw [rule?, Array.getElem?_append_left (by simp [RuleId.accept])]
    rfl
  · rintro ⟨k⟩ rule hr hne
    cases k
    case zero => contradiction
    case succ k =>
      rw [rule?, Array.getElem?_append_right (by simp)] at hr
      exact Array.mem_of_getElem? hr

theorem IsDefined.wellFormed {g : Grammar} (h : g.IsDefined) : g.WellFormed := by
  obtain ⟨calls, hfinish⟩ := h
  have hsound := Draft.afterCalls_isSound calls
  have hf := finishes_of_finish_eq_ok hfinish
  generalize Draft.afterCalls calls = d at hsound hf
  obtain ⟨rule₀, hmem₀, hstart⟩ := hf.start_rule
  have hadmits₀ := hsound.rules rule₀ hmem₀
  have hadmits {r : RuleId} {rule : Rule} (hr : g.rule? r = some rule) (hne : r ≠ .accept) :
      Draft.Admits g.vocabulary rule :=
    hf.vocabulary ▸ hsound.rules rule (hf.rule_mem hr hne)
  refine ⟨hf.vocabulary ▸ hsound.vocabulary, hf.accept_rule, ?_, ?_, ?_, ?_⟩
  · exact fun hr hne => (hadmits hr hne).left_ne_accept
  all_goals
    intro r rule hr
    by_cases hne : r = .accept
  case pos =>
    have hsize := hsound.vocabulary.nonterminals_size
    cases hf.accept_rule ▸ hne ▸ hr
    simpa [Vocabulary.Declares, Nonterminal.accept, hf.vocabulary, Nat.pos_iff_ne_zero] using
      Nat.ne_zero_of_lt hsize
  case neg => exact (hadmits hr hne).declares_left
  case pos =>
    cases hf.accept_rule ▸ hne ▸ hr
    simpa [hf.vocabulary, ← hstart] using hadmits₀.declares_left
  case neg => exact (hadmits hr hne).declares_right
  case pos =>
    cases hf.accept_rule ▸ hne ▸ hr
    simpa [← hstart, Symbol.IsReserved] using hadmits₀.left_ne_accept
  case neg => exact (hadmits hr hne).not_reserved

namespace WellFormed

variable {g : Grammar} {r : RuleId} {s : Symbol}

@[simp]
theorem right_accept (h : g.WellFormed) : g.right .accept = [.nonterminal g.start] :=
  right_of_rule? h.accept_rule

@[simp]
theorem left_accept (h : g.WellFormed) : g.left .accept = .accept :=
  left_of_rule? h.accept_rule

theorem left_eq_accept_iff (h : g.WellFormed) (hr : (g.rule? r).isSome) :
    g.left r = .accept ↔ r = .accept := by
  obtain ⟨rule, hrule⟩ := Option.isSome_iff_exists.mp hr
  constructor
  case mp =>
    intro hl
    by_contra hne
    exact h.rule_left hrule hne <| left_of_rule? hrule ▸ hl
  case mpr => exact fun he => he ▸ h.left_accept

theorem declares_of_mem_right (h : g.WellFormed) (hs : s ∈ g.right r) :
    g.vocabulary.Declares s :=
  have ⟨_, hr, hs⟩ := exists_rule?_of_mem_right hs
  h.declares_right hr s hs

theorem not_reserved_of_mem_right (h : g.WellFormed) (hs : s ∈ g.right r) : ¬ s.IsReserved :=
  have ⟨_, hr, hs⟩ := exists_rule?_of_mem_right hs
  h.rule_right hr s hs

theorem mem_inputTerminals_of_mem_right (h : g.WellFormed) {t : Terminal}
    (ht : .terminal t ∈ g.right r) : t ∈ g.vocabulary.inputTerminals := by
  refine Vocabulary.mem_inputTerminals.mpr ⟨h.declares_of_mem_right ht, ?_⟩
  exact fun he => h.not_reserved_of_mem_right ht <| Terminal.isReserved_iff.mpr <| .inr he

theorem accept_not_mem_right (h : g.WellFormed) : .nonterminal .accept ∉ g.right r :=
  fun hs => h.not_reserved_of_mem_right hs rfl

theorem endOfInput_mem_inputTerminals (h : g.WellFormed) :
    .endOfInput ∈ g.vocabulary.inputTerminals := by
  have := h.vocabulary.terminals_size
  refine Vocabulary.mem_inputTerminals.mpr ⟨?_, Terminal.endOfInput_ne_marker⟩
  simp_all [Vocabulary.Declares, Terminal.endOfInput, Terminal.firstFree]
  omega

end WellFormed

section Examples

-- The grammars `S → S a | ε` and `S → a S b | ε`, for the evaluation of general statements. In the
-- LR(1) automaton of the second one, the outermost pair has states of its own, with the cores of
-- those for the pairs within.
def repetitionCalls : List Draft.Call :=
  [.terminal "a", .nonterminal "S", .rule ⟨1⟩ [.nonterminal ⟨1⟩, .terminal ⟨2⟩] none,
    .rule ⟨1⟩ [] none]

def repetition : Grammar where
  vocabulary := (Draft.afterCalls repetitionCalls).vocabulary
  rules      := #[⟨.accept, [.nonterminal ⟨1⟩], 0, 0⟩] ++ (Draft.afterCalls repetitionCalls).rules
  start      := ⟨1⟩

theorem repetition_isDefined : repetition.IsDefined :=
  ⟨repetitionCalls, by cbv⟩

def nestingCalls : List Draft.Call :=
  [.terminal "a", .terminal "b", .nonterminal "S",
    .rule ⟨1⟩ [.terminal ⟨2⟩, .nonterminal ⟨1⟩, .terminal ⟨3⟩] none, .rule ⟨1⟩ [] none]

def nesting : Grammar where
  vocabulary := (Draft.afterCalls nestingCalls).vocabulary
  rules      := #[⟨.accept, [.nonterminal ⟨1⟩], 0, 0⟩] ++ (Draft.afterCalls nestingCalls).rules
  start      := ⟨1⟩

theorem nesting_isDefined : nesting.IsDefined :=
  ⟨nestingCalls, by cbv⟩

end Examples

end Grammar
end ShiftReduce
