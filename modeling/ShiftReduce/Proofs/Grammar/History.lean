import Mathlib.Data.List.Induction
import Mathlib.Data.List.Nodup
import ShiftReduce.Proofs.Grammar.Definition

namespace ShiftReduce

namespace Vocabulary

-- All numbers are below the capacity.
structure IsWithin (v : Vocabulary) : Prop where
  terminals    : v.terminals.size ≤ capacity
  nonterminals : v.nonterminals.size ≤ capacity

-- The name leads to the symbol now, and it did so before if it led to any.
structure IsDeclared (v v' : Vocabulary) (name : String) (s : Symbol) : Prop where
  symbol?      : ∀ x, v'.symbol? x = if name = x then some s else v.symbol? x
  first        : ∀ s', v.symbol? name = some s' → s' = s
  not_reserved : v.IsSound → ¬ s.IsReserved
  isWithin     : v.IsWithin → v'.IsWithin

variable {v v' : Vocabulary} {name : String} {s : Symbol}

theorem initial_isWithin : initial.IsWithin := by
  constructor <;> decide

theorem isReserved_of_symbol?_initial (h : initial.symbol? name = some s) : s.IsReserved := by
  rw [symbol?_initial] at h
  split at h
  case isTrue =>
    cases h
    rfl
  case isFalse =>
    split at h
    case isTrue =>
      cases h
      exact Terminal.isReserved_iff.mpr <| .inl rfl
    case isFalse => contradiction

theorem IsDeclared.of_known (h : v.symbol? name = some s) (hr : ¬ s.IsReserved) :
    IsDeclared v v name s where
  symbol? x := by
    split
    case isTrue hx => rw [← hx, h]
    case isFalse   => rfl
  first s' hs'     := Option.some.inj <| hs'.symm.trans h
  not_reserved _   := hr
  isWithin         := id

theorem declareTerminal_cases (v : Vocabulary) (name : String) :
    (∃ e, v.declareTerminal name = (v, .error e)) ∨
      ∃ v' t, v.declareTerminal name = (v', .ok t) ∧ IsDeclared v v' name (.terminal t) := by
  unfold declareTerminal
  split
  case h_1 t ht =>
    by_cases hr : t.IsReserved
    case pos => exact .inl ⟨_, by rw [if_pos hr]⟩
    case neg => exact .inr ⟨v, t, by rw [if_neg hr], .of_known ht hr⟩
  case h_2 => exact .inl ⟨_, rfl⟩
  case h_3 hnone =>
    dsimp only
    split
    case isFalse => exact .inl ⟨_, rfl⟩
    case isTrue hlt =>
      refine .inr ⟨_, _, rfl, ?_⟩
      constructor
      case symbol?      => simp [symbol?, Std.TreeMap.getElem?_insert]
      case first        => simp [hnone]
      case not_reserved => exact fun hv => Nat.not_lt_of_le hv.terminals_size
      case isWithin     => exact fun hw => ⟨by simpa using Nat.succ_le_of_lt hlt, hw.nonterminals⟩

theorem declareNonterminal_cases (v : Vocabulary) (name : String) :
    (∃ e, v.declareNonterminal name = (v, .error e)) ∨
      ∃ v' n, v.declareNonterminal name = (v', .ok n) ∧ IsDeclared v v' name (.nonterminal n) := by
  unfold declareNonterminal
  split
  case h_1 n hn =>
    by_cases hr : n = .accept
    case pos => exact .inl ⟨_, by rw [if_pos hr]⟩
    case neg => exact .inr ⟨v, n, by rw [if_neg hr], .of_known hn hr⟩
  case h_2 => exact .inl ⟨_, rfl⟩
  case h_3 hnone =>
    dsimp only
    split
    case isFalse => exact .inl ⟨_, rfl⟩
    case isTrue hlt =>
      refine .inr ⟨_, _, rfl, ?_⟩
      constructor
      case symbol?      => simp [symbol?, Std.TreeMap.getElem?_insert]
      case first        => simp [hnone]
      case isWithin     => exact fun hw => ⟨hw.terminals, by simpa using Nat.succ_le_of_lt hlt⟩
      case not_reserved =>
        intro hv hr
        have hsize := hv.nonterminals_size
        have hzero : v.nonterminals.size = 0 := congrArg Nonterminal.number hr
        simp [hzero, Nonterminal.firstFree] at hsize

end Vocabulary

namespace Draft

-- What a call gives if it is not refused.
inductive Answer
  | symbol (s : Symbol)
  | rule (r : RuleId)
  | done

def Call.answer (d : Draft) : Call → Except ConstructionError Answer
  | terminal name             => (d.terminal name).2.map fun t => .symbol <| .terminal t
  | nonterminal name          => (d.nonterminal name).2.map fun n => .symbol <| .nonterminal n
  | rule left right priority? => (d.rule left right priority?).2.map .rule
  | ruleWithOrder left right order priority =>
    (d.ruleWithOrder left right order priority).2.map .rule
  | startSymbol _             => .ok .done
  | startSymbolByName name    => (d.startSymbolByName name).2.map fun _ => .done

-- The name that a call declares.
def Call.name? : Call → Option String
  | terminal name | nonterminal name => some name
  | _                                => none

-- The rule that a call adds to so many others.
def Call.rule? (count : Nat) : Call → Option Rule
  | rule left right priority?               => some ⟨left, right, count, priority?.getD 0⟩
  | ruleWithOrder left right order priority => some ⟨left, right, order, priority⟩
  | _                                       => none

abbrev Entry :=
  Call × Except ConstructionError Answer

-- Calls on a draft one after the other, each with its answer.
def historyFrom (d : Draft) : List Call → List Entry
  | []         => []
  | c :: calls => (c, c.answer d) :: historyFrom (c.apply d) calls

def history (calls : List Call) : List Entry :=
  historyFrom .initial calls

-- Some declaration of the name was answered with the symbol.
def Gives (entries : List Entry) (name : String) (s : Symbol) : Prop :=
  ∃ c, (c, .ok (.symbol s)) ∈ entries ∧ c.name? = some name

-- The rule that was declared, with the number that was given to it.
def declaredRule? : Entry → Option (RuleId × Rule)
  | (c, .ok (.rule r)) => (c.rule? (r.number - RuleId.firstFree)).map (r, ·)
  | _                  => none

def numbered (rules : List Rule) : List (RuleId × Rule) :=
  rules.zipIdx.map fun (rule, k) => (⟨k + RuleId.firstFree⟩, rule)

-- What a call can do, and its answer.
inductive Performs (d : Draft) (c : Call) : Draft → Except ConstructionError Answer → Prop
  | refused {e : ConstructionError} :
    Performs d c d (.error e)
  | declared {name : String} {s : Symbol} {v : Vocabulary} :
    c.name? = some name → d.vocabulary.IsDeclared v name s →
    Performs d c { d with vocabulary := v } (.ok <| .symbol s)
  | ruled {rule : Rule} :
    c.rule? d.rules.size = some rule → d.refusal? rule.left rule.right = none →
    Performs d c { d with rules := d.rules.push rule }
      (.ok <| .rule ⟨d.rules.size + RuleId.firstFree⟩)
  | started {start? : Option Nonterminal} :
    Performs d c { d with start? } (.ok .done)

-- The entries tell of every name and every rule of a draft, and of no others.
structure Records (entries : List Entry) (d : Draft) : Prop where
  symbols      : ∀ x s, d.vocabulary.symbol? x = some s ↔
    Gives entries x s ∨ Vocabulary.initial.symbol? x = some s
  not_reserved : ∀ x s, Gives entries x s → ¬ s.IsReserved
  isWithin     : d.vocabulary.IsWithin
  rules        : entries.filterMap declaredRule? = numbered d.rules.toList
  distinct     : (d.rules.toList.map fun rule => (rule.left, rule.right)).Nodup
  size         : d.rules.size + RuleId.firstFree ≤ Vocabulary.capacity

variable {d d' : Draft} {c : Call} {calls : List Call} {entries : List Entry}
  {answer : Except ConstructionError Answer} {s : Symbol} {x y : String} {e : ConstructionError}

theorem performs_ruleWithOrder {left : Nonterminal} {right : List Symbol} {order : Nat}
    {priority : Int} (hc : c.rule? d.rules.size = some ⟨left, right, order, priority⟩) :
    Performs d c (d.ruleWithOrder left right order priority).1
      ((d.ruleWithOrder left right order priority).2.map .rule) := by
  unfold ruleWithOrder
  split
  case h_1       => exact .refused
  case h_2 hnone => exact .ruled hc hnone

-- A rule that is not refused is new, and its number is free.
theorem fresh_of_refusal?_eq_none {left : Nonterminal} {right : List Symbol}
    (h : d.refusal? left right = none) : d.rules.size + RuleId.firstFree < Vocabulary.capacity ∧
      ∀ rule ∈ d.rules, ¬ (rule.left = left ∧ rule.right = right) := by
  unfold refusal? at h
  split at h
  case h_1 => contradiction
  case h_2 =>
    split at h
    · contradiction
    split at h
    · contradiction
    case isFalse hnew =>
      split at h
      · contradiction
      case isFalse hfree =>
        refine ⟨Nat.lt_of_not_le hfree, fun rule hmem hsides => hnew ?_⟩
        exact Array.any_eq_true'.mpr ⟨rule, hmem, decide_eq_true hsides⟩

theorem Call.performs (d : Draft) (c : Call) : Performs d c (c.apply d) (c.answer d) := by
  cases c
  case rule          => exact performs_ruleWithOrder rfl
  case ruleWithOrder => exact performs_ruleWithOrder rfl
  case startSymbol   => exact .started
  case terminal name =>
    obtain ⟨_, heq⟩ | ⟨_, _, heq, hdeclared⟩ := d.vocabulary.declareTerminal_cases name
    all_goals simp only [apply, answer, Draft.terminal, heq]
    case inl => exact .refused
    case inr => exact .declared rfl hdeclared
  case nonterminal name =>
    obtain ⟨_, heq⟩ | ⟨_, _, heq, hdeclared⟩ := d.vocabulary.declareNonterminal_cases name
    all_goals simp only [apply, answer, Draft.nonterminal, heq]
    case inl => exact .refused
    case inr => exact .declared rfl hdeclared
  case startSymbolByName name =>
    simp only [apply, answer, Draft.startSymbolByName]
    split
    case h_2 => exact .refused
    case h_1 =>
      split
      case isTrue  => exact .refused
      case isFalse => exact .started

theorem Call.apply_of_error (h : c.answer d = .error e) : c.apply d = d := by
  have hperforms := c.performs d
  rw [h] at hperforms
  generalize c.apply d = d' at hperforms
  cases hperforms
  rfl

section Entries

theorem gives_append : Gives (entries ++ [(c, answer)]) x s ↔
    Gives entries x s ∨ (answer = .ok (.symbol s) ∧ c.name? = some x) := by
  simp only [Gives, List.mem_append, List.mem_singleton, Prod.mk.injEq]
  constructor
  case mp =>
    rintro ⟨c', hmem, hx⟩
    cases hmem
    case inl hmem => exact .inl ⟨c', hmem, hx⟩
    case inr he =>
      obtain ⟨rfl, rfl⟩ := he
      exact .inr ⟨rfl, hx⟩
  case mpr =>
    intro h
    cases h
    case inl h =>
      obtain ⟨c', hmem, hx⟩ := h
      exact ⟨c', .inl hmem, hx⟩
    case inr h => exact ⟨c, .inr ⟨rfl, h.left.symm⟩, h.right⟩

theorem filterMap_of_not_rule (h : declaredRule? (c, answer) = none) :
    (entries ++ [(c, answer)]).filterMap declaredRule? = entries.filterMap declaredRule? := by
  rw [List.filterMap_append, List.filterMap_cons_none h, List.filterMap_nil, List.append_nil]

theorem numbered_append {rules : List Rule} {rule : Rule} : numbered (rules ++ [rule]) =
    numbered rules ++ [(⟨rules.length + RuleId.firstFree⟩, rule)] := by
  simp [numbered, List.zipIdx_append]

theorem historyFrom_append : historyFrom d (calls ++ [c]) =
    historyFrom d calls ++ [(c, c.answer <| calls.foldl Call.apply d)] := by
  induction calls generalizing d
  case nil             => rfl
  case cons c calls hi => exact congrArg ((c, c.answer d) :: ·) hi

theorem history_append :
    history (calls ++ [c]) = history calls ++ [(c, c.answer <| afterCalls calls)] :=
  historyFrom_append

theorem afterCalls_append : afterCalls (calls ++ [c]) = c.apply (afterCalls calls) := by
  simp [afterCalls]

end Entries

namespace Records

theorem init : Records [] .initial where
  symbols      := by simp [Gives, initial]
  not_reserved := by simp [Gives]
  isWithin     := Vocabulary.initial_isWithin
  rules        := rfl
  distinct     := .nil
  size         := by decide

-- An answer without a symbol and without a rule.
theorem skip (h : Records entries d) (hv : d'.vocabulary = d.vocabulary) (hr : d'.rules = d.rules)
    (hsymbol : ∀ s, answer ≠ .ok (.symbol s)) (hrule : declaredRule? (c, answer) = none) :
    Records (entries ++ [(c, answer)]) d' := by
  have hgives (x : String) (s : Symbol) :
      Gives (entries ++ [(c, answer)]) x s ↔ Gives entries x s := by
    simp [gives_append, hsymbol]
  constructor
  case symbols      => simpa only [hgives, hv] using h.symbols
  case not_reserved => simpa only [hgives] using h.not_reserved
  case isWithin     => exact hv ▸ h.isWithin
  case distinct     => exact hr ▸ h.distinct
  case size         => exact hr ▸ h.size
  case rules        => exact (filterMap_of_not_rule hrule).trans (hr ▸ h.rules)

theorem declare {v : Vocabulary} (h : Records entries d) (hv : d.vocabulary.IsSound)
    (hc : c.name? = some x) (hx : d.vocabulary.IsDeclared v x s) :
    Records (entries ++ [(c, .ok <| .symbol s)]) { d with vocabulary := v } := by
  have hgives (y : String) (s' : Symbol) : Gives (entries ++ [(c, .ok <| .symbol s)]) y s' ↔
      Gives entries y s' ∨ (s = s' ∧ x = y) := by
    simp [gives_append, hc]
  constructor
  case symbols =>
    intro y s'
    have hold := h.symbols y s'
    rw [hx.symbol?, hgives]
    by_cases hy : x = y
    case neg => simpa [hy] using hold
    case pos =>
      subst hy
      have hfirst := hx.first s'
      grind
  case not_reserved =>
    intro y s' hs'
    cases (hgives y s').mp hs'
    case inl hs' => exact h.not_reserved y s' hs'
    case inr hs' => exact hs'.left ▸ hx.not_reserved hv
  case isWithin => exact hx.isWithin h.isWithin
  case distinct => exact h.distinct
  case size     => exact h.size
  case rules    => exact (filterMap_of_not_rule rfl).trans h.rules

-- No rule is refused without a cause, and two rules with the same sides are one.
theorem addRule {rule : Rule} (h : Records entries d) (hc : c.rule? d.rules.size = some rule)
    (hnone : d.refusal? rule.left rule.right = none) :
    Records (entries ++ [(c, .ok <| .rule ⟨d.rules.size + RuleId.firstFree⟩)])
      { d with rules := d.rules.push rule } := by
  have hgives (x : String) (s : Symbol) :
      Gives (entries ++ [(c, .ok <| .rule ⟨d.rules.size + RuleId.firstFree⟩)]) x s ↔
        Gives entries x s := by
    simp [gives_append]
  obtain ⟨hfree, hnew⟩ := fresh_of_refusal?_eq_none hnone
  constructor
  case symbols      => simpa only [hgives] using h.symbols
  case not_reserved => simpa only [hgives] using h.not_reserved
  case isWithin     => exact h.isWithin
  case size =>
    rw [Array.size_push]
    omega
  case distinct =>
    rw [Array.toList_push, List.map_append]
    refine h.distinct.append (List.nodup_singleton _) fun sides hold hsides => ?_
    obtain ⟨rule', hmem, rfl⟩ := List.mem_map.mp hold
    exact hnew rule' (Array.mem_toList_iff.mp hmem) <| by simpa using hsides
  case rules =>
    have hdeclared : declaredRule? (c, .ok <| .rule ⟨d.rules.size + RuleId.firstFree⟩) =
        some (⟨d.rules.size + RuleId.firstFree⟩, rule) := by
      simp [declaredRule?, hc]
    rw [List.filterMap_append, List.filterMap_cons_some hdeclared, List.filterMap_nil, h.rules,
      Array.toList_push, numbered_append]
    rfl

theorem perform (h : Records entries d) (hv : d.vocabulary.IsSound)
    (hperforms : Performs d c d' answer) : Records (entries ++ [(c, answer)]) d' := by
  cases hperforms
  case refused           => exact h.skip rfl rfl (by simp) rfl
  case started           => exact h.skip rfl rfl (by simp) rfl
  case declared hc hx    => exact h.declare hv hc hx
  case ruled hc hnone    => exact h.addRule hc hnone

theorem history (calls : List Call) : Records (history calls) (afterCalls calls) := by
  induction calls using List.reverseRecOn
  case nil => exact init
  case append_singleton calls c h =>
    rw [history_append, afterCalls_append]
    exact h.perform (afterCalls_isSound calls).vocabulary (c.performs _)

end Records

-- A name that has been declared keeps its symbol, which no other name has. It never gets one of the
-- other kind, and it is not the name of a reserved symbol that a name leads to.
structure SettlesNames (entries : List Entry) (d : Draft) : Prop where
  unique      : ∀ x y s s', Gives entries x s → Gives entries y s' → (x = y ↔ s = s')
  name?_eq    : ∀ x s, Gives entries x s → d.vocabulary.name? s = some x
  new         : ∀ x s, Gives entries x s → Vocabulary.initial.symbol? x = none
  terminal    : ∀ x t, Gives entries x (.terminal t) →
    (Call.terminal x).answer d = .ok (.symbol <| .terminal t) ∧
    (Call.nonterminal x).answer d = .error (.symbolKindMismatch x)
  nonterminal : ∀ x n, Gives entries x (.nonterminal n) →
    (Call.nonterminal x).answer d = .ok (.symbol <| .nonterminal n) ∧
    (Call.terminal x).answer d = .error (.symbolKindMismatch x)

-- A name that leads to a symbol is declared again as that symbol. As one of the other kind it is
-- refused.
theorem answers_of_terminal {t : Terminal} (hx : d.vocabulary.symbol? x = some (.terminal t))
    (hr : ¬ t.IsReserved) :
    (Call.terminal x).answer d = .ok (.symbol <| .terminal t) ∧
    (Call.nonterminal x).answer d = .error (.symbolKindMismatch x) := by
  have ht : t ≠ .endOfInput := fun ht => hr <| Terminal.isReserved_iff.mpr <| .inl ht
  constructor
  case left =>
    simp [Call.answer, Draft.terminal, Vocabulary.declareTerminal, hx, hr, Except.map]
  case right =>
    simp [Call.answer, Draft.nonterminal, Vocabulary.declareNonterminal, hx, ht, Except.map]

theorem answers_of_nonterminal {n : Nonterminal}
    (hx : d.vocabulary.symbol? x = some (.nonterminal n)) (hn : n ≠ .accept) :
    (Call.nonterminal x).answer d = .ok (.symbol <| .nonterminal n) ∧
    (Call.terminal x).answer d = .error (.symbolKindMismatch x) := by
  constructor
  case left =>
    simp [Call.answer, Draft.nonterminal, Vocabulary.declareNonterminal, hx, hn, Except.map]
  case right =>
    simp [Call.answer, Draft.terminal, Vocabulary.declareTerminal, hx, hn, Except.map]

theorem Records.settlesNames (h : Records entries d) (hv : d.vocabulary.IsSound) :
    SettlesNames entries d := by
  have hgiven {x : String} {s : Symbol} (hs : Gives entries x s) :
      d.vocabulary.symbol? x = some s :=
    (h.symbols x s).mpr <| .inl hs
  constructor
  case name?_eq => exact fun x s hs => (hv.symbol?_iff.mp <| hgiven hs).left
  case unique =>
    intro x y s s' hs hs'
    constructor
    case mp =>
      rintro rfl
      exact Option.some.inj <| (hgiven hs).symm.trans (hgiven hs')
    case mpr =>
      rintro rfl
      have hx := (hv.symbol?_iff.mp <| hgiven hs).left
      have hy := (hv.symbol?_iff.mp <| hgiven hs').left
      exact Option.some.inj <| hx.symm.trans hy
  case new =>
    intro x s hs
    cases hx : Vocabulary.initial.symbol? x
    case none => rfl
    case some s' =>
      cases (hgiven hs).symm.trans <| (h.symbols x s').mpr (.inr hx)
      exact absurd (Vocabulary.isReserved_of_symbol?_initial hx) (h.not_reserved x s hs)
  case terminal    => exact fun x t hs => answers_of_terminal (hgiven hs) <| h.not_reserved x _ hs
  case nonterminal =>
    exact fun x n hs => answers_of_nonterminal (hgiven hs) <| h.not_reserved x _ hs

-- For every sequence of calls, whether they succeed or not. A call that is refused leaves the draft
-- as it is. The names and the rules of the draft are those that calls have declared, the rules with
-- consecutive numbers, over declared symbols that are not reserved, and no two with the same sides.
-- The draft makes a grammar whose first rule is the only one of the accept symbol, unless there is
-- no rule for the start symbol.
theorem definition_exact (calls : List Call) :
    let d := afterCalls calls
    (∀ (c : Call) (e : ConstructionError), c.answer d = .error e → c.apply d = d) ∧
    d.IsSound ∧ Records (history calls) d ∧ SettlesNames (history calls) d ∧
    match d.finish with
    | .error e => (∃ name, e = .startNotFound name) ∧
        ∀ start, d.effectiveStart? = some start → ∀ rule ∈ d.rules, rule.left ≠ start
    | .ok g    => g.vocabulary = d.vocabulary ∧
        g.rules = #[⟨.accept, [.nonterminal g.start], 0, 0⟩] ++ d.rules ∧
        (∀ r rule, g.rule? r = some rule → (rule.left = .accept ↔ r = .accept)) ∧
        d.effectiveStart? = some g.start ∧ ∃ rule ∈ d.rules, rule.left = g.start := by
  intro d
  have hsound : d.IsSound := afterCalls_isSound calls
  have h : Records (history calls) d := .history calls
  refine ⟨fun c e => Call.apply_of_error, hsound, h, h.settlesNames hsound.vocabulary, ?_⟩
  obtain ⟨⟨name, he⟩, hnone⟩ | ⟨start, hstart, hrule, hok⟩ := Grammar.finish_cases d
  case inl =>
    rw [he]
    exact ⟨⟨name, rfl⟩, hnone⟩
  case inr =>
    rw [hok]
    refine ⟨rfl, rfl, fun r rule hr => ?_, hstart, hrule⟩
    have hg := Grammar.IsDefined.wellFormed ⟨calls, hok⟩
    constructor
    case mp  => exact fun hl => by_contra fun hne => hg.rule_left hr hne hl
    case mpr =>
      rintro rfl
      cases hr.symm.trans hg.accept_rule
      rfl

-- The name of the marker is free, for a symbol of one kind.
example : history [.terminal "#", .nonterminal "#", .terminal "$END", .terminal "#"] = [
    (.terminal "#", .ok <| .symbol <| .terminal ⟨2⟩),
    (.nonterminal "#", .error <| .symbolKindMismatch "#"),
    (.terminal "$END", .error <| .reservedSymbol "$END"),
    (.terminal "#", .ok <| .symbol <| .terminal ⟨2⟩)] := by
  cbv

end Draft
end ShiftReduce
