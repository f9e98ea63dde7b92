import ShiftReduce.Proofs.Grammar.Naming

namespace ShiftReduce

namespace RuleRecord

def symbols (r : RuleRecord) : List SymbolRecord :=
  r.origin :: r.expansion

-- What tells a record from the others.
def sides (r : RuleRecord) : SymbolRecord × List SymbolRecord :=
  (r.origin, r.expansion)

-- The record with everything filled in that it may leave open. The options only count for a record
-- without a priority of its own.
def settled (r : RuleRecord) (position : Nat) : RuleRecord where
  origin    := r.origin
  expansion := r.expansion
  order?    := some <| r.order?.getD position
  priority? := some <|
    match r.priority?, r.options? with
    | some p, _      => p
    | none,   some o => o.priority?.getD 0
    | none,   none   => 0

end RuleRecord

-- All records filled in, each at its position.
def settled (records : List RuleRecord) : List RuleRecord :=
  records.zipIdx.map fun (r, k) => r.settled k

-- Records that can be rules together.
structure AreRules (records : List RuleRecord) : Prop where
  symbols  : AreDeclarable (records.flatMap (·.symbols))
  origins  : ∀ r ∈ records, ∃ name, r.origin = .nonterminal name
  distinct : (records.map (·.sides)).Nodup
  length   : records.length ≤ 65534

-- Records that make a grammar.
structure IsLoadable (records : List RuleRecord) (start : String) : Prop extends
    AreRules records where
  start : ∃ r ∈ records, r.origin.name = start

-- The result is a value of this sort, or there is none for want of the condition.
def SucceedsIf {ε α : Type} (result : Except ε α) (P : α → Prop) (condition : Prop) : Prop :=
  (∃ x, result = .ok x ∧ P x) ∨ ((∃ e, result = .error e) ∧ ¬ condition)

namespace SucceedsIf

variable {ε α β : Type} {result : Except ε α} {P P' : α → Prop} {Q : β → Prop}
  {condition condition' : Prop} {f : α → Except ε β} {x : α} {e : ε}

theorem ok (h : P x) : SucceedsIf (.ok x : Except ε α) P condition :=
  .inl ⟨x, rfl, h⟩

theorem error (h : ¬ condition) : SucceedsIf (.error e) P condition :=
  .inr ⟨⟨e, rfl⟩, h⟩

theorem bind (h : SucceedsIf result P condition) (hc : condition' → condition)
    (hf : ∀ x, P x → SucceedsIf (f x) Q condition') : SucceedsIf (result >>= f) Q condition' := by
  obtain ⟨x, rfl, hx⟩ | ⟨⟨e, rfl⟩, hnot⟩ := h
  case inl => exact hf x hx
  case inr => exact error <| mt hc hnot

theorem imp (h : SucceedsIf result P condition) (hP : ∀ x, P x → P' x)
    (hc : condition' → condition) : SucceedsIf result P' condition' := by
  obtain ⟨x, rfl, hx⟩ | ⟨⟨e, rfl⟩, hnot⟩ := h
  case inl => exact ok <| hP x hx
  case inr => exact error <| mt hc hnot

theorem exists_ok_iff (h : SucceedsIf result P condition) (hP : ∀ x, P x → condition) :
    (∃ x, result = .ok x) ↔ condition := by
  obtain ⟨x, rfl, hx⟩ | ⟨⟨e, rfl⟩, hnot⟩ := h
  case inl => exact iff_of_true ⟨x, rfl⟩ (hP x hx)
  case inr => exact iff_of_false (by simp) hnot

theorem of_eq_ok (h : SucceedsIf result P condition) (hx : result = .ok x) : P x := by
  obtain ⟨y, hy, hP⟩ | ⟨⟨e, he⟩, _⟩ := h
  case inl =>
    cases hx.symm.trans hy
    exact hP
  case inr => cases hx.symm.trans he

end SucceedsIf

namespace Vocabulary

def ruleRecord (v : Vocabulary) (rule : Rule) : RuleRecord where
  origin    := v.record (.nonterminal rule.left)
  expansion := rule.right.map v.record
  order?    := some rule.order
  priority? := some rule.priority

-- The record says what the rule says, with nothing left open.
structure ReadsRule (v : Vocabulary) (r : RuleRecord) (rule : Rule) : Prop where
  left     : v.Reads r.origin (.nonterminal rule.left)
  right    : List.Forall₂ v.Reads r.expansion rule.right
  order    : r.order? = some rule.order
  priority : r.priority? = some rule.priority
  options  : r.options? = none

variable {v v' : Vocabulary} {r : RuleRecord} {rule : Rule}

theorem ReadsRule.mono (h : v.ReadsRule r rule) (he : v.Extends v') : v'.ReadsRule r rule where
  left     := h.left.mono he
  right    := h.right.imp fun _ _ hs => hs.mono he
  order    := h.order
  priority := h.priority
  options  := h.options

theorem ReadsRule.ruleRecord_eq (h : v.ReadsRule r rule) (hv : v.IsSound) :
    v.ruleRecord rule = r := by
  have hright : List.Forall₂ (· = ·) r.expansion (rule.right.map v.record) :=
    List.forall₂_map_right_iff.mpr <| h.right.imp fun _ _ hs => (hs.record_eq hv).symm
  rw [List.forall₂_eq_eq_eq] at hright
  obtain ⟨origin, expansion, order?, priority?, options?⟩ := r
  obtain ⟨hl, hr, rfl, rfl, rfl⟩ := h
  rw [ruleRecord, hl.record_eq hv, ← hright]

end Vocabulary

theorem AreRules.of_append {xs ys : List RuleRecord} (h : AreRules (xs ++ ys)) : AreRules xs where
  symbols  := h.symbols.mono <| by simp
  origins  := fun r hr => h.origins r <| List.mem_append_left _ hr
  distinct := by
    have hdistinct := h.distinct
    rw [List.map_append] at hdistinct
    exact hdistinct.of_append_left
  length   := by
    have := h.length
    rw [List.length_append] at this
    omega

namespace Draft

-- The second draft knows the symbols of these records, and no other rules than the first one.
structure Grows (d d' : Draft) (symbols : List SymbolRecord) : Prop where
  calls : ∃ calls : List Call, calls.foldl Call.apply d = d'
  rules : d'.rules = d.rules
  keeps : d.vocabulary.Extends d'.vocabulary
  holds : d'.vocabulary.Holds symbols

variable {d d' : Draft} {symbols : List SymbolRecord} {r : SymbolRecord} {s : Symbol}

theorem Grows.refl (h : d.vocabulary.Holds symbols) : Grows d d symbols :=
  ⟨⟨[], rfl⟩, rfl, fun _ _ => id, h⟩

theorem Grows.trans {d'' : Draft} {symbols' : List SymbolRecord} (h : Grows d d' symbols)
    (h' : Grows d' d'' symbols') : Grows d d'' symbols' where
  calls := by
    obtain ⟨calls, hc⟩ := h.calls
    obtain ⟨calls', hc'⟩ := h'.calls
    exact ⟨calls ++ calls', by rw [List.foldl_append, hc, hc']⟩
  rules := h'.rules.trans h.rules
  keeps := fun x s => h'.keeps x s ∘ h.keeps x s
  holds := h'.holds

-- One call declares a symbol.
theorem Grows.declare {v : Vocabulary} {x : String} (h : d.vocabulary.Holds symbols)
    (hd : d.vocabulary.IsDeclared v x s) (c : Call) (hc : c.apply d = { d with vocabulary := v })
    (hv : v.IsSound) :
    Grows d { d with vocabulary := v } (symbols ++ [s.recordAs x]) ∧ v.Reads (s.recordAs x) s :=
  have hdeclared := h.declare hd hv
  ⟨⟨⟨[c], hc⟩, rfl, hd.extends, hdeclared.left⟩, hdeclared.right⟩

-- The vocabulary has answered a declaration of either kind, and nothing else has changed.
theorem declaration_succeeds {α : Type} {f : α → Symbol} {x : String}
    {p : Vocabulary × Except ConstructionError α} (h : d.vocabulary.Holds symbols) (c : Call)
    (hc : c.apply d = { d with vocabulary := p.1 }) (hv : p.1.IsSound)
    (hcases : (∃ e, p = (d.vocabulary, .error e)) ∨
      ∃ v a, p = (v, .ok a) ∧ d.vocabulary.IsDeclared v x (f a))
    (hd : AreDeclarable (symbols ++ [r]) →
      ∃ v a, p = (v, .ok a) ∧ d.vocabulary.IsDeclared v x (f a))
    (hr : ∀ a, (f a).recordAs x = r) :
    SucceedsIf (require ({ d with vocabulary := p.1 }, p.2))
      (fun q => Grows d q.1 (symbols ++ [r]) ∧ q.1.vocabulary.Reads r (f q.2))
      (AreDeclarable (symbols ++ [r])) := by
  obtain ⟨e, rfl⟩ | ⟨v, a, rfl, hdeclared⟩ := hcases
  case inl =>
    refine .error fun hok => ?_
    obtain ⟨_, _, he, _⟩ := hd hok
    simp at he
  case inr =>
    obtain rfl := hr a
    exact .ok <| Grows.declare h hdeclared c hc hv

theorem terminal_succeeds (h : d.vocabulary.Holds symbols) (x : String) :
    SucceedsIf (require <| d.terminal x)
      (fun p => Grows d p.1 (symbols ++ [.terminal x]) ∧
        p.1.vocabulary.Reads (.terminal x) (.terminal p.2))
      (AreDeclarable (symbols ++ [.terminal x])) :=
  declaration_succeeds h (.terminal x) rfl (Vocabulary.declareTerminal_isSound h.sound)
    (d.vocabulary.declareTerminal_cases x) h.exists_declareTerminal fun _ => rfl

theorem nonterminal_succeeds (h : d.vocabulary.Holds symbols) (x : String) :
    SucceedsIf (require <| d.nonterminal x)
      (fun p => Grows d p.1 (symbols ++ [.nonterminal x]) ∧
        p.1.vocabulary.Reads (.nonterminal x) (.nonterminal p.2))
      (AreDeclarable (symbols ++ [.nonterminal x])) :=
  declaration_succeeds h (.nonterminal x) rfl (Vocabulary.declareNonterminal_isSound h.sound)
    (d.vocabulary.declareNonterminal_cases x) h.exists_declareNonterminal fun _ => rfl

theorem symbol_succeeds (h : d.vocabulary.Holds symbols) (r : SymbolRecord) :
    SucceedsIf (d.symbol r)
      (fun p => Grows d p.1 (symbols ++ [r]) ∧ p.1.vocabulary.Reads r p.2)
      (AreDeclarable (symbols ++ [r])) := by
  cases r
  case terminal x    => exact (terminal_succeeds h x).bind id fun _ hp => .ok hp
  case nonterminal x => exact (nonterminal_succeeds h x).bind id fun _ hp => .ok hp

theorem symbols_succeeds (h : d.vocabulary.Holds symbols) (rs : List SymbolRecord) :
    SucceedsIf (d.symbols rs)
      (fun p => Grows d p.1 (symbols ++ rs) ∧ List.Forall₂ p.1.vocabulary.Reads rs p.2)
      (AreDeclarable (symbols ++ rs)) := by
  induction rs generalizing d symbols
  case nil =>
    rw [List.append_nil]
    exact .ok ⟨.refl h, .nil⟩
  case cons r rs hi =>
    rw [List.append_cons]
    have hsub : symbols ++ [r] ⊆ symbols ++ [r] ++ rs := List.subset_append_left ..
    refine (symbol_succeeds h r).bind (·.mono hsub) ?_
    rintro ⟨d₁, s⟩ ⟨hg₁, hs⟩
    refine (hi hg₁.holds).bind id ?_
    rintro ⟨d₂, ss⟩ ⟨hg₂, hss⟩
    exact .ok ⟨hg₁.trans hg₂, .cons (hs.mono hg₂.keeps) hss⟩

section Rules

-- A draft has taken in the records as its rules, and has declared these symbols.
structure Loads (records : List RuleRecord) (symbols : List SymbolRecord) (d : Draft) : Prop where
  calls    : ∃ calls, afterCalls calls = d
  holds    : d.vocabulary.Holds symbols
  rules    : List.Forall₂ d.vocabulary.ReadsRule (settled records) d.rules.toList
  areRules : AreRules records

variable {records : List RuleRecord} {left : Nonterminal} {right : List Symbol} {r : RuleRecord}

theorem Loads.init : Loads [] [] .initial where
  calls    := ⟨[], rfl⟩
  holds    := .init
  rules    := .nil
  areRules := ⟨Vocabulary.Holds.init.areDeclarable, by simp, .nil, Nat.zero_le _⟩

theorem Loads.grow {symbols' : List SymbolRecord} (h : Loads records symbols d)
    (hg : Grows d d' symbols') : Loads records symbols' d' where
  calls    := by
    obtain ⟨calls, hc⟩ := h.calls
    obtain ⟨calls', hc'⟩ := hg.calls
    exact ⟨calls ++ calls', by rw [afterCalls, List.foldl_append, ← afterCalls, hc, hc']⟩
  holds    := hg.holds
  rules    := hg.rules ▸ h.rules.imp fun _ _ hr => hr.mono hg.keeps
  areRules := h.areRules

theorem map_sides_settled : (settled records).map (·.sides) = records.map (·.sides) := by
  conv_rhs => rw [← List.zipIdx_map_fst 0 records, List.map_map]
  rw [settled, List.map_map]
  rfl

theorem settled_append :
    settled (records ++ [r]) = settled records ++ [r.settled records.length] := by
  simp [settled, List.zipIdx_append]

theorem exists_mem_iff_of_forall₂ {α β : Type} {R : α → β → Prop} {p : α → Prop} {q : β → Prop}
    {as : List α} {bs : List β} (h : List.Forall₂ R as bs) (hpq : ∀ a b, R a b → (p a ↔ q b)) :
    (∃ a ∈ as, p a) ↔ ∃ b ∈ bs, q b := by
  induction h
  case nil           => simp
  case cons hab _ hi => simp [hpq _ _ hab, hi]

-- A rule is new iff its record is.
theorem Loads.mem_map_sides_iff (h : Loads records symbols d)
    (hl : d.vocabulary.Reads r.origin (.nonterminal left))
    (hr : List.Forall₂ d.vocabulary.Reads r.expansion right) :
    r.sides ∈ records.map (·.sides) ↔ ∃ rule ∈ d.rules, rule.left = left ∧ rule.right = right := by
  rw [← map_sides_settled, List.mem_map]
  simp only [← Array.mem_toList_iff]
  refine exists_mem_iff_of_forall₂ h.rules fun r' rule hrule => ?_
  constructor
  case mp =>
    intro hsides
    obtain ⟨ho, he⟩ := Prod.mk.inj hsides
    refine ⟨?_, ?_⟩
    · exact Symbol.nonterminal.inj <| (ho ▸ hrule.left).unique hl
    · exact Vocabulary.Reads.rightUnique.forall₂ (he ▸ hrule.right) hr
  case mpr =>
    rintro ⟨rfl, rfl⟩
    have hunique := Vocabulary.Reads.leftUnique h.holds.sound
    rw [RuleRecord.sides, RuleRecord.sides, hunique hrule.left hl, hunique.forall₂ hrule.right hr]

theorem exists_of_forall₂ {α β : Type} {R : α → β → Prop} {as : List α} {bs : List β} {b : β}
    (h : List.Forall₂ R as bs) (hb : b ∈ bs) : ∃ a, R a b := by
  induction h
  case nil           => contradiction
  case cons hab _ hi =>
    cases List.mem_cons.mp hb
    case inl hb => exact ⟨_, hb ▸ hab⟩
    case inr hb => exact hi hb

theorem admits_of_reads {v : Vocabulary} {order : Nat} {priority : Int} (hv : v.IsSound)
    (hl : v.Reads r.origin (.nonterminal left)) (hr : List.Forall₂ v.Reads r.expansion right) :
    Admits v ⟨left, right, order, priority⟩ where
  left_ne_accept := hl.not_reserved
  declares_left  := hl.declares hv
  declares_right := fun _ hs => (exists_of_forall₂ hr hs).elim fun _ h => h.declares hv
  not_reserved   := fun _ hs => (exists_of_forall₂ hr hs).elim fun _ h => h.not_reserved

theorem refusal?_eq_none {order : Nat} {priority : Int}
    (ha : Admits d.vocabulary ⟨left, right, order, priority⟩)
    (hnew : ¬ ∃ rule ∈ d.rules, rule.left = left ∧ rule.right = right)
    (hfree : d.rules.size + RuleId.firstFree < Vocabulary.capacity) :
    d.refusal? left right = none := by
  have hdeclared :
      (.nonterminal left :: right).find? (fun s => ¬ d.vocabulary.Declares s) = none := by
    simpa using ⟨ha.declares_left, ha.declares_right⟩
  have hreserved : ¬ (left = .accept ∨ right.any fun s => s.IsReserved) := by
    simpa using ⟨ha.left_ne_accept, ha.not_reserved⟩
  have hany : (d.rules.any fun rule => rule.left = left ∧ rule.right = right) = false := by
    refine Bool.eq_false_iff.mpr fun hany => hnew ?_
    obtain ⟨rule, hmem, hsides⟩ := Array.any_eq_true'.mp hany
    exact ⟨rule, hmem, of_decide_eq_true hsides⟩
  rw [refusal?, hdeclared]
  simp only [hreserved, hany, Nat.not_le_of_lt hfree, Bool.false_eq_true, if_false]

theorem nodup_map_append_iff {α β : Type} {f : α → β} {xs : List α} {x : α} :
    ((xs ++ [x]).map f).Nodup ↔ f x ∉ xs.map f ∧ (xs.map f).Nodup := by
  rw [List.map_append, List.map_singleton, ← List.concat_eq_append, List.nodup_concat]

-- What it takes for one more record, apart from its symbols.
theorem areRules_append_iff : AreRules (records ++ [r]) ↔ AreRules records ∧
    AreDeclarable (records.flatMap (·.symbols) ++ r.symbols) ∧
    (∃ name, r.origin = .nonterminal name) ∧ r.sides ∉ records.map (·.sides) ∧
    records.length + 1 ≤ 65534 := by
  have hsymbols : (records ++ [r]).flatMap (·.symbols) =
      records.flatMap (·.symbols) ++ r.symbols := by
    simp
  constructor
  case mp =>
    intro h
    refine ⟨h.of_append, hsymbols ▸ h.symbols, h.origins r (by simp), ?_, ?_⟩
    · exact (nodup_map_append_iff.mp h.distinct).left
    · simpa using h.length
  case mpr =>
    rintro ⟨h, hd, ho, hnew, hlength⟩
    constructor
    case symbols  => exact hsymbols ▸ hd
    case length   => simpa using hlength
    case origins  =>
      intro r' hr'
      cases List.mem_append.mp hr'
      case inl hr' => exact h.origins r' hr'
      case inr hr' => exact List.mem_singleton.mp hr' ▸ ho
    case distinct => exact nodup_map_append_iff.mpr ⟨hnew, h.distinct⟩

theorem settled_priority {position : Nat} : (r.settled position).priority? = some r.priority := by
  obtain ⟨_, _, _, priority?, options?⟩ := r
  cases priority? <;> cases options? <;> rfl

theorem Loads.size_eq (h : Loads records symbols d) : d.rules.size = records.length := by
  simpa [settled] using h.rules.length_eq.symm

-- The rule of a record is refused iff the record cannot be added to the others.
theorem Loads.refusal?_eq_none_iff
    (h : Loads records (records.flatMap (·.symbols) ++ r.symbols) d)
    (ho : ∃ name, r.origin = .nonterminal name)
    (hl : d.vocabulary.Reads r.origin (.nonterminal left))
    (hr : List.Forall₂ d.vocabulary.Reads r.expansion right) :
    d.refusal? left right = none ↔ AreRules (records ++ [r]) := by
  have hsides := h.mem_map_sides_iff hl hr
  have hsize := h.size_eq
  constructor
  case mp =>
    intro hnone
    obtain ⟨hfree, hnew⟩ := fresh_of_refusal?_eq_none hnone
    refine areRules_append_iff.mpr ⟨h.areRules, h.holds.areDeclarable, ho, ?_, ?_⟩
    · rw [hsides]
      rintro ⟨rule, hmem, hsame⟩
      exact hnew rule hmem hsame
    · simp only [Vocabulary.capacity, RuleId.firstFree] at hfree
      omega
  case mpr =>
    intro ha
    obtain ⟨_, _, _, hnew, hlength⟩ := areRules_append_iff.mp ha
    have hadmits : Admits d.vocabulary ⟨left, right, 0, 0⟩ := admits_of_reads h.holds.sound hl hr
    refine refusal?_eq_none hadmits (mt hsides.mpr hnew) ?_
    simp only [Vocabulary.capacity, RuleId.firstFree]
    omega

theorem rule_succeeds (h : Loads records (records.flatMap (·.symbols) ++ r.symbols) d)
    (ho : ∃ name, r.origin = .nonterminal name)
    (hl : d.vocabulary.Reads r.origin (.nonterminal left))
    (hr : List.Forall₂ d.vocabulary.Reads r.expansion right) :
    SucceedsIf
      (require <| d.ruleWithOrder left right (r.order?.getD records.length) r.priority)
      (fun p => Loads (records ++ [r]) ((records ++ [r]).flatMap (·.symbols)) p.1)
      (AreRules (records ++ [r])) := by
  have hrefusal := h.refusal?_eq_none_iff ho hl hr
  cases hnone : d.refusal? left right
  case some e =>
    have hrule : d.ruleWithOrder left right (r.order?.getD records.length) r.priority =
        (d, .error e) := by
      rw [ruleWithOrder, hnone]
    rw [hrule]
    exact .error fun ha => by simp [hrefusal.mpr ha] at hnone
  case none =>
    have hrule : d.ruleWithOrder left right (r.order?.getD records.length) r.priority =
        ({ d with rules := d.rules.push ⟨left, right, r.order?.getD records.length, r.priority⟩ },
          .ok ⟨d.rules.size + RuleId.firstFree⟩) := by
      rw [ruleWithOrder, hnone]
    rw [hrule]
    refine .ok ⟨?calls, ?holds, ?rules, hrefusal.mp hnone⟩
    case calls =>
      obtain ⟨calls, hc⟩ := h.calls
      refine ⟨calls ++ [.ruleWithOrder left right (r.order?.getD records.length) r.priority], ?_⟩
      rw [afterCalls_append, hc, Call.apply, hrule]
    case holds => simpa using h.holds
    case rules =>
      rw [settled_append, Array.toList_push]
      exact List.rel_append h.rules <| .cons ⟨hl, hr, rfl, settled_priority, rfl⟩ .nil

theorem record_succeeds (h : Loads records (records.flatMap (·.symbols)) d) (r : RuleRecord) :
    SucceedsIf (d.record records.length r)
      (Loads (records ++ [r]) ((records ++ [r]).flatMap (·.symbols)))
      (AreRules (records ++ [r])) := by
  rw [record]
  cases ho : r.origin
  case terminal x =>
    refine .error fun ha => ?_
    obtain ⟨name, hname⟩ := ha.origins r (by simp)
    cases ho.symm.trans hname
  case nonterminal x =>
    have hsymbols : records.flatMap (·.symbols) ++ r.symbols =
        records.flatMap (·.symbols) ++ [.nonterminal x] ++ r.expansion := by
      rw [RuleRecord.symbols, ho, List.append_cons]
    have hdeclarable (ha : AreRules (records ++ [r])) :
        AreDeclarable (records.flatMap (·.symbols) ++ [.nonterminal x] ++ r.expansion) :=
      hsymbols ▸ (areRules_append_iff.mp ha).right.left
    refine (nonterminal_succeeds h.holds x).bind (fun ha => (hdeclarable ha).mono <| by simp) ?_
    rintro ⟨d₁, left⟩ ⟨hg₁, hl⟩
    refine (symbols_succeeds hg₁.holds r.expansion).bind hdeclarable ?_
    rintro ⟨d₂, right⟩ ⟨hg₂, hr⟩
    have hloads : Loads records (records.flatMap (·.symbols) ++ r.symbols) d₂ :=
      hsymbols ▸ (h.grow hg₁).grow hg₂
    refine (rule_succeeds hloads ⟨x, ho⟩ (ho ▸ hl.mono hg₂.keeps) hr).bind id ?_
    exact fun _ hp => .ok hp

theorem records_succeeds (h : Loads records (records.flatMap (·.symbols)) d)
    (rs : List RuleRecord) :
    SucceedsIf (d.records records.length rs)
      (Loads (records ++ rs) ((records ++ rs).flatMap (·.symbols))) (AreRules (records ++ rs)) := by
  induction rs generalizing d records
  case nil =>
    rw [List.append_nil]
    exact .ok h
  case cons r rs hi =>
    rw [List.append_cons]
    refine (record_succeeds h r).bind (·.of_append) fun d' hd => ?_
    have hrest := hi hd
    rwa [List.length_append, List.length_singleton] at hrest

end Rules

end Draft

namespace Grammar

-- The rules that were declared, in the order of their numbers.
def userRules (g : Grammar) : List Rule :=
  g.rules.toList.drop RuleId.firstFree

-- The grammar says what the records say, rule by rule.
structure IsLoaded (records : List RuleRecord) (start : String) (g : Grammar) : Prop where
  isDefined : g.IsDefined
  rules     : g.userRules.map g.vocabulary.ruleRecord = settled records
  start     : g.vocabulary.record (.nonterminal g.start) = .nonterminal start

end Grammar

namespace Draft

variable {d : Draft} {records : List RuleRecord} {symbols : List SymbolRecord} {start : String}

namespace Loads

theorem exists_origin_iff (h : Loads records symbols d) :
    (∃ r ∈ records, r.origin.name = start) ↔
      ∃ rule ∈ d.rules, d.vocabulary.Reads (.nonterminal start) (.nonterminal rule.left) := by
  have hsettled : (∃ r ∈ records, r.origin.name = start) ↔
      ∃ r ∈ settled records, r.origin.name = start := by
    have hside (rs : List RuleRecord) : (∃ r ∈ rs, r.origin.name = start) ↔
        ∃ side ∈ rs.map (·.sides), side.1.name = start := by
      simp [RuleRecord.sides]
    rw [hside, hside, map_sides_settled]
  simp only [hsettled, ← Array.mem_toList_iff]
  refine exists_mem_iff_of_forall₂ h.rules fun r rule hrule => ?_
  have hkind : .nonterminal r.origin.name = r.origin := hrule.left.kind
  constructor
  case mp =>
    rintro rfl
    exact hkind ▸ hrule.left
  case mpr =>
    intro hreads
    rw [Vocabulary.Reads.leftUnique h.holds.sound hrule.left hreads]
    rfl

theorem map_ruleRecord (h : Loads records symbols d) :
    d.rules.toList.map d.vocabulary.ruleRecord = settled records := by
  have heq : List.Forall₂ (· = ·) (settled records) (d.rules.toList.map d.vocabulary.ruleRecord) :=
    List.forall₂_map_right_iff.mpr <|
      h.rules.imp fun _ _ hr => (hr.ruleRecord_eq h.holds.sound).symm
  rw [List.forall₂_eq_eq_eq] at heq
  exact heq.symm

theorem finish_succeeds {n : Nonterminal} (h : Loads records symbols d)
    (hn : d.vocabulary.Reads (.nonterminal start) (.nonterminal n)) :
    SucceedsIf (d.startSymbol n).finish
      (fun g => (∃ r ∈ records, r.origin.name = start) ∧ g.IsLoaded records start)
      (∃ r ∈ records, r.origin.name = start) := by
  rw [h.exists_origin_iff]
  obtain ⟨⟨name, he⟩, hnone⟩ | ⟨s, hs, ⟨rule, hmem, hleft⟩, hok⟩ :=
    Grammar.finish_cases (d.startSymbol n)
  case inl =>
    rw [he]
    refine .error ?_
    rintro ⟨rule, hmem, hrule⟩
    exact hnone n rfl rule hmem <| Symbol.nonterminal.inj <| hrule.unique hn
  case inr =>
    cases hs
    rw [hok]
    refine .ok ⟨⟨rule, hmem, hleft ▸ hn⟩, ?_, ?_, hn.record_eq h.holds.sound⟩
    · obtain ⟨calls, hc⟩ := h.calls
      exact ⟨calls ++ [.startSymbol n], by rw [afterCalls_append, hc]; exact hok⟩
    · rw [← h.map_ruleRecord]
      simp [Grammar.userRules, startSymbol, RuleId.firstFree]

theorem start_succeeds (h : Loads records symbols d) (start : String) :
    SucceedsIf (do let (d, _) ← require (d.startSymbolByName start); d.finish)
      (fun g => (∃ r ∈ records, r.origin.name = start) ∧ g.IsLoaded records start)
      (∃ r ∈ records, r.origin.name = start) := by
  by_cases hn : ∃ n, d.vocabulary.Reads (.nonterminal start) (.nonterminal n)
  case pos =>
    obtain ⟨n, hn⟩ := hn
    have hstart : d.startSymbolByName start = (d.startSymbol n, .ok ()) := by
      have hs : d.vocabulary.symbol? start = some (.nonterminal n) := hn.symbol?
      have hne : n ≠ .accept := hn.not_reserved
      simp [startSymbolByName, hs, hne]
    rw [hstart]
    exact h.finish_succeeds hn
  case neg =>
    have hstart : d.startSymbolByName start = (d, .error (.startNotFound start)) := by
      rw [startSymbolByName]
      split
      case h_2 => rfl
      case h_1 n hs =>
        by_cases hr : n = .accept
        case pos => rw [if_pos hr]
        case neg => exact absurd ⟨n, .of_symbol? hs hr⟩ hn
    rw [hstart]
    refine .error ?_
    rw [h.exists_origin_iff]
    rintro ⟨rule, _, hrule⟩
    exact hn ⟨_, hrule⟩

end Loads
end Draft

-- For every list of records and every start name. If anything is wrong with them there is no
-- grammar, and otherwise there is one whose rules read back as the records, in their order.
theorem loading_exact (records : List RuleRecord) (start : String) :
    ((∃ g, Grammar.ofRecords records start = .ok g) ↔ IsLoadable records start) ∧
    ∀ g, Grammar.ofRecords records start = .ok g → g.IsLoaded records start := by
  have h : SucceedsIf (Grammar.ofRecords records start)
      (fun g => IsLoadable records start ∧ g.IsLoaded records start)
      (IsLoadable records start) := by
    have hrecords := Draft.records_succeeds .init records
    refine hrecords.bind (·.toAreRules) fun d hd => (hd.start_succeeds start).imp ?_ (·.start)
    exact fun _ hg => ⟨⟨hd.areRules, hg.left⟩, hg.right⟩
  exact ⟨h.exists_ok_iff fun _ hg => hg.left, fun g hg => (h.of_eq_ok hg).right⟩

-- Two rules for one nonterminal, the second one empty, over a terminal that looks like the marker.
def markedRecords : List RuleRecord := [
  { origin := .nonterminal "S", expansion := [.nonterminal "S", .terminal "#"], order? := some 7 },
  { origin := .nonterminal "S", expansion := [], options? := some { priority? := some 3 } }]

theorem loading_exact_on_marked : IsLoadable markedRecords "S" ∧
    ∃ g, Grammar.ofRecords markedRecords "S" = .ok g ∧ g.IsLoaded markedRecords "S" := by
  have hloadable : IsLoadable markedRecords "S" := by
    refine ⟨⟨⟨by decide, fun name ht hn => ?_, by decide, by decide⟩, ?_, by decide, by decide⟩, ?_⟩
    · simp_all [markedRecords, RuleRecord.symbols]
    · simp [markedRecords]
    · simp [markedRecords, SymbolRecord.name]
  obtain ⟨hiff, hloaded⟩ := loading_exact markedRecords "S"
  obtain ⟨g, hg⟩ := hiff.mpr hloadable
  exact ⟨hloadable, g, hg, hloaded g hg⟩

example : settled markedRecords = [
    { origin := .nonterminal "S", expansion := [.nonterminal "S", .terminal "#"], order? := some 7,
      priority? := some 0 },
    { origin := .nonterminal "S", expansion := [], order? := some 1, priority? := some 3 }] := by
  decide

end ShiftReduce
