import ShiftReduce.Proofs.Construction.Justification
import ShiftReduce.Proofs.Derivation.Beginnings
import ShiftReduce.Proofs.Parser.Completeness

namespace ShiftReduce

open Relation

-- The state on top of a stack above the state `s`.
def topAbove (s : StateId) (σ : List StateId) : StateId :=
  σ.headD s

namespace ParseTable

-- The reduction takes off nothing below the stack `σ`, which stands on the state `s`.
inductive Reduces (t : ParseTable) (x : Terminal) (s : StateId) :
    List StateId → List StateId → Prop
  | step {σ r q} :
    t.action? (topAbove s σ) x = some (.reduce r) → (t.grammar.right r).length ≤ σ.length →
    t.goto? (topAbove s <| σ.drop (t.grammar.right r).length) (t.grammar.left r) = some q →
    Reduces t x s σ (q :: σ.drop (t.grammar.right r).length)

def ReducesTo (t : ParseTable) (x : Terminal) (s : StateId) :
    List StateId → List StateId → Prop :=
  ReflTransGen (t.Reduces x s)

def IsStuck (t : ParseTable) (x : Terminal) (s : StateId) (σ : List StateId) : Prop :=
  ∀ σ', ¬ t.Reduces x s σ σ'

-- No reduction is due, above any state.
def IsIdle (t : ParseTable) (x : Terminal) (s : StateId) (σ : List StateId) : Prop :=
  ∀ r, t.action? (topAbove s σ) x ≠ some (.reduce r)

variable {t : ParseTable} {x : Terminal} {s : StateId} {σ σ' τ τ' : List StateId} {r : RuleId}

theorem topAbove_append : topAbove s (σ ++ τ) = topAbove (topAbove s τ) σ := by
  cases σ <;> rfl

theorem Reduces.eq (h : t.Reduces x s σ τ) (h' : t.Reduces x s σ τ') : τ = τ' := by
  cases h
  case step r q ha _ hq =>
    cases h'
    case step r' q' ha' _ hq' =>
      cases ha.symm.trans ha'
      cases hq.symm.trans hq'
      rfl

theorem Reduces.append (h : t.Reduces x (topAbove s τ) σ σ') :
    t.Reduces x s (σ ++ τ) (σ' ++ τ) := by
  cases h
  case step r q ha hle hq =>
    rw [List.cons_append, ← List.drop_append_of_le_length hle]
    refine .step (topAbove_append ▸ ha) (Nat.le_trans hle <| by simp) ?_
    rwa [List.drop_append_of_le_length hle, topAbove_append]

theorem ReducesTo.append (h : t.ReducesTo x (topAbove s τ) σ σ') :
    t.ReducesTo x s (σ ++ τ) (σ' ++ τ) :=
  h.lift (· ++ τ) fun _ _ hr => hr.append

-- On top of the state that a reduction leads to, the reductions go on.
theorem ReducesTo.over {q : StateId} (h : t.ReducesTo x s σ τ) (hr : t.Reduces x s τ [q])
    (h' : t.ReducesTo x q [] σ') : t.ReducesTo x s σ (σ' ++ [q]) :=
  (ReflTransGen.tail h hr).trans (ReducesTo.append (τ := [q]) h')

theorem isStuck_of_reduce (ha : t.action? (topAbove s σ) x = some (.reduce r))
    (hlt : σ.length < (t.grammar.right r).length) : t.IsStuck x s σ := by
  intro σ' h
  cases h
  case step ha' hle _ =>
    cases ha.symm.trans ha'
    omega

theorem isIdle_of_action? {α : Action} (ha : t.action? (topAbove s σ) x = some α)
    (h : ∀ r, α ≠ .reduce r) : t.IsIdle x s σ := by
  intro r hr
  exact h r <| Option.some.inj <| ha.symm.trans hr

theorem IsIdle.append (h : t.IsIdle x (topAbove s τ) σ) : t.IsIdle x s (σ ++ τ) :=
  fun r => topAbove_append ▸ h r

theorem IsIdle.isStuck (h : t.IsIdle x s σ) : t.IsStuck x s σ := by
  intro σ' hr
  cases hr
  case step ha _ _ => exact h _ ha

-- Reductions end in one way only.
theorem ReducesTo.eq_of_isStuck (h : t.ReducesTo x s σ τ) (h' : t.ReducesTo x s σ τ')
    (hs : t.IsStuck x s τ) (hs' : t.IsStuck x s τ') : τ = τ' := by
  have hstuck {σ σ' : List StateId} (hs : t.IsStuck x s σ) (h : t.ReducesTo x s σ σ') : σ = σ' := by
    cases ReflTransGen.cases_head h
    case inl he => exact he
    case inr hr =>
      obtain ⟨_, hr, _⟩ := hr
      exact absurd hr <| hs _
  have hunique : Relator.RightUnique (t.Reduces x s) := fun _ _ _ => Reduces.eq
  cases ReflTransGen.total_of_right_unique hunique h h'
  case inl hτ => exact hstuck hs hτ
  case inr hτ => exact (hstuck hs' hτ).symm

end ParseTable

-- The stack above `s` holds the symbols behind the dot of the item, which is complete on top and
-- may act on the terminal.
structure Completed (ctx : Context) (a : Automaton) (x : Terminal) (s : StateId) (c : Core)
    (σ : List StateId) : Prop where
  length : σ.length = ((ctx.grammar.right c.rule).drop c.dot).length
  looks  : a.Looks ctx (topAbove s σ) ⟨c.rule, (ctx.grammar.right c.rule).length⟩ x

variable {ctx : Context} {a : Automaton} {t : ParseTable} {x : Terminal} {s q : StateId} {n : Node}
  {c d : Core} {r : RuleId} {σ : List StateId} {ss : List Symbol} {y : Symbol}

-- The state below the rest of an advanced item stands for the symbol that it was advanced over.
theorem Completed.of_advance (h : Completed ctx a x q c.advance σ)
    (hnext : c.next? ctx.grammar = some y) : Completed ctx a x s c (σ ++ [q]) where
  length := by
    have hlt : c.dot < (ctx.grammar.right c.rule).length :=
      (List.getElem?_eq_some_iff.mp hnext).choose
    have hlength : σ.length = ((ctx.grammar.right c.rule).drop (c.dot + 1)).length := h.length
    rw [List.length_append, hlength, List.length_drop, List.length_drop, List.length_singleton]
    omega
  looks  := ParseTable.topAbove_append ▸ h.looks

section Decided

variable (ht : Parser.Decides ctx a t) (hx : x ≠ .marker)

include ht

theorem Completed.action?_accept (h : Completed ctx a x s c σ) (hr : c.rule = .accept)
    (hx : x = .endOfInput) : t.action? (topAbove s σ) x = some .accept := by
  subst hx
  have hlooks := h.looks
  rw [hr] at hlooks
  have := ht.table.action?_eq_completion ht.conflict ht.foresees Terminal.endOfInput_ne_marker
    hlooks fun _ => rfl
  rwa [completion, if_pos ht.grammar.left_accept] at this

include hx

theorem Completed.action?_eq (h : Completed ctx a x s c σ) (hr : c.rule ≠ .accept) :
    t.action? (topAbove s σ) x = some (.reduce c.rule) := by
  obtain ⟨n, hn, hcore, _⟩ := h.looks
  have hleft : ctx.grammar.left c.rule ≠ .accept := fun hl =>
    hr <| (ht.grammar.left_eq_accept_iff (ht.coherent.valid hn _ hcore).left).mp hl
  have := ht.table.action?_eq_completion ht.conflict ht.foresees hx h.looks (absurd · hleft)
  rwa [completion, if_neg hleft] at this

-- An item that began below `s` cannot be reduced above it.
theorem Completed.isStuck (h : Completed ctx a x s c σ) (hl : a.Looks ctx s c x)
    (hr : c.rule ≠ .accept) (hdot : c.dot ≠ 0) : t.IsStuck x s σ := by
  obtain ⟨n, hn, hcore⟩ := hl.exists_node
  have hle := (ht.coherent.valid hn _ hcore).right
  refine ParseTable.isStuck_of_reduce (h.action?_eq ht hx hr) ?_
  rw [h.length, List.length_drop, ht.table.grammar]
  omega

-- A rule that began at `s` is reduced.
theorem Completed.reduces (h : Completed ctx a x s ⟨r, 0⟩ σ) (hr : r ≠ .accept)
    (hq : a.transition? s (.nonterminal <| ctx.grammar.left r) = some q) :
    t.Reduces x s σ [q] := by
  have hgrammar := ht.table.grammar
  have hlength : σ.length = (t.grammar.right r).length := hgrammar ▸ h.length
  have hdrop : σ.drop (t.grammar.right r).length = [] := by simp [← hlength]
  have hgoto : t.goto? s (t.grammar.left r) = some q :=
    hgrammar ▸ ht.table.goto?_eq_of_transition? ht.coherent hq
  have hstep := ParseTable.Reduces.step (t := t) (s := s) (q := q) (h.action?_eq ht hx hr)
    hlength.ge (by rwa [hdrop])
  rwa [hdrop] at hstep

-- An item that was predicted at `s` is reduced, and the reductions go on from there.
theorem Completed.over {τ σ' : List StateId} (h : Completed ctx a x s d τ)
    (hd : d ∈ c.predicted ctx.grammar)
    (hq : a.transition? s (.nonterminal <| ctx.grammar.left d.rule) = some q)
    (hτ : t.ReducesTo x s σ τ) (hσ' : t.ReducesTo x q [] σ') :
    t.ReducesTo x s σ (σ' ++ [q]) := by
  have hne := rule_ne_accept_of_mem_predicted ht.grammar hd
  have hd : d = ⟨d.rule, 0⟩ := (mem_predicted.mp hd).left ▸ rfl
  exact hτ.over ((hd ▸ h).reduces ht hx hne hq) hσ'

-- The induction is on the derivation of the empty string.
theorem exists_completed (hv : ctx.grammar.Vanishes ss)
    (hss : (ctx.grammar.right c.rule).drop c.dot = ss) (hl : a.Looks ctx s c x) :
    ∃ σ, t.ReducesTo x s [] σ ∧ Completed ctx a x s c σ := by
  induction hv generalizing s c
  case nil =>
    obtain ⟨n, hn, hcore⟩ := hl.exists_node
    have hend := ht.coherent.eq_of_isEnd hn hcore <| List.drop_eq_nil_iff.mp hss
    exact ⟨[], .refl, by simp [hss], hend ▸ hl⟩
  case cons r ss hr _ hvanishes hright hi =>
    obtain ⟨hnext, hafter⟩ := next?_of_drop hss
    obtain ⟨n, hn, hcore⟩ := hl.exists_node
    obtain ⟨q, hq⟩ := ht.coherent.exists_transition? hn hcore hnext
    have hd : ⟨r, 0⟩ ∈ c.predicted ctx.grammar := mem_predicted.mpr ⟨rfl, hr, hnext⟩
    have hnull := (ctx.nullableSeq_iff ht.grammar).mpr <| hafter.symm ▸ hvanishes
    obtain ⟨σ, hσ, hcompleted⟩ := hright (c := ⟨r, 0⟩) rfl <| ht.foresees.passed hl hd hnull
    obtain ⟨σ', hσ', hcompleted'⟩ := hi (c := c.advance) hafter <|
      ht.foresees.advance ht.coherent hl hnext hq
    exact ⟨σ' ++ [q], hcompleted.over ht hx hd hq hσ hσ', hcompleted'.of_advance hnext⟩

-- The induction is on the derivation of a sequence with the terminal in front.
theorem exists_shift (hb : ctx.grammar.Begins ss x)
    (hss : (ctx.grammar.right c.rule).drop c.dot = ss) (hn : a.node? s = some n)
    (hcore : c ∈ n.items.closure.map Item.core) :
    ∃ σ q, t.ReducesTo x s [] σ ∧ t.action? (topAbove s σ) x = some (.shift q) := by
  induction hb generalizing s n c
  case terminal =>
    obtain ⟨hnext, _⟩ := next?_of_drop hss
    obtain ⟨q, hq⟩ := ht.coherent.exists_transition? hn hcore hnext
    exact ⟨[], q, .refl, ht.table.action?_eq_shift ht.conflict ht.coherent hq⟩
  case inside r ss x hr _ hi =>
    obtain ⟨hnext, _⟩ := next?_of_drop hss
    exact hi hx (c := ⟨r, 0⟩) rfl hn <| ht.coherent.mem_closure_of_predicted hn hcore <|
      mem_predicted.mpr ⟨rfl, hr, hnext⟩
  case behind r ss x hr hvanishes hbegins hi =>
    obtain ⟨hnext, hafter⟩ := next?_of_drop hss
    obtain ⟨q, hq⟩ := ht.coherent.exists_transition? hn hcore hnext
    have hd : ⟨r, 0⟩ ∈ c.predicted ctx.grammar := mem_predicted.mpr ⟨rfl, hr, hnext⟩
    have hmem := (ctx.mem_ofSeq_iff ht.grammar).mpr <| hafter.symm ▸ hbegins
    obtain ⟨σ, hσ, hcompleted⟩ := exists_completed ht hx hvanishes (c := ⟨r, 0⟩) rfl <|
      ht.foresees.generated hn hcore hd hmem
    obtain ⟨m, hm, hadvance⟩ := ht.coherent.advance_mem_closure hn hcore hnext hq
    obtain ⟨σ', p, hσ', hshift⟩ := hi hx (c := c.advance) hafter hm hadvance
    exact ⟨σ' ++ [q], p, hcompleted.over ht hx hd hq hσ hσ', ParseTable.topAbove_append ▸ hshift⟩

omit hx in
theorem Completed.isIdle_of_accept (h : Completed ctx a x s c σ) (hj : a.Justifies ctx s c x)
    (hr : c.rule = .accept) : t.IsIdle x s σ :=
  ParseTable.isIdle_of_action? (h.action?_accept ht hr <| hj.eq_endOfInput ht.grammar hr) nofun

-- The induction is on the reasons for the lookahead. An item that was predicted is reduced, and the
-- predicting item goes on: its rest begins with the terminal, or it is completed in turn.
theorem Completed.exists_kernel (hj : a.Justifies ctx s c x)
    (hv : ctx.grammar.Vanishes ((ctx.grammar.right c.rule).drop c.dot))
    (h : Completed ctx a x s c σ) : ∃ σ', t.ReducesTo x s σ σ' ∧ (t.IsIdle x s σ' ∨
      ∃ k, k.dot ≠ 0 ∧ k.rule ≠ .accept ∧ a.Looks ctx s k x ∧
        ctx.grammar.Vanishes ((ctx.grammar.right k.rule).drop k.dot) ∧
        Completed ctx a x s k σ') := by
  induction hj generalizing σ
  case start => exact ⟨σ, .refl, .inl <| h.isIdle_of_accept ht .start rfl⟩
  case generated s n c d x hn hcore hd hmem =>
    obtain ⟨_, _, hnext⟩ := mem_predicted.mp hd
    obtain ⟨q, hq⟩ := ht.coherent.exists_transition? hn hcore hnext
    obtain ⟨m, hm, hadvance⟩ := ht.coherent.advance_mem_closure hn hcore hnext hq
    obtain ⟨σ', p, hσ', hshift⟩ := exists_shift ht hx ((ctx.mem_ofSeq_iff ht.grammar).mp hmem)
      (c := c.advance) rfl hm hadvance
    refine ⟨σ' ++ [q], h.over ht hx hd hq .refl hσ', .inl ?_⟩
    have hidle : t.IsIdle _ q σ' := ParseTable.isIdle_of_action? hshift nofun
    exact hidle.append (τ := [q])
  case passed s c d x hj hd hnull hi =>
    obtain ⟨hdot, hrule, hnext⟩ := mem_predicted.mp hd
    have hl := hj.looks ht.coherent ht.foresees
    obtain ⟨n, hn, hcore⟩ := hl.exists_node
    obtain ⟨q, hq⟩ := ht.coherent.exists_transition? hn hcore hnext
    have hafter := (ctx.nullableSeq_iff ht.grammar).mp hnull
    obtain ⟨σ', hσ', hcompleted⟩ := exists_completed ht hx hafter (c := c.advance) rfl <|
      ht.foresees.advance ht.coherent hl hnext hq
    have hrest : ctx.grammar.Vanishes ((ctx.grammar.right c.rule).drop c.dot) := by
      rw [drop_of_next? hnext]
      exact .cons hrule (by simpa [hdot] using hv) hafter
    obtain ⟨σ'', hσ'', hend⟩ := hi hx hrest <| hcompleted.of_advance hnext
    exact ⟨σ'', (h.over ht hx hd hq .refl hσ').trans hσ'', hend⟩
  case shifted p s c x y hj hnext hq _ =>
    have hj := hj.shifted hnext hq
    by_cases hr : c.rule = .accept
    case pos => exact ⟨σ, .refl, .inl <| h.isIdle_of_accept ht hj hr⟩
    case neg =>
      refine ⟨σ, .refl, .inr ⟨c.advance, Nat.succ_ne_zero _, hr, ?_, hv, h⟩⟩
      exact hj.looks ht.coherent ht.foresees

end Decided
end ShiftReduce
