import Mathlib.Data.String.Basic
import ShiftReduce.Proofs.Parser.Completeness
import ShiftReduce.Proofs.Parser.Safety
import ShiftReduce.Proofs.Table.Visits

namespace ShiftReduce

open Automaton Grammar

namespace TokenStream

-- The tokens before the index, with others behind them.
def resume (s : TokenStream) (index : Nat) (rest : List Token) : TokenStream where
  tokens := (s.tokens.toList.take index ++ rest).toArray

variable {s : TokenStream} {i k : Nat} {rest : List Token}

theorem get?_resume_of_lt (hk : k ≤ s.length) (hi : i < k) :
    (s.resume k rest).get? i = s.get? i := by
  have hlength : i < (s.tokens.toList.take k).length := by
    simpa using ⟨hi, Nat.lt_of_lt_of_le hi hk⟩
  rw [get?, get?, resume, List.getElem?_toArray, List.getElem?_append_left hlength,
    List.getElem?_take_of_lt hi, Array.getElem?_toList]

theorem get?_resume_self (hk : k ≤ s.length) : (s.resume k rest).get? k = rest.head? := by
  have hlength : (s.tokens.toList.take k).length = k := List.length_take_of_le hk
  rw [get?, resume, List.getElem?_toArray, List.getElem?_append_right (Nat.le_of_eq hlength),
    hlength, Nat.sub_self, List.head?_eq_getElem?]

theorem kindsBefore_resume (hk : k ≤ s.length) :
    (s.resume k rest).kindsBefore k = s.kindsBefore k := by
  have hlength : (s.tokens.toList.take k).length = k := List.length_take_of_le hk
  rw [kindsBefore, kindsBefore, resume, List.take_append_of_le_length (Nat.le_of_eq hlength.symm),
    List.take_take, Nat.min_self]

end TokenStream

variable {ctx : Context} {a : Automaton} {t : ParseTable} {tokens s : TokenStream} {token : Token}
  {p : Parser} {w : List Terminal} {x : Terminal} {α : Action} {r : RuleId} {m n k : Nat}

namespace Parser

section Runs

-- A parser of the stream, after so many steps.
def after (t : ParseTable) (tokens : TokenStream) (n : Nat) : Parser :=
  (fun p => p.step.1)^[n] (initial t tokens)

theorem after_succ : after t tokens (n + 1) = (after t tokens n).step.1 :=
  Function.iterate_succ_apply' ..

theorem cursor_le_step : p.cursor ≤ p.step.1.cursor := by
  have hperforms := p.performs_step
  generalize p.step = result at hperforms
  cases hperforms
  case halted | exhausted | unexpected | accept | goto => exact Nat.le_refl _
  case shift                                           => exact Nat.le_succ _
  case reduce r _ _ =>
    obtain ⟨_, hstack⟩ := p.exists_reduce_eq r
    rw [hstack]

theorem cursor_after_le (h : m ≤ n) : (after t tokens m).cursor ≤ (after t tokens n).cursor := by
  refine monotone_nat_of_le_succ (f := fun n => (after t tokens n).cursor) (fun n => ?_) h
  rw [after_succ]
  exact cursor_le_step

-- A parser that has halted stays as it is.
theorem after_of_halted (h : (after t tokens m).status ≠ .running) (hn : m ≤ n) :
    after t tokens n = after t tokens m := by
  have hfixed : (after t tokens m).step.1 = after t tokens m := by rw [step, if_pos h]
  rw [after, ← Nat.sub_add_cancel hn, Function.iterate_add_apply]
  exact Function.iterate_fixed hfixed _

theorem not_failed_of_accepted (hm : (after t tokens m).status = .accepted) :
    (after t tokens n).status ≠ .failed := by
  intro hn
  cases Nat.le_total m n
  case inl h =>
    rw [after_of_halted (by simp [hm]) h, hm] at hn
    contradiction
  case inr h =>
    rw [after_of_halted (by simp [hn]) h, hn] at hm
    contradiction

-- An error is about the token that the parser meets.
theorem exists_meets_of_error {e : UnexpectedToken} (he : p.step.2 = .error (.parse e)) :
    ∃ token, p.Meets token ∧ p.action? token = none ∧ p.unexpected token = e := by
  have hperforms := p.performs_step
  generalize p.step = result at hperforms he
  cases hperforms
  case halted | exhausted | shift | accept | goto => simp at he
  case unexpected token hmeets ha => exact ⟨token, hmeets, ha, by simpa using he⟩
  case reduce r _ _ =>
    obtain ⟨_, h⟩ | ⟨_, _, _, _, h⟩ := p.reduce_cases r <;> simp [h] at he

theorem exists_accepted_of_runFor {fuel : Nat} {tree : ParseTree}
    (h : (p.runFor fuel).2 = .ok (some tree)) :
    ∃ n, ((fun p => p.step.1)^[n] p).status = .accepted := by
  induction fuel generalizing p
  all_goals
    rw [runFor] at h
    split at h
  case zero.isTrue => simp at h
  case zero.isFalse | succ.isFalse =>
    by_cases hp : p.status = .accepted
    case pos => exact ⟨0, hp⟩
    case neg => simp [tree?, hp] at h
  case succ.isTrue hi _ =>
    split at h
    case h_1 => contradiction
    case h_2 p' _ hstep =>
      obtain ⟨n, hn⟩ := hi h
      refine ⟨n + 1, ?_⟩
      rwa [Function.iterate_succ_apply, hstep]

-- On another stream that has the same token there, a step is the same.
theorem step_on (h : s.get? p.cursor = p.tokens.get? p.cursor) :
    ({ p with tokens := s } : Parser).step.1 = { p.step.1 with tokens := s } := by
  have hreduce (r : RuleId) : (({ p with tokens := s } : Parser).reduce r).1 =
      { (p.reduce r).1 with tokens := s } := by
    unfold reduce
    dsimp only
    split
    case isTrue  => rfl
    case isFalse => split <;> rfl
  by_cases hmeets : ∃ token, p.Meets token
  case neg =>
    have hmeets := not_exists.mp hmeets
    rw [step_of_not_meets hmeets, step_of_not_meets]
    exact fun token hs => hmeets token ⟨hs.status, h ▸ hs.next⟩
  case pos =>
    obtain ⟨token, hp⟩ := hmeets
    have hs : ({ p with tokens := s } : Parser).Meets token := ⟨hp.status, h.trans hp.next⟩
    have haction : ({ p with tokens := s } : Parser).action? token = p.action? token := rfl
    rw [hp.step_eq, hs.step_eq, haction]
    cases p.action? token
    case none => rfl
    case some α =>
      cases α
      case shift | accept | goto => rfl
      case reduce r              => exact hreduce r

theorem tokens_after : (after t tokens n).tokens = tokens := by
  induction n
  case zero => rfl
  case succ n hi =>
    obtain ⟨_, _, _, hstep⟩ := (after t tokens n).exists_step_eq
    rw [after_succ, hstep]
    exact hi

-- The run on another stream is the same, as long as nothing else has been read.
theorem after_on (h : ∀ m < n, s.get? (after t tokens m).cursor =
      tokens.get? (after t tokens m).cursor) :
    after t s n = { after t tokens n with tokens := s } := by
  induction n
  case zero => rfl
  case succ n hi =>
    rw [after_succ, after_succ, hi fun m hm => h m (Nat.lt_succ_of_lt hm)]
    refine step_on ?_
    rw [tokens_after]
    exact h n (Nat.lt_succ_self n)

end Runs

-- What has an action in the state on top of the stack can follow on the shifted tokens, also if the
-- table has conflicts.
theorem Sound.continues (h : Sound ctx.grammar a t tokens p) (hg : ctx.grammar.WellFormed)
    (hp : ctx.grammar.IsProductive) (ha : IsOutcome ctx .lr1 a) (htable : IsTableOf ctx a t)
    (hα : t.action? p.state x = some α) :
    ∃ w, ctx.grammar.Spells (tokens.kindsBefore p.cursor) w ∧ ctx.grammar.Continues w x := by
  have hc := ha.coherent hg
  have hf := ha.foresees hg
  have hcollected : Collected ctx .lr1 a := ha.left
  obtain ⟨γ, w, hγ, hw, hspells⟩ := h.exists_path
  refine ⟨w, hspells, ?_⟩
  rw [← state_eq] at hγ
  cases α
  case goto => exact absurd hα <| htable.action?_ne_goto hg hc
  case shift q =>
    have hpath : (a.follow? (γ ++ [.terminal x])).isSome := by
      rw [follow?_concat, hγ, Option.bind_some, htable.transition?_of_shift hc hα]
      rfl
    exact ((isSome_follow?_iff hg hp hc hf).mp hpath).continues hg hp hw
  case reduce r =>
    have halg : a.algorithm ≠ .lr0 := by simp [hcollected.algorithm]
    have hlooks := htable.looks_of_action? hc hf halg hα
    obtain ⟨n, hn, _⟩ := hlooks.exists_node
    have hcovers := ((hcollected.unites hg).looks_iff hn).mp hlooks
    exact (isValid_of_covers hg hp hcollected hγ hn hcovers).continues hg hw
  case accept =>
    obtain ⟨hx, n, hn, hitem⟩ := htable.complete_of_accept hg hc hα
    rw [state_eq] at hn
    obtain ⟨frame, hstack, htree⟩ := h.linked.exists_of_accept hc hg hn hitem
    obtain ⟨w', hw', hspells'⟩ := htree.exists_derivesTo
    have hleaves : frame.tree.leaves.map (·.1) = tokens.kindsBefore p.cursor := by
      have hleaves := h.leaves
      rw [values, hstack] at hleaves
      have hleaves : frame.tree.leaves ++ [] = _ := hleaves
      rw [← List.append_nil frame.tree.leaves, hleaves, List.map_map]
      rfl
    rw [hleaves] at hspells'
    cases hspells.unique hspells'
    exact ⟨w, hw', by rw [hx]⟩

section Decided

variable (hd : Decides ctx a t)

include hd

-- The tokens are accepted with the rest of a sentence behind them.
theorem exists_accepted (h : ctx.grammar.Continues w x)
    (hw : ctx.grammar.Spells (tokens.kindsBefore k) w)
    (hx : ctx.grammar.vocabulary.terminal? token.kind = some x) :
    ∃ rest n, (after t (tokens.resume k (token :: rest)) n).status = .accepted := by
  obtain ⟨rest, read, last, tree, hsplit, htree, hleaves, hlast⟩ := h.exists_tree hd.grammar hw hx
  have hstream : (tokens.resume k (token :: rest)).tokens.toList = read ++ [last] := by
    simpa [TokenStream.resume] using hsplit
  obtain ⟨n, hn⟩ := run_of_stream hd htree hleaves hstream hlast
  exact ⟨rest, exists_accepted_of_runFor <| hn n <| Nat.le_refl n⟩

-- The parser does not fail on a token that can follow: up to there, the run is the one that
-- accepts.
theorem not_continues (hmeets : (after t tokens n).Meets token)
    (ha : (after t tokens n).action? token = none)
    (hw : ctx.grammar.Spells (tokens.kindsBefore (after t tokens n).cursor) w)
    (hx : ctx.grammar.vocabulary.terminal? token.kind = some x) : ¬ ctx.grammar.Continues w x := by
  intro h
  have hcursor : (after t tokens n).cursor ≤ tokens.length :=
    (Sound.init.iterate hd.grammar hd.coherent hd.table n).cursor
  obtain ⟨rest, m, hm⟩ := exists_accepted hd h hw hx
  generalize hs : tokens.resume _ (token :: rest) = s at hm
  have hsame : after t s (n + 1) = { after t tokens (n + 1) with tokens := s } := by
    refine after_on fun i hi => ?_
    subst hs
    cases Nat.lt_or_eq_of_le <| cursor_after_le <| Nat.le_of_lt_succ hi
    case inl hlt => exact TokenStream.get?_resume_of_lt hcursor hlt
    case inr heq =>
      rw [heq, TokenStream.get?_resume_self hcursor]
      exact hmeets.next.symm.trans <| by rw [tokens_after]
  have hfailed : (after t s (n + 1)).status = .failed := by
    rw [hsame, after_succ, hmeets.step_eq, ha]
  exact not_failed_of_accepted hm hfailed

section Canonical

variable (hp : ctx.grammar.IsProductive) (houtcome : IsOutcome ctx .lr1 a)
  (hmeets : (after t tokens n).Meets token) (ha : (after t tokens n).action? token = none)

include hp houtcome hmeets ha

-- No step has had the token as its lookahead before: what has an action can follow.
theorem cursor_after_lt (hm : m < n) :
    (after t tokens m).cursor < (after t tokens n).cursor := by
  refine Nat.lt_of_le_of_ne (cursor_after_le hm.le) fun hcursor => ?_
  have hrunning : ∀ k ≤ n, (after t tokens k).status = .running := by
    intro k hk
    by_contra hhalted
    exact hhalted <| after_of_halted hhalted hk ▸ hmeets.status
  have hmeets' : (after t tokens m).Meets token := by
    have hnext := hmeets.next
    rw [tokens_after] at hnext
    exact ⟨hrunning m hm.le, by rw [hcursor, tokens_after, hnext]⟩
  have hsound : Sound ctx.grammar a t tokens (after t tokens m) :=
    Sound.init.iterate hd.grammar hd.coherent hd.table m
  cases hα : (after t tokens m).action? token
  case none =>
    have hfailed : (after t tokens (m + 1)).status = .failed := by
      rw [after_succ, hmeets'.step_eq, hα]
    simp [hrunning (m + 1) hm] at hfailed
  case some α =>
    obtain ⟨x, hx, hα⟩ := hsound.exists_of_action? hd.table hα
    obtain ⟨w, hw, hcontinues⟩ := hsound.continues hd.grammar hp houtcome hd.table hα
    exact not_continues hd hmeets ha (hcursor ▸ hw) hx hcontinues

-- With another token in its place, the parser comes to the same state. It does not fail there if
-- that token can follow.
theorem mem_expected_iff
    (hw : ctx.grammar.Spells (tokens.kindsBefore (after t tokens n).cursor) w) :
    x ∈ t.expected (after t tokens n).state ↔ ctx.grammar.Continues w x := by
  have hsound : Sound ctx.grammar a t tokens (after t tokens n) :=
    Sound.init.iterate hd.grammar hd.coherent hd.table n
  rw [(hd.table.isClosed hd.grammar hd.coherent).mem_expected]
  constructor
  case mp =>
    rintro ⟨α, hα⟩
    obtain ⟨w', hw', hcontinues⟩ := hsound.continues hd.grammar hp houtcome hd.table hα
    exact hw.unique hw' ▸ hcontinues
  case mpr =>
    intro h
    let other : Token := ⟨ctx.grammar.name (.terminal x), "", {}⟩
    have hx : ctx.grammar.vocabulary.terminal? other.kind = some x :=
      hd.grammar.vocabulary.terminal?_name <| h.mem_inputTerminals hd.grammar
    let s := tokens.resume (after t tokens n).cursor [other]
    have hsame : after t s n = { after t tokens n with tokens := s } := after_on fun i hi =>
      TokenStream.get?_resume_of_lt hsound.cursor <| cursor_after_lt hd hp houtcome hmeets ha hi
    have hcursor : (after t s n).cursor = (after t tokens n).cursor := by rw [hsame]
    have hother : (after t s n).Meets other := by
      rw [hsame]
      exact ⟨hmeets.status, TokenStream.get?_resume_self hsound.cursor⟩
    have hspells : ctx.grammar.Spells (s.kindsBefore (after t s n).cursor) w := by
      rw [hcursor, TokenStream.kindsBefore_resume hsound.cursor]
      exact hw
    have haction : (after t s n).action? other = t.action? (after t tokens n).state x := by
      have htable : (after t s n).table = t := by rw [hsame, hsound.table_eq]
      have hstate : (after t s n).state = (after t tokens n).state := by
        rw [hsame, state_eq, state_eq]
      rw [action?, htable, hstate, hd.table.grammar, hx, Option.bind_some]
    by_contra hnone
    refine not_continues hd hother ?_ hspells hx h
    rw [haction, Option.eq_none_iff_forall_not_mem]
    exact not_exists.mp hnone

end Canonical
end Decided

-- The names are sorted, and none of them is there twice.
theorem pairwise_expectedNames (hv : p.table.grammar.vocabulary.IsSound) (ht : p.table.IsClosed)
    (h : ∀ x ∈ p.table.expected p.state, x ∈ p.table.grammar.vocabulary.inputTerminals) :
    p.expectedNames.Pairwise (· < ·) := by
  have hnodup : p.expectedNames.Nodup := by
    refine (List.mergeSort_perm ..).nodup_iff.mpr ?_
    refine List.Nodup.map_on (fun x hx y hy hxy => ?_) ht.actions.nodup_symbolsOf
    have hname := congrArg p.table.grammar.vocabulary.terminal? hxy
    rw [Grammar.name, Grammar.name, hv.terminal?_name (h x hx), hv.terminal?_name (h y hy)] at hname
    exact Option.some.inj hname
  have hsorted : p.expectedNames.Pairwise fun a b => decide (a ≤ b) = true := by
    refine List.pairwise_mergeSort (fun a b c hab hbc => ?_) (fun a b => ?_) _
    · exact decide_eq_true <| (of_decide_eq_true hab).trans (of_decide_eq_true hbc)
    · simpa using String.le_total a b
  exact (hsorted.and hnodup).imp fun h => lt_of_le_of_ne (of_decide_eq_true h.left) h.right

end Parser

variable {ctx : Context} {a : Automaton} {t : ParseTable}

-- The table of the canonical LR(1) automaton, if it has no conflicts, on every stream. When a step
-- reports a token, then no step before it, and so no reduction, has had that token as its
-- lookahead. What it reports as expected are the sorted names of all terminals that can follow on
-- the tokens before, the end of input included.
theorem parser_errors_exact (h : ctx.grammar.IsDefined) (hp : ctx.grammar.IsProductive) :
    ∃ a t, Automaton.build ctx .lr1 = .ok a ∧ ParseTable.build a ctx = .ok t ∧
      (t.conflict = false → ∀ tokens n e, (Parser.after t tokens n).step.2 = .error (.parse e) →
        (∀ m < n, (Parser.after t tokens m).cursor < (Parser.after t tokens n).cursor) ∧
        e.expected.Pairwise (· < ·) ∧
        ∃ w, ctx.grammar.Spells (tokens.kindsBefore (Parser.after t tokens n).cursor) w ∧
          ∀ name, name ∈ e.expected ↔
            ∃ x, ctx.grammar.Continues w x ∧ ctx.grammar.name (.terminal x) = name) := by
  have hg := h.wellFormed
  obtain ⟨a, hbuild, houtcome, hdone⟩ := exists_build hg .lr1
  obtain ⟨t, ht, htable⟩ := exists_table ctx hdone
  have hc := houtcome.coherent hg
  refine ⟨a, t, hbuild, ht, fun hconflict tokens n e he => ?_⟩
  have hd : Parser.Decides ctx a t := ⟨hg, hc, houtcome.foresees hg, htable, hconflict⟩
  have hsound : Parser.Sound ctx.grammar a t tokens (.after t tokens n) :=
    Parser.Sound.init.iterate hg hc htable n
  obtain ⟨token, hmeets, ha, hexpected⟩ := Parser.exists_meets_of_error he
  subst hexpected
  obtain ⟨_, w, _, _, hw⟩ := hsound.exists_path
  have hmem {x : Terminal} := Parser.mem_expected_iff (x := x) hd hp houtcome hmeets ha hw
  refine ⟨fun m hm => Parser.cursor_after_lt hd hp houtcome hmeets ha hm, ?_, w, hw, ?_⟩
  · refine Parser.pairwise_expectedNames ?_ ?_ ?_
    all_goals rw [hsound.table_eq]
    · exact htable.grammar ▸ hg.vocabulary
    · exact htable.isClosed hg hc
    · rw [htable.grammar]
      exact fun x hx => (hmem.mp hx).mem_inputTerminals hg
  · intro name
    simp only [Parser.unexpected, Parser.expectedNames, List.mem_mergeSort, List.mem_map,
      hsound.table_eq, htable.grammar, hmem]

section Repetition

open Grammar

-- A `b` behind an `a`, which the grammar does not know.
def strayTokens : TokenStream :=
  .ofTokens [⟨"a", "1", {}⟩, ⟨"b", "2", {}⟩]

theorem exists_error_of_strayTokens (ha : build (.ofGrammar repetition) .lr1 = .ok a)
    (ht : ParseTable.build a (.ofGrammar repetition) = .ok t) :
    ∃ e, (Parser.after t strayTokens 2).step.2 = .error (.parse e) ∧
      e.expected = ["$END", "a"] := by
  have hmeets : (Parser.after t strayTokens 2).Meets ⟨"b", "2", {}⟩ :=
    ⟨eq_of_run strayTokens 2 (·.status) (by decide +kernel) ha ht,
      eq_of_run strayTokens 2 (fun p => p.tokens.get? p.cursor) (by decide +kernel) ha ht⟩
  have haction : (Parser.after t strayTokens 2).action? ⟨"b", "2", {}⟩ = none :=
    eq_of_run strayTokens 2 (·.action? ⟨"b", "2", {}⟩) (by decide +kernel) ha ht
  have hnames : ((Parser.after t strayTokens 2).table.expected
      (Parser.after t strayTokens 2).state).map (fun x =>
        (Parser.after t strayTokens 2).table.grammar.name (.terminal x)) = ["$END", "a"] :=
    eq_of_run strayTokens 2 (fun p => (p.table.expected p.state).map
      fun x => p.table.grammar.name (.terminal x)) (by decide +kernel) ha ht
  refine ⟨_, by rw [hmeets.step_eq, haction], ?_⟩
  rw [Parser.unexpected, Parser.expectedNames, hnames]
  exact List.mergeSort_of_pairwise (by decide)

-- The `a` is not reduced before the `b` is reported.
theorem parser_errors_exact_on_repetition : repetition.IsDefined ∧ repetition.IsProductive ∧
    ∃ a t e, build (.ofGrammar repetition) .lr1 = .ok a ∧
      ParseTable.build a (.ofGrammar repetition) = .ok t ∧ t.conflict = false ∧
      (Parser.after t strayTokens 2).step.2 = .error (.parse e) ∧ e.expected = ["$END", "a"] ∧
      (∀ m < 2, (Parser.after t strayTokens m).cursor < (Parser.after t strayTokens 2).cursor) ∧
      ∃ w, repetition.Spells (strayTokens.kindsBefore (Parser.after t strayTokens 2).cursor) w ∧
        ∀ name, name ∈ e.expected ↔
          ∃ x, repetition.Continues w x ∧ repetition.name (.terminal x) = name := by
  obtain ⟨a, t, ha, ht, herrors⟩ :=
    @parser_errors_exact (.ofGrammar repetition) repetition_isDefined repetition_isProductive
  have hconflict := conflict_repetition ha ht
  obtain ⟨e, he, hnames⟩ := exists_error_of_strayTokens ha ht
  obtain ⟨hcursor, _, hexpected⟩ := herrors hconflict strayTokens 2 e he
  exact ⟨repetition_isDefined, repetition_isProductive, a, t, e, ha, ht, hconflict, he, hnames,
    hcursor, hexpected⟩

end Repetition
end ShiftReduce
