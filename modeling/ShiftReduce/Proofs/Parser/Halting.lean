import ShiftReduce.Proofs.Parser.Chains
import ShiftReduce.Proofs.Table.Actions

namespace ShiftReduce

-- What a run can end with.
inductive IsAnswer : Except Error (Option ParseTree) → Prop
  | tree {tree} : IsAnswer (.ok <| some tree)
  | unexpected {u} : IsAnswer (.error <| .parse u)
  | exhausted {i} : IsAnswer (.error <| .sequencing <| .tokenExhausted i)

theorem topOf_eq_topAbove {stack : List Frame} :
    topOf stack = topAbove .start (stack.map (·.state)) := by
  cases stack <;> rfl

namespace Parser

def Halts (p : Parser) : Prop :=
  ∃ n result, IsAnswer result ∧ ∀ fuel, n ≤ fuel → (p.runFor fuel).2 = result

-- A sound parser with these states on its stack, and these tokens still to come.
structure Reads (ctx : Context) (a : Automaton) (t : ParseTable) (tokens : TokenStream)
    (σ : List StateId) (rest : List Token) (p : Parser) : Prop where
  sound  : Sound ctx.grammar a t tokens p
  isAt   : IsAt t tokens p.stack rest p
  states : p.stack.map (·.state) = σ

variable {ctx : Context} {alg : Algorithm} {a : Automaton} {t : ParseTable} {tokens : TokenStream}
  {p p' : Parser} {σ σ' : List StateId} {rest : List Token} {token : Token} {x : Terminal}
  {q : StateId} {r : RuleId} {y : Symbol}

theorem Leads.halts (h : Leads p p') (hp : p'.Halts) : p.Halts := by
  obtain ⟨m, hm⟩ := h
  obtain ⟨n, result, hresult, hn⟩ := hp
  refine ⟨m + n, result, hresult, fun fuel hfuel => ?_⟩
  rw [← Nat.add_sub_cancel' (Nat.le_of_add_right_le hfuel), hm]
  exact hn _ <| by omega

theorem halts_of_error {e : Error} (hp : p.status = .running) (he : IsAnswer (.error e))
    (h : p.step.2 = .error e) : p.Halts := by
  refine ⟨1, .error e, he, fun fuel hfuel => ?_⟩
  match fuel, hfuel with
  | fuel + 1, _ =>
    have hstep : p.step = (p.step.1, .error e) := Prod.ext rfl h
    rw [runFor, if_pos hp, hstep]

theorem halts_of_tree {tree : ParseTree} (hp : p.status ≠ .running) (ht : p.tree? = some tree) :
    p.Halts :=
  ⟨0, .ok <| some tree, .tree, fun _ _ => congrArg Prod.snd <| runFor_of_tree? hp ht⟩

namespace Reads

theorem topOf_eq (h : Reads ctx a t tokens σ rest p) : topOf p.stack = topAbove .start σ :=
  h.states ▸ topOf_eq_topAbove

theorem exists_transition? (h : Reads ctx a t tokens (q :: σ) rest p) :
    ∃ y, a.transition? (topAbove .start σ) y = some q := by
  obtain ⟨frame, stack, hstack, hframe, hσ⟩ := List.map_eq_cons_iff.mp h.states
  have hlinked := h.sound.linked
  rw [hstack] at hlinked
  cases hlinked
  case push y _ _ hq =>
    rw [topOf_eq_topAbove, hσ] at hq
    exact ⟨y, hframe ▸ hq⟩

section Decided

variable (hd : Decides ctx a t)

include hd

theorem exists_reduce (h : Reads ctx a t tokens σ (token :: rest) p)
    (hx : ctx.grammar.vocabulary.terminal? token.kind = some x)
    (ha : t.action? (topAbove .start σ) x = some (.reduce r)) :
    (ctx.grammar.right r).length ≤ σ.length ∧ ∃ q p',
      a.transition? (topAbove .start <| σ.drop (ctx.grammar.right r).length)
        (.nonterminal <| ctx.grammar.left r) = some q ∧ Leads p p' ∧
      Reads ctx a t tokens (q :: σ.drop (ctx.grammar.right r).length) (token :: rest) p' := by
  have hσ := h.states
  rw [← h.topOf_eq] at ha
  obtain ⟨hle, q, tree, hq, hreduce, hsound⟩ :=
    h.sound.reduce hd.grammar hd.coherent hd.table h.isAt.status (state_eq ▸ ha)
  have hstep := h.isAt.step_eq hd.table hx ha
  rw [← hσ, List.length_map, ← List.map_drop, ← topOf_eq_topAbove]
  refine ⟨hle, q, _, hq, leads_of_step h.isAt.status <| hstep.trans hreduce, hsound, ?_, rfl⟩
  exact ⟨h.isAt.table_eq, h.isAt.stream, h.isAt.status, rfl, h.isAt.rest_eq⟩

theorem exists_reduced (h : Reads ctx a t tokens σ (token :: rest) p)
    (hx : ctx.grammar.vocabulary.terminal? token.kind = some x)
    (hσ : t.ReducesTo x .start σ σ') :
    ∃ p', Leads p p' ∧ Reads ctx a t tokens σ' (token :: rest) p' := by
  induction hσ
  case refl => exact ⟨p, .refl, h⟩
  case tail hr hi =>
    obtain ⟨p₁, hleads, h₁⟩ := hi
    cases hr
    case step r q ha hle hq =>
      obtain ⟨_, q', p', hq', hleads', hp'⟩ := h₁.exists_reduce hd hx ha
      have hgoto := hd.table.goto?_eq_of_transition? hd.coherent hq'
      rw [hd.table.grammar] at hq
      cases hgoto.symm.trans hq
      exact ⟨p', hleads.trans hleads', hd.table.grammar ▸ hp'⟩

variable (halg : a.algorithm ≠ .lr0)
  (hj : ∀ {q c x}, a.Looks ctx q c x → a.Justifies ctx q c x)

include halg hj

-- Until no reduction is due, or until the first one that takes off a part of the stack.
theorem exists_idle_or_reduced (h : Reads ctx a t tokens σ (token :: rest) p)
    (hx : ctx.grammar.vocabulary.terminal? token.kind = some x) :
    (∃ p' σ', Leads p p' ∧ Reads ctx a t tokens σ' (token :: rest) p' ∧ t.IsIdle x .start σ') ∨
      ∃ k p' q, k.dot ≠ 0 ∧ k.dot ≤ σ.length ∧ k.rule ≠ .accept ∧
        a.Looks ctx (topAbove .start σ) k x ∧
        ctx.grammar.Vanishes ((ctx.grammar.right k.rule).drop k.dot) ∧
        a.transition? (topAbove .start <| σ.drop k.dot)
          (.nonterminal <| ctx.grammar.left k.rule) = some q ∧ Leads p p' ∧
        Reads ctx a t tokens (q :: σ.drop k.dot) (token :: rest) p' := by
  have hmarker := (Vocabulary.IsSound.symbol?_of_terminal? hx).right
  by_cases hidle : t.IsIdle x .start σ
  case pos => exact .inl ⟨p, σ, .refl, h, hidle⟩
  case neg =>
    obtain ⟨r, ha⟩ : ∃ r, t.action? (topAbove .start σ) x = some (.reduce r) := by
      simpa [ParseTable.IsIdle] using hidle
    have hlooks := hd.table.looks_of_action? hd.coherent hd.foresees halg ha
    have hcompleted : Completed ctx a x (topAbove .start σ)
        ⟨r, (ctx.grammar.right r).length⟩ [] := ⟨by simp, hlooks⟩
    obtain ⟨τ, hτ, hend⟩ :=
      Completed.exists_kernel hd hmarker (hj hlooks) (by simpa using .nil) hcompleted
    obtain ⟨p₁, hleads, h₁⟩ := h.exists_reduced hd hx (ParseTable.ReducesTo.append hτ)
    cases hend
    case inl hidle => exact .inl ⟨p₁, _, hleads, h₁, hidle.append⟩
    case inr hk =>
      obtain ⟨k, hdot, hne, hlooks, hvanishes, hcompleted⟩ := hk
      have haction := hcompleted.action?_eq hd hmarker hne
      rw [← ParseTable.topAbove_append] at haction
      obtain ⟨hle, q, p', hq, hleads', h'⟩ := h₁.exists_reduce hd hx haction
      obtain ⟨n, hn, hcore⟩ := hlooks.exists_node
      have hvalid := (hd.coherent.valid hn _ hcore).right
      have hlength := hcompleted.length
      rw [List.length_drop] at hlength
      rw [List.length_append] at hle
      have hdrop : (τ ++ σ).drop (ctx.grammar.right k.rule).length = σ.drop k.dot := by
        rw [List.drop_append, List.drop_eq_nil_of_le (by omega), List.nil_append]
        exact congrArg (σ.drop ·) <| by omega
      rw [hdrop] at hq h'
      exact .inr ⟨k, p', q, hdot, by omega, hne, hlooks, hvanishes, hq, hleads.trans hleads', h'⟩

-- Between two shifts, what is reduced on one terminal makes the stack lower or, at the same height,
-- goes on along a chain. So the outer induction is on the height of the stack, the inner one along
-- the chains from the symbol between the two states on top.
theorem exists_idle (h : Reads ctx a t tokens σ (token :: rest) p)
    (hx : ctx.grammar.vocabulary.terminal? token.kind = some x) :
    ∃ p' σ', Leads p p' ∧ Reads ctx a t tokens σ' (token :: rest) p' ∧ t.IsIdle x .start σ' := by
  have hmarker := (Vocabulary.IsSound.symbol?_of_terminal? hx).right
  induction hlength : σ.length using Nat.strong_induction_on generalizing σ p
  case h height hi =>
  cases σ
  case nil =>
    cases h.exists_idle_or_reduced hd halg hj hx
    case inl hidle => exact hidle
    case inr hk =>
      obtain ⟨k, _, _, hdot, hle, _⟩ := hk
      exact absurd (Nat.le_zero.mp hle) hdot
  case cons q σ =>
    obtain ⟨y, hy⟩ := h.exists_transition?
    induction acc_chains hd hmarker hj (s := topAbove .start σ) (y := y) generalizing q p
    case intro y _ hacc =>
      cases h.exists_idle_or_reduced hd halg hj hx
      case inl hidle => exact hidle
      case inr hk =>
        obtain ⟨k, p₁, q₁, hdot, hle, hne, hlooks, hvanishes, hq₁, hleads, h₁⟩ := hk
        by_cases hone : k.dot = 1
        case pos =>
          rw [hone] at hq₁ h₁
          have hchains := chains_of_looks hd hy hlooks hone hne hvanishes
          obtain ⟨p', σ', hleads', hend⟩ := hacc _ hchains _ h₁ (by simpa using hlength) hq₁
          exact ⟨p', σ', hleads.trans hleads', hend⟩
        case neg =>
          have hlt : (q₁ :: (q :: σ).drop k.dot).length < height := by
            rw [← hlength, List.length_cons, List.length_drop]
            omega
          obtain ⟨p', σ', hleads', hend⟩ := hi _ hlt h₁ rfl
          exact ⟨p', σ', hleads.trans hleads', hend⟩

omit halg hj in
theorem exists_shift (h : Reads ctx a t tokens σ (token :: rest) p)
    (hx : ctx.grammar.vocabulary.terminal? token.kind = some x)
    (ha : t.action? (topAbove .start σ) x = some (.shift q)) :
    ∃ p', Leads p p' ∧ Reads ctx a t tokens (q :: σ) rest p' := by
  rw [← h.topOf_eq] at ha
  have hstep := h.isAt.step_eq hd.table hx ha
  have hsound := h.sound.step hd.grammar hd.coherent hd.table
  rw [hstep] at hsound
  refine ⟨_, leads_of_step h.isAt.status hstep, hsound, ?_, congrArg (q :: ·) h.states⟩
  refine ⟨h.isAt.table_eq, h.isAt.stream, h.isAt.status, rfl, ?_⟩
  have := congrArg (List.drop 1) h.isAt.rest_eq
  rwa [List.drop_drop] at this

omit halg hj in
theorem halts_of_accept (h : Reads ctx a t tokens σ (token :: rest) p)
    (hx : ctx.grammar.vocabulary.terminal? token.kind = some x)
    (ha : t.action? (topAbove .start σ) x = some .accept) : p.Halts := by
  rw [← h.topOf_eq] at ha
  have hstep := h.isAt.step_eq hd.table hx ha
  have hsound := h.sound.step hd.grammar hd.coherent hd.table
  rw [hstep] at hsound
  obtain ⟨tree, _, hvalues, _⟩ := hsound.accepted rfl
  have htrees : p.stack.map (·.tree) = [tree] := List.reverse_injective hvalues
  have htree : ({p with status := .accepted} : Parser).tree? = some tree := by
    rw [tree?, if_pos rfl, ← List.head?_map, htrees]
    rfl
  have hended : Status.accepted ≠ .running := by decide
  exact (leads_of_step h.isAt.status hstep).halts <| halts_of_tree hended htree

omit hd halg hj in
theorem halts_of_action?_eq_none (h : Reads ctx a t tokens σ (token :: rest) p)
    (ha : p.action? token = none) : p.Halts := by
  refine halts_of_error h.isAt.status (.unexpected (u := p.unexpected token)) ?_
  rw [h.isAt.meets.step_eq, ha]

omit hd halg hj in
theorem halts_of_nil (h : Reads ctx a t tokens σ [] p) : p.Halts := by
  have hrunning : ¬ p.status ≠ .running := not_not.mpr h.isAt.status
  have hget : p.tokens.get p.cursor = .error (.sequencing <| .tokenExhausted p.cursor) := by
    have hsize := List.drop_eq_nil_iff.mp h.isAt.rest_eq
    rw [h.isAt.stream, TokenStream.get, TokenStream.get?, Array.getElem?_eq_none hsize]
  refine halts_of_error h.isAt.status (.exhausted (i := p.cursor)) ?_
  rw [step, if_neg hrunning]
  simp only [hget]

-- The induction is on the tokens to come.
theorem halts (h : Reads ctx a t tokens σ rest p) : p.Halts := by
  induction rest generalizing p σ
  case nil => exact h.halts_of_nil
  case cons token rest hi =>
    have haction {p σ} (h : Reads ctx a t tokens σ (token :: rest) p) : p.action? token =
        (ctx.grammar.vocabulary.terminal? token.kind).bind (t.action? <| topAbove .start σ) := by
      rw [action?, state_eq, h.topOf_eq, h.isAt.table_eq, hd.table.grammar]
    cases hx : ctx.grammar.vocabulary.terminal? token.kind
    case none => exact h.halts_of_action?_eq_none <| (haction h).trans <| by rw [hx]; rfl
    case some x =>
      obtain ⟨p', σ', hleads, h', hidle⟩ := h.exists_idle hd halg hj hx
      refine hleads.halts ?_
      cases ha : t.action? (topAbove .start σ') x
      case none =>
        refine h'.halts_of_action?_eq_none ?_
        rw [haction h', hx]
        exact ha
      case some α =>
        cases α
        case shift q =>
          obtain ⟨p'', hleads', h''⟩ := h'.exists_shift hd hx ha
          exact hleads'.halts <| hi h''
        case reduce r => exact absurd ha <| hidle r
        case accept   => exact h'.halts_of_accept hd hx ha
        case goto q   => exact absurd ha <| hd.table.action?_ne_goto hd.grammar hd.coherent

end Decided
end Reads
end Parser

variable {ctx : Context} {alg : Algorithm}

-- The table comes out of every construction with lookaheads. If it has no conflicts, then its
-- parser halts on every stream, with a tree, at an unexpected token or at the end of the stream.
theorem parser_halts (h : ctx.grammar.IsDefined) (halg : alg ≠ .lr0) :
    ∃ a t, Automaton.build ctx alg = .ok a ∧ ParseTable.build a ctx = .ok t ∧
      (t.conflict = false → ∀ tokens, ∃ n result, IsAnswer result ∧
        ∀ fuel, n ≤ fuel → ((Parser.initial t tokens).runFor fuel).2 = result) := by
  have hg := h.wellFormed
  obtain ⟨a, hbuild, houtcome, hdone⟩ := exists_build hg alg
  obtain ⟨t, ht, htable⟩ := exists_table ctx hdone
  refine ⟨a, t, hbuild, ht, fun hconflict tokens => ?_⟩
  have hd : Parser.Decides ctx a t :=
    ⟨hg, houtcome.coherent hg, houtcome.foresees hg, htable, hconflict⟩
  have hinit : Parser.Reads ctx a t tokens [] tokens.tokens.toList (.initial t tokens) :=
    ⟨.init, ⟨rfl, rfl, rfl, rfl, rfl⟩, rfl⟩
  exact hinit.halts hd (houtcome.algorithm ▸ halg) <| houtcome.justifies hg halg

theorem parser_halts_on_repetition : Grammar.repetition.IsDefined ∧
    Algorithm.lalrByPropagation ≠ .lr0 ∧
    ∃ a t, Automaton.build (.ofGrammar .repetition) .lalrByPropagation = .ok a ∧
      ParseTable.build a (.ofGrammar .repetition) = .ok t ∧ t.conflict = false ∧
      ∀ tokens, ∃ n result, IsAnswer result ∧
        ∀ fuel, n ≤ fuel → ((Parser.initial t tokens).runFor fuel).2 = result := by
  obtain ⟨a, t, ha, ht, hhalts⟩ :=
    @parser_halts (.ofGrammar .repetition) .lalrByPropagation Grammar.repetition_isDefined
      (by decide)
  have hconflict := conflict_repetition ha ht
  exact ⟨Grammar.repetition_isDefined, by decide, a, t, ha, ht, hconflict, hhalts hconflict⟩

end ShiftReduce
