import ShiftReduce.Proofs.Parser.Soundness

namespace ShiftReduce

open Automaton

-- The end of input is added, unless it is there.
theorem TokenStream.ofTokens_eq {tokens : List Token} (h : ∀ token ∈ tokens, ¬ token.IsEndOfInput) :
    ofTokens tokens = ⟨(tokens ++ [Token.endOfInput]).toArray⟩ := by
  rw [ofTokens]
  split
  case h_1 token hlast => exact if_neg <| h token <| List.mem_of_getLast? hlast
  case h_2 hlast =>
    rw [List.getLast?_eq_none_iff.mp hlast]
    rfl

namespace Parser

-- A run from `p` goes through `p'`.
def Leads (p p' : Parser) : Prop :=
  ∃ n, ∀ fuel, p.runFor (n + fuel) = p'.runFor fuel

variable {ctx : Context} {alg : Algorithm} {a : Automaton} {t : ParseTable} {p p' p'' : Parser}
  {stack : List Frame} {rest : List Token} {token : Token} {q : StateId} {n : Node} {c : Core}
  {x : Terminal} {s : Symbol} {ss : List Symbol} {tree : ParseTree} {trees : List ParseTree}
  {step : ParseStep}

theorem Leads.refl : Leads p p :=
  ⟨0, fun fuel => by rw [Nat.zero_add]⟩

theorem Leads.trans (h : Leads p p') (h' : Leads p' p'') : Leads p p'' := by
  obtain ⟨m, hm⟩ := h
  obtain ⟨n, hn⟩ := h'
  exact ⟨m + n, fun fuel => by rw [Nat.add_assoc, hm, hn]⟩

theorem leads_of_step (hp : p.status = .running) (h : p.step = (p', .ok step)) : Leads p p' := by
  refine ⟨1, fun fuel => ?_⟩
  rw [Nat.add_comm, runFor, if_pos hp]
  simp only [h]

-- A running parser on these frames, with these tokens still to come.
structure IsAt (t : ParseTable) (tokens : TokenStream) (stack : List Frame) (rest : List Token)
    (p : Parser) : Prop where
  table_eq : p.table = t
  stream   : p.tokens = tokens
  status   : p.status = .running
  stack_eq : p.stack = stack
  rest_eq  : tokens.tokens.toList.drop p.cursor = rest

-- A table without conflicts, and the automaton it was made from.
structure Decides (ctx : Context) (a : Automaton) (t : ParseTable) : Prop where
  grammar  : ctx.grammar.WellFormed
  coherent : a.Coherent ctx
  foresees : a.Foresees ctx
  table    : IsTableOf ctx a t
  conflict : t.conflict = false

section Steps

variable {tokens : TokenStream}

theorem IsAt.meets (h : IsAt t tokens stack (token :: rest) p) : p.Meets token := by
  refine ⟨h.status, ?_⟩
  have := congrArg (·[0]?) h.rest_eq
  rw [h.stream, TokenStream.get?]
  simpa using this

theorem IsAt.step_eq {α : Action} (h : IsAt t tokens stack (token :: rest) p)
    (htable : IsTableOf ctx a t) (hx : ctx.grammar.vocabulary.terminal? token.kind = some x)
    (ha : t.action? (topOf stack) x = some α) : p.step = match α with
      | .shift q  => ((p.shift token q).1, .ok (p.shift token q).2)
      | .reduce r => p.reduce r
      | .accept   => ({ p with status := .accepted }, .ok .accept)
      | .goto _   => (p, .error (.invariant (.missingGoto p.state token.kind))) := by
  have haction : p.action? token = some α := by
    rw [action?, state_eq, h.stack_eq, h.table_eq, htable.grammar, hx]
    exact ha
  rw [h.meets.step_eq, haction]
  cases α <;> rfl

theorem IsAt.exists_shift (ht : Decides ctx a t)
    (h : IsAt t tokens stack (token :: rest) p)
    (hx : ctx.grammar.vocabulary.terminal? token.kind = some x)
    (hq : a.transition? (topOf stack) (.terminal x) = some q) :
    ∃ p', Leads p p' ∧ IsAt t tokens (⟨q, .leaf token.kind token.value⟩ :: stack) rest p' := by
  have hstep := h.step_eq ht.table hx <|
    ht.table.action?_eq_shift ht.conflict ht.coherent hq
  refine ⟨_, leads_of_step h.status hstep, h.table_eq, h.stream, h.status, ?_, ?_⟩
  · rw [← h.stack_eq]
    rfl
  · have := congrArg (List.drop 1) h.rest_eq
    rwa [List.drop_drop] at this

theorem IsAt.exists_reduce {r : RuleId} {frames : List Frame} (ht : Decides ctx a t)
    (h : IsAt t tokens (frames ++ stack) (token :: rest) p)
    (hx : ctx.grammar.vocabulary.terminal? token.kind = some x)
    (hr : ctx.grammar.left r ≠ .accept) (hlength : frames.length = (ctx.grammar.right r).length)
    (hl : a.Looks ctx (topOf <| frames ++ stack) ⟨r, (ctx.grammar.right r).length⟩ x)
    (hq : a.transition? (topOf stack) (.nonterminal <| ctx.grammar.left r) = some q) :
    ∃ p', Leads p p' ∧
      IsAt t tokens (⟨q, reduced ctx.grammar r frames⟩ :: stack) (token :: rest) p' := by
  have hmarker := (Vocabulary.IsSound.symbol?_of_terminal? hx).right
  have haction := ht.table.action?_eq_completion ht.conflict ht.foresees hmarker hl (absurd · hr)
  rw [completion, if_neg hr] at haction
  have hstep := h.step_eq ht.table hx haction
  have hgrammar : p.table.grammar = ctx.grammar := by rw [h.table_eq, ht.table.grammar]
  have hdrop : p.stack.drop frames.length = stack := by rw [h.stack_eq, List.drop_left]
  have htake : p.stack.take frames.length = frames := by rw [h.stack_eq, List.take_left]
  have hgoto : p.table.goto? (topOf <| p.stack.drop frames.length) (p.table.grammar.left r) =
      some q := by
    rw [hdrop, hgrammar, h.table_eq]
    exact ht.table.goto?_eq_of_transition? ht.coherent hq
  have hreduce := reduce_eq (by rw [hgrammar, hlength]) (by simp [h.stack_eq]) hgoto
  rw [hdrop, htake, hgrammar] at hreduce
  exact ⟨_, leads_of_step h.status (hstep.trans hreduce), h.table_eq, h.stream, h.status, rfl,
    h.rest_eq⟩

mutual

-- The tree of a symbol after a dot, if what it predicts may act on the token after the tree.
theorem exists_leads_of_derives (ht : Decides ctx a t) : ∀ {s tree}, Derives ctx.grammar s tree →
    ∀ {p stack n c x token rest} {read : List Token}, read.map Token.pair = tree.leaves →
    IsAt t tokens stack (read ++ token :: rest) p →
    ctx.grammar.vocabulary.terminal? token.kind = some x →
    a.node? (topOf stack) = some n → c ∈ n.items.closure.map Item.core →
    c.next? ctx.grammar = some s →
    (∀ d ∈ c.predicted ctx.grammar, a.Looks ctx (topOf stack) d x) →
    ∃ p' q, Leads p p' ∧ a.transition? (topOf stack) s = some q ∧
      IsAt t tokens (⟨q, tree⟩ :: stack) (token :: rest) p'
  | _, _, .leaf hterminal, _, _, _, _, _, _, _, _, hread, hp, _, hn, hcore, hnext, _ => by
    obtain ⟨e, he, hs⟩ := ht.coherent.exists_edge hn hcore hnext
    have htransition := hs ▸ ht.coherent.transition?_eq hn he
    obtain ⟨u, us, hread, hpair, hnil⟩ := List.map_eq_cons_iff.mp hread
    cases List.map_eq_nil_iff.mp hnil
    subst hread
    cases hpair
    obtain ⟨p', hleads, hp'⟩ := hp.exists_shift ht hterminal htransition
    exact ⟨p', e.target, hleads, htransition, hp'⟩
  | _, _, @Derives.node _ r _ hrule hr h, _, _, _, _, _, _, _, _, hread, hp, hx, hn, hcore, hnext,
      hlooks => by
    obtain ⟨e, he, hs⟩ := ht.coherent.exists_edge hn hcore hnext
    have htransition := hs ▸ ht.coherent.transition?_eq hn he
    have hlooks := hlooks ⟨r, 0⟩ <| mem_predicted.mpr ⟨rfl, hrule, hnext⟩
    obtain ⟨p₁, frames, hleads, hframes, hp₁, hlooks₁⟩ :=
      exists_leads_of_derivesAll ht h hread hp hx rfl hlooks
    have hlength : frames.length = (ctx.grammar.right r).length := by
      rw [← h.length_eq]
      simpa using congrArg List.length hframes
    obtain ⟨p', hleads', hp'⟩ := hp₁.exists_reduce ht hx
      (fun hl => hr <| (ht.grammar.left_eq_accept_iff hrule).mp hl) hlength hlooks₁ htransition
    rw [reduced, hframes, List.reverse_reverse] at hp'
    exact ⟨p', e.target, hleads.trans hleads', htransition, hp'⟩

-- The trees of all symbols behind the dot of an item, which is complete in the end.
theorem exists_leads_of_derivesAll (ht : Decides ctx a t) :
    ∀ {ss trees}, DerivesAll ctx.grammar ss trees →
    ∀ {p stack c x token rest} {read : List Token},
    read.map Token.pair = ParseTree.leavesOfAll trees →
    IsAt t tokens stack (read ++ token :: rest) p →
    ctx.grammar.vocabulary.terminal? token.kind = some x →
    (ctx.grammar.right c.rule).drop c.dot = ss → a.Looks ctx (topOf stack) c x →
    ∃ p' frames, Leads p p' ∧ frames.map Frame.tree = trees.reverse ∧
      IsAt t tokens (frames ++ stack) (token :: rest) p' ∧
      a.Looks ctx (topOf <| frames ++ stack) ⟨c.rule, (ctx.grammar.right c.rule).length⟩ x
  | _, _, .nil, p, _, c, _, _, _, _, hread, hp, _, hdrop, hlooks => by
    obtain ⟨n, hn, hcore⟩ := hlooks.exists_node
    have hend := ht.coherent.eq_of_isEnd hn hcore <| List.drop_eq_nil_iff.mp hdrop
    cases List.map_eq_nil_iff.mp hread
    exact ⟨p, [], .refl, rfl, hp, hend ▸ hlooks⟩
  | _, _, @DerivesAll.cons _ s ss tree trees h h', p, stack, c, x, token, rest, _, hread, hp, hx,
      hdrop, hlooks => by
    obtain ⟨n, hn, hcore⟩ := hlooks.exists_node
    obtain ⟨hnext, hafter⟩ := next?_of_drop hdrop
    obtain ⟨first, others, hsplit, hfirst, hothers⟩ := List.map_eq_append_iff.mp hread
    subst hsplit
    rw [List.append_assoc] at hp
    -- The token after the first tree is a lookahead of what the item predicts.
    have hbegins := h'.first ht.grammar
    rw [← hothers, ← hafter] at hbegins
    have hforesight : ∃ u us y, others ++ token :: rest = u :: us ∧
        ctx.grammar.vocabulary.terminal? u.kind = some y ∧
        ∀ d ∈ c.predicted ctx.grammar, a.Looks ctx (topOf stack) d y := by
      cases others
      case nil =>
        exact ⟨token, rest, x, rfl, hx, fun d hd => ht.foresees.passed hlooks hd hbegins⟩
      case cons u us =>
        obtain ⟨y, hy, hmem⟩ := hbegins
        exact ⟨u, us ++ token :: rest, y, rfl, hy,
          fun d hd => ht.foresees.generated hn hcore hd hmem⟩
    obtain ⟨u, us, y, hus, hy, hpredicted⟩ := hforesight
    rw [hus] at hp
    obtain ⟨p₁, q, hleads, htransition, hp₁⟩ :=
      exists_leads_of_derives ht h hfirst hp hy hn hcore hnext hpredicted
    rw [← hus] at hp₁
    obtain ⟨n', e, hn', he, hs, htarget⟩ := ht.coherent.exists_of_transition? htransition
    have hlooks₁ : a.Looks ctx q c.advance x :=
      htarget ▸ ht.foresees.shifted hlooks hn' he (hs ▸ hnext)
    obtain ⟨p', frames, hleads', hframes, hp', hlooks'⟩ :=
      exists_leads_of_derivesAll ht (c := c.advance) h' hothers hp₁ hx hafter hlooks₁
    refine ⟨p', frames ++ [⟨q, tree⟩], hleads.trans hleads', ?_, ?_, ?_⟩
    · rw [List.map_append, hframes, List.reverse_cons]
      rfl
    · rw [List.append_assoc]
      exact hp'
    · rw [List.append_assoc]
      exact hlooks'

end

theorem IsAt.exists_accept {frame : Frame} (ht : Decides ctx a t)
    (h : IsAt t tokens [frame] (token :: rest) p)
    (hx : ctx.grammar.vocabulary.terminal? token.kind = some .endOfInput)
    (hl : a.Looks ctx frame.state ⟨.accept, 1⟩ .endOfInput) :
    ∃ p', Leads p p' ∧ ∀ fuel, (p'.runFor fuel).2 = .ok (some frame.tree) := by
  have hlooks : a.Looks ctx frame.state ⟨.accept, (ctx.grammar.right .accept).length⟩
      .endOfInput := by
    rwa [ht.grammar.right_accept]
  have haction := ht.table.action?_eq_completion ht.conflict ht.foresees
    Terminal.endOfInput_ne_marker hlooks fun _ => rfl
  rw [completion, if_pos ht.grammar.left_accept] at haction
  have hstep := h.step_eq ht.table hx haction
  refine ⟨_, leads_of_step h.status hstep, fun fuel => ?_⟩
  rw [runFor.eq_def, if_neg (by simp)]
  simp [tree?, h.stack_eq]

end Steps

-- The whole run: over the tree of the start symbol, to the acceptance before the end of input. What
-- comes after that is not read.
theorem run_of_stream {tokens : TokenStream} {read : List Token} (ht : Decides ctx a t)
    (h : Derives ctx.grammar (.nonterminal ctx.grammar.start) tree)
    (hread : read.map Token.pair = tree.leaves)
    (htokens : tokens.tokens.toList = read ++ token :: rest)
    (hx : ctx.grammar.vocabulary.terminal? token.kind = some .endOfInput) :
    ∃ n, ∀ fuel, n ≤ fuel → ((initial t tokens).runFor fuel).2 = .ok (some tree) := by
  have hinit : IsAt t tokens [] (read ++ token :: rest) (initial t tokens) :=
    ⟨rfl, rfl, rfl, rfl, htokens⟩
  have hright : (ctx.grammar.right .accept).drop 0 = [.nonterminal ctx.grammar.start] :=
    ht.grammar.right_accept
  have hread : read.map Token.pair = ParseTree.leavesOfAll [tree] := by
    rw [hread, ParseTree.leavesOfAll, ParseTree.leavesOfAll, List.append_nil]
  obtain ⟨p, frames, hleads, hframes, hp, hlooks⟩ :=
    exists_leads_of_derivesAll ht (.cons h .nil) hread hinit hx hright ht.foresees.start
  obtain ⟨frame, hframe, htree⟩ := List.map_eq_singleton_iff.mp hframes
  subst hframe
  rw [ht.grammar.right_accept] at hlooks
  obtain ⟨p', hleads', hp'⟩ := hp.exists_accept ht hx hlooks
  obtain ⟨n, hn⟩ := hleads.trans hleads'
  refine ⟨n, fun fuel hfuel => ?_⟩
  rw [← Nat.add_sub_cancel' hfuel, hn, hp', htree]

theorem run_of_derives {tokens : List Token} (ht : Decides ctx a t)
    (h : Derives ctx.grammar (.nonterminal ctx.grammar.start) tree)
    (htokens : tokens.map Token.pair = tree.leaves) :
    ∃ n, ∀ fuel, n ≤ fuel →
      ((initial t (.ofTokens tokens)).runFor fuel).2 = .ok (some tree) := by
  have hend : ∀ token ∈ tokens, ¬ token.IsEndOfInput := by
    intro token htoken
    exact h.ne_endOfInput ht.grammar (by simp) token.pair <| htokens ▸ List.mem_map_of_mem htoken
  have hstream : (TokenStream.ofTokens tokens).tokens.toList = tokens ++ [Token.endOfInput] := by
    rw [TokenStream.ofTokens_eq hend]
  exact run_of_stream ht h htokens hstream ht.grammar.vocabulary.terminal?_endOfInput

end Parser

-- The table comes out of every construction. If it has no conflicts, its parser halts on the leaves
-- of every derivation tree of the start symbol with exactly that tree, and the grammar is
-- unambiguous.
theorem parser_complete (h : ctx.grammar.IsDefined) :
    ∃ a t, Automaton.build ctx alg = .ok a ∧ ParseTable.build a ctx = .ok t ∧
      (t.conflict = false →
        (∀ tree tokens, Derives ctx.grammar (.nonterminal ctx.grammar.start) tree →
          tokens.map (fun token => (token.kind, token.value)) = tree.leaves →
          ∃ n, ∀ fuel, n ≤ fuel →
            ((Parser.initial t (.ofTokens tokens)).runFor fuel).2 = .ok (some tree)) ∧
        ∀ tree tree', Derives ctx.grammar (.nonterminal ctx.grammar.start) tree →
          Derives ctx.grammar (.nonterminal ctx.grammar.start) tree' →
          tree.leaves = tree'.leaves → tree = tree') := by
  have hg := h.wellFormed
  obtain ⟨a, hbuild, houtcome, hdone⟩ := exists_build hg alg
  obtain ⟨t, ht, htable⟩ := exists_table ctx hdone
  refine ⟨a, t, hbuild, ht, fun hconflict => ?_⟩
  have hdecides : Parser.Decides ctx a t :=
    ⟨hg, houtcome.coherent hg, houtcome.foresees hg, htable, hconflict⟩
  refine ⟨fun tree tokens hd hleaves => Parser.run_of_derives hdecides hd hleaves, ?_⟩
  intro tree tree' hd hd' hleaves
  have hpairs : (tree.leaves.map fun l => Token.mk l.1 l.2 {}).map Token.pair = tree.leaves := by
    simp [Function.comp_def, Token.pair]
  obtain ⟨n, hn⟩ := Parser.run_of_derives hdecides hd hpairs
  obtain ⟨n', hn'⟩ := Parser.run_of_derives hdecides hd' <| hpairs.trans hleaves
  have heq := (hn (n + n') <| Nat.le_add_right ..).symm.trans (hn' (n + n') <| Nat.le_add_left ..)
  simpa using heq

section Repetition

open Grammar Automaton

-- The tree of the tokens `a … a` with the values `vs`, the last of them first.
def repetitionTree : List String → ParseTree
  | []      => .node "S" []
  | v :: vs => .node "S" [repetitionTree vs, .leaf "a" v]

theorem derives_repetitionTree {vs : List String} :
    Derives repetition (.nonterminal ⟨1⟩) (repetitionTree vs) := by
  have hnode {r : RuleId} {ss : List Symbol} {trees : List ParseTree} (hne : r ≠ .accept)
      (hr : (repetition.rule? r).isSome ∧ repetition.left r = ⟨1⟩ ∧ repetition.right r = ss)
      (h : DerivesAll repetition ss trees) :
      Derives repetition (.nonterminal ⟨1⟩) (.node "S" trees) := by
    obtain ⟨hsome, hleft, hright⟩ := hr
    have hname : repetition.name (.nonterminal ⟨1⟩) = "S" := by decide +kernel
    have := Derives.node hsome hne <| hright ▸ h
    rwa [hleft, hname] at this
  induction vs
  case nil          => exact hnode (r := ⟨2⟩) (by decide) (by decide +kernel) .nil
  case cons v vs hi =>
    have ha : Derives repetition (.terminal ⟨2⟩) (.leaf "a" v) := .leaf <| by decide +kernel
    exact hnode (r := ⟨1⟩) (by decide) (by decide +kernel) <| .cons hi <| .cons ha .nil

theorem conflict_repetition {alg : Algorithm} {a : Automaton} {t : ParseTable}
    (ha : build (.ofGrammar repetition) alg = .ok a)
    (ht : ParseTable.build a (.ofGrammar repetition) = .ok t) : t.conflict = false :=
  eq_of_builds (·.conflict) (by cases alg <;> decide +kernel) ha ht

-- All sentences `a … a` are parsed.
theorem parser_complete_on_repetition : repetition.IsDefined ∧
    ∃ a t, build (.ofGrammar repetition) .lr0 = .ok a ∧
      ParseTable.build a (.ofGrammar repetition) = .ok t ∧ t.conflict = false ∧
      ∀ vs tokens, tokens.map (fun token => (token.kind, token.value)) =
          (repetitionTree vs).leaves →
        ∃ n, ∀ fuel, n ≤ fuel →
          ((Parser.initial t (.ofTokens tokens)).runFor fuel).2 =
            .ok (some <| repetitionTree vs) := by
  obtain ⟨a, t, ha, ht, hrun⟩ :=
    @parser_complete (.ofGrammar repetition) .lr0 repetition_isDefined
  have hconflict := conflict_repetition ha ht
  exact ⟨repetition_isDefined, a, t, ha, ht, hconflict, fun vs tokens hleaves =>
    (hrun hconflict).left _ tokens derives_repetitionTree hleaves⟩

end Repetition
end ShiftReduce
