import ShiftReduce.Proofs.Parser.Soundness

namespace ShiftReduce

open Automaton

-- The tokens without an end of input that comes last.
def Token.stripped (tokens : List Token) : List Token :=
  match tokens.getLast? with
  | some last => if last.IsEndOfInput then tokens.dropLast else tokens
  | none      => tokens

-- A stream has one end of input behind what has been supplied.
theorem TokenStream.exists_ofTokens_eq (tokens : List Token) : ∃ last,
    (ofTokens tokens).tokens.toList = Token.stripped tokens ++ [last] ∧ last.IsEndOfInput := by
  cases hlast : tokens.getLast?
  case none =>
    cases List.getLast?_eq_none_iff.mp hlast
    exact ⟨.endOfInput, rfl, rfl⟩
  case some last =>
    by_cases hend : last.IsEndOfInput
    case pos =>
      refine ⟨last, ?_, hend⟩
      simp only [ofTokens, Token.stripped, hlast, if_pos hend]
      exact (List.dropLast_append_getLast? last hlast).symm
    case neg =>
      refine ⟨.endOfInput, ?_, rfl⟩
      simp only [ofTokens, Token.stripped, hlast, if_neg hend]

variable {ctx : Context} {a : Automaton} {t : ParseTable} {p p' : Parser} {stack : List Frame}
  {tokens : List Token} {s : ParseStep} {fuel : Nat} {e : SequencingError}

-- No rule asks for the end of input, so that no tree on the stack has it.
theorem Linked.ne_endOfInput (h : Linked ctx.grammar a stack) (hg : ctx.grammar.WellFormed)
    (hc : a.Coherent ctx) : ∀ leaf ∈ ParseTree.leavesOfAll (stack.map (·.tree)).reverse,
      leaf.1 ≠ Vocabulary.endOfInputName := by
  induction h
  case nil => simp [ParseTree.leavesOfAll]
  case push s _ htransition hd hi =>
    intro leaf hleaf
    rw [List.map_cons, List.reverse_cons, ParseTree.leavesOfAll_append] at hleaf
    cases List.mem_append.mp hleaf
    case inl hleaf => exact hi leaf hleaf
    case inr hleaf =>
      obtain ⟨n, edge, hn, hedge, hs, _⟩ := hc.exists_of_transition? htransition
      obtain ⟨c, _, hnext⟩ := hc.exists_next hn hedge
      have hreserved := hg.not_reserved_of_mem_right <| List.mem_of_getElem? (hs ▸ hnext)
      refine hd.ne_endOfInput hg (fun he => hreserved ?_) leaf ?_
      · rw [he]
        exact Terminal.isReserved_iff.mpr <| .inl rfl
      · simpa [ParseTree.leavesOfAll] using hleaf

namespace Parser

theorem table_runFor : (p.runFor fuel).1.table = p.table := by
  induction fuel generalizing p
  case zero =>
    rw [runFor]
    split
    case isTrue  => rfl
    case isFalse => split <;> rfl
  case succ fuel hi =>
    have htable : p.step.1.table = p.table := by
      obtain ⟨_, _, _, hframe⟩ := p.exists_step_eq
      rw [hframe]
    rw [runFor]
    split
    case isFalse => split <;> rfl
    case isTrue =>
      generalize p.step = stepped at htable
      obtain ⟨p', result⟩ := stepped
      cases result
      case error => exact htable
      case ok    => exact hi.trans htable

-- Only a parser without anything to act on is out of sequence, and it stays as it is.
theorem not_meets_of_sequencing (h : p.step.2 = .error (.sequencing e)) (token : Token) :
    ¬ p.Meets token := by
  intro hmeets
  have hperforms := p.performs_step
  generalize p.step = result at hperforms h
  cases hperforms
  case halted hhalted => exact hhalted hmeets.status
  case exhausted hnone => simp [hmeets.next] at hnone
  case unexpected | shift | accept | goto => simp at h
  case reduce r _ _ =>
    obtain ⟨_, hr⟩ | ⟨_, _, _, _, hr⟩ := p.reduce_cases r <;> simp [hr] at h

-- Only an acceptance ends a run that goes well.
theorem status_of_step (h : p.step = (p', .ok s)) :
    p'.status = if s = .accept then .accepted else .running := by
  have hperforms := p.performs_step
  rw [h] at hperforms
  generalize hr : (p', (.ok s : Except Error ParseStep)) = result at hperforms
  cases hperforms
  case halted | exhausted | unexpected | goto => simp at hr
  case shift hmeets _ =>
    cases hr
    exact hmeets.status
  case accept =>
    cases hr
    rfl
  case reduce r hmeets _ =>
    obtain ⟨stack, hstack⟩ := p.exists_reduce_eq r
    have hp' : p' = { p with stack } := (congrArg Prod.fst hr).trans hstack
    have hs : (.ok s : Except Error ParseStep) = _ := congrArg Prod.snd hr
    obtain ⟨_, hresult⟩ | ⟨_, _, _, _, hresult⟩ := p.reduce_cases r
    all_goals cases hs.trans hresult
    rw [hp']
    exact hmeets.status

namespace Sound

section Steps

variable (h : Sound ctx.grammar a t (.ofTokens tokens) p)

include h

theorem exists_tree? (hp : p.status = .accepted) : ∃ tree, p.tree? = some tree ∧
    p.values = [tree] ∧ Derives ctx.grammar (.nonterminal ctx.grammar.start) tree := by
  obtain ⟨tree, _, hvalues, hd, _⟩ := h.accepted hp
  have hstack : p.stack.map (·.tree) = [tree] := by
    simpa [values] using congrArg List.reverse hvalues
  refine ⟨tree, ?_, hvalues, hd⟩
  rw [tree?, if_pos hp, ← List.head?_map, hstack]
  rfl

-- There is always a token to read, since the last one is never shifted.
theorem exists_meets (hg : ctx.grammar.WellFormed) (hc : a.Coherent ctx)
    (hp : p.status = .running) : ∃ token, p.Meets token := by
  obtain ⟨last, hstream, hlast⟩ := TokenStream.exists_ofTokens_eq tokens
  cases hnext : p.tokens.get? p.cursor
  case some token => exact ⟨token, hp, hnext⟩
  case none =>
    rw [h.stream, TokenStream.get?, ← Array.getElem?_toList, List.getElem?_eq_none_iff] at hnext
    have hmem : last.pair ∈ ParseTree.leavesOfAll p.values := by
      rw [h.leaves, List.take_of_length_le hnext, hstream]
      exact List.mem_map_of_mem (by simp)
    exact absurd hlast <| h.linked.ne_endOfInput hg hc _ hmem

theorem step_ne_sequencing (hg : ctx.grammar.WellFormed) (hc : a.Coherent ctx)
    (hp : p.status = .running) : p.step.2 ≠ .error (.sequencing e) := by
  obtain ⟨token, hmeets⟩ := h.exists_meets hg hc hp
  exact fun he => not_meets_of_sequencing he token hmeets

end Steps

theorem runFor_ne_sequencing (h : Sound ctx.grammar a t (.ofTokens tokens) p)
    (hg : ctx.grammar.WellFormed) (hc : a.Coherent ctx) (htable : IsTableOf ctx a t)
    (hp : p.status ≠ .failed) : (p.runFor fuel).2 ≠ .error (.sequencing e) := by
  have hhalted {p : Parser} {fuel : Nat} (h : Sound ctx.grammar a t (.ofTokens tokens) p)
      (hp : p.status ≠ .failed) (hrunning : p.status ≠ .running) :
      (p.runFor fuel).2 ≠ .error (.sequencing e) := by
    have haccepted : p.status = .accepted := by
      cases hs : p.status <;> simp_all
    obtain ⟨tree, htree, _⟩ := h.exists_tree? haccepted
    simp [runFor_of_tree? hrunning htree]
  induction fuel generalizing p
  case zero =>
    by_cases hrunning : p.status = .running
    case pos => simp [runFor, hrunning]
    case neg => exact hhalted h hp hrunning
  case succ fuel hi =>
    by_cases hrunning : p.status = .running
    case neg => exact hhalted h hp hrunning
    case pos =>
      have hsound := h.step hg hc htable
      have hne := h.step_ne_sequencing (e := e) hg hc hrunning
      rw [runFor, if_pos hrunning]
      generalize hstep : p.step = stepped at hsound hne
      obtain ⟨p', result⟩ := stepped
      cases result
      case error => simpa using hne
      case ok =>
        refine hi hsound ?_
        rw [status_of_step hstep]
        split <;> simp

end Sound
end Parser
end ShiftReduce
