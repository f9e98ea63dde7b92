import ShiftReduce.Proofs.FirstSets

namespace ShiftReduce
namespace Grammar

inductive Vanishes (g : Grammar) : List Symbol → Prop
  | nil : Vanishes g []
  | cons {r ss} :
    (g.rule? r).isSome → Vanishes g (g.right r) → Vanishes g ss →
    Vanishes g (.nonterminal (g.left r) :: ss)

-- The terminal stands in front, or comes out of the first symbol, or that one vanishes.
inductive Begins (g : Grammar) : List Symbol → Terminal → Prop
  | terminal {x ss} : Begins g (.terminal x :: ss) x
  | inside {r ss x} :
    (g.rule? r).isSome → Begins g (g.right r) x → Begins g (.nonterminal (g.left r) :: ss) x
  | behind {r ss x} :
    (g.rule? r).isSome → Vanishes g (g.right r) → Begins g ss x →
    Begins g (.nonterminal (g.left r) :: ss) x

variable {g : Grammar} {ss ss' : List Symbol} {x : Terminal}

theorem Vanishes.append (h : g.Vanishes ss) (h' : g.Vanishes ss') : g.Vanishes (ss ++ ss') := by
  induction h
  case nil => exact h'
  case cons hr hright _ _ hi => exact .cons hr hright hi

theorem Begins.append (h : g.Begins ss x) : g.Begins (ss ++ ss') x := by
  induction h
  case terminal => exact .terminal
  case inside hr hright _ => exact .inside hr hright
  case behind hr hright _ hi => exact .behind hr hright hi

theorem Begins.append_left (h : g.Vanishes ss) (h' : g.Begins ss' x) :
    g.Begins (ss ++ ss') x := by
  induction h
  case nil => exact h'
  case cons hr hright _ _ hi => exact .behind hr hright hi

end Grammar

namespace FirstSets

variable {g : Grammar} {f : FirstSets} {seq : List Symbol} {r : RuleId} {rule : Rule}
  {x : Terminal} {fuel : Nat}

-- All that an approximation says is true.
structure IsSound (g : Grammar) (f : FirstSets) : Prop where
  nullable : ∀ n ∈ f.nullable, g.Vanishes [.nonterminal n]
  first    : ∀ n, ∀ x ∈ f.first n, g.Begins [.nonterminal n] x

theorem vanishes_of_nullableSeq (h : ∀ n ∈ f.nullable, g.Vanishes [.nonterminal n])
    (hn : f.NullableSeq seq) : g.Vanishes seq := by
  induction seq
  case nil => exact .nil
  case cons s seq hi =>
    obtain ⟨hs, hseq⟩ := List.forall_mem_cons.mp hn
    cases s
    case terminal    => exact hs.elim
    case nonterminal => exact (h _ hs).append (hi hseq)

theorem begins_of_mem_ofSeq (h : IsSound g f) (hx : x ∈ f.ofSeq seq ∅) : g.Begins seq x := by
  induction seq
  case nil => simp [ofSeq] at hx
  case cons s seq hi =>
    cases s
    case terminal u =>
      cases TerminalSet.mem_singleton.mp hx
      exact .terminal
    case nonterminal n =>
      cases mem_ofSeq_cons.mp hx
      case inl hx => exact (h.first n x <| mem_ofSeq_nonterminal.mp hx).append
      case inr hx => exact (hi hx.right).append_left (h.nullable n hx.left)

namespace IsSound

theorem init : IsSound g (initial g) where
  nullable n hn := by simp [initial] at hn
  first n x hx  := absurd hx not_mem_first_initial

theorem absorb (h : IsSound g f) (hr : g.rule? r = some rule) : IsSound g (f.absorb rule) := by
  have hsome : (g.rule? r).isSome := Option.isSome_iff_exists.mpr ⟨rule, hr⟩
  have hleft := Grammar.left_of_rule? hr
  have hright := Grammar.right_of_rule? hr
  have hnullable : ∀ n ∈ (f.absorb rule).nullable, g.Vanishes [.nonterminal n] := by
    intro n hn
    cases mem_nullable_absorb.mp hn
    case inl hn => exact h.nullable n hn
    case inr hn =>
      have hvanishes := vanishes_of_nullableSeq h.nullable hn.right
      rw [hn.left, ← hleft]
      exact .cons hsome (hright ▸ hvanishes) .nil
  refine ⟨hnullable, fun n x hx => ?_⟩
  cases mem_first_absorb.mp hx
  case inl hx => exact h.first n x hx
  case inr hx =>
    have hsound : IsSound g { f with nullable := (f.absorb rule).nullable } :=
      ⟨hnullable, h.first⟩
    have hbegins := begins_of_mem_ofSeq hsound hx.right.right
    rw [hx.left, ← hleft]
    exact .inside hsome (hright ▸ hbegins)

theorem pass (h : IsSound g f) : IsSound g (f.pass g) := by
  refine pass_induction h fun f rule hmem h => ?_
  obtain ⟨r, hr⟩ := exists_rule? hmem
  exact h.absorb hr

theorem getLastD_approximationsFrom (h : IsSound g f) :
    IsSound g ((approximationsFrom g fuel f).getLastD f) := by
  induction fuel generalizing f
  case zero => exact h
  case succ fuel hi =>
    rw [approximationsFrom, List.getLastD_cons]
    split
    · exact h.pass
    · exact hi h.pass

theorem ofGrammar : IsSound g (ofGrammar g) :=
  init.getLastD_approximationsFrom

end IsSound
end FirstSets

namespace Context

open Grammar

variable {ctx : Context} {seq : List Symbol} {x : Terminal}

theorem nullableSeq_iff (h : ctx.grammar.WellFormed) :
    ctx.first.NullableSeq seq ↔ ctx.grammar.Vanishes seq := by
  constructor
  case mp => exact FirstSets.vanishes_of_nullableSeq (ctx.first_eq ▸ FirstSets.IsSound.ofGrammar).1
  case mpr =>
    intro hv
    induction hv
    case nil => simp [FirstSets.NullableSeq]
    case cons hr _ _ hright hss =>
      exact List.forall_mem_cons.mpr ⟨ctx.isNullable_left h hr hright, hss⟩

theorem mem_ofSeq_iff (h : ctx.grammar.WellFormed) :
    x ∈ ctx.first.ofSeq seq ∅ ↔ ctx.grammar.Begins seq x := by
  constructor
  case mp => exact FirstSets.begins_of_mem_ofSeq <| ctx.first_eq ▸ FirstSets.IsSound.ofGrammar
  case mpr =>
    intro hb
    induction hb
    case terminal => exact TerminalSet.mem_singleton.mpr rfl
    case inside hr _ hi =>
      refine FirstSets.mem_ofSeq_cons.mpr <| .inl ?_
      exact FirstSets.mem_ofSeq_nonterminal.mpr <| ctx.mem_first_left h hr hi
    case behind hr hv _ hi =>
      refine FirstSets.mem_ofSeq_cons.mpr <| .inr ⟨?_, hi⟩
      exact ctx.isNullable_left h hr <| (ctx.nullableSeq_iff h).mpr hv

end Context
end ShiftReduce
