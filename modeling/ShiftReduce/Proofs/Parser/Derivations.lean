import ShiftReduce.Parser.Token
import ShiftReduce.Parser.Tree
import ShiftReduce.Proofs.FirstSets

namespace ShiftReduce

-- What a token says, apart from its position.
def Token.pair (t : Token) : String × String :=
  (t.kind, t.value)

namespace ParseTree

mutual

def leaves : ParseTree → List (String × String)
  | leaf kind value => [(kind, value)]
  | node _ children => leavesOfAll children

def leavesOfAll : List ParseTree → List (String × String)
  | []      => []
  | t :: ts => t.leaves ++ leavesOfAll ts

end

theorem leavesOfAll_eq_flatMap (ts : List ParseTree) : leavesOfAll ts = ts.flatMap leaves := by
  induction ts
  case nil          => rfl
  case cons t ts hi => rw [leavesOfAll, hi, List.flatMap_cons]

theorem leavesOfAll_append {ts us : List ParseTree} :
    leavesOfAll (ts ++ us) = leavesOfAll ts ++ leavesOfAll us := by
  simp [leavesOfAll_eq_flatMap]

end ParseTree

mutual

-- A leaf is a token of a terminal. A node has the name of the left side of a rule other than the
-- accept rule, and its children derive from the symbols on the right side, in order.
inductive Derives (g : Grammar) : Symbol → ParseTree → Prop
  | leaf {t kind value} :
    g.vocabulary.terminal? kind = some t → Derives g (.terminal t) (.leaf kind value)
  | node {r children} :
    (g.rule? r).isSome → r ≠ .accept → DerivesAll g (g.right r) children →
    Derives g (.nonterminal <| g.left r) (.node (g.name <| .nonterminal <| g.left r) children)

inductive DerivesAll (g : Grammar) : List Symbol → List ParseTree → Prop
  | nil : DerivesAll g [] []
  | cons {s ss t ts} : Derives g s t → DerivesAll g ss ts → DerivesAll g (s :: ss) (t :: ts)

end

variable {g : Grammar} {ctx : Context} {s : Symbol} {ss ss' : List Symbol} {t : ParseTree}
  {ts ts' : List ParseTree}

namespace DerivesAll

theorem append (h : DerivesAll g ss ts) (h' : DerivesAll g ss' ts') :
    DerivesAll g (ss ++ ss') (ts ++ ts') := by
  induction ss generalizing ts
  case nil =>
    cases h
    exact h'
  case cons s ss hi =>
    cases h
    case cons hs hss => exact .cons hs <| hi hss

theorem exists_append (h : DerivesAll g (ss ++ ss') ts) :
    ∃ us vs, ts = us ++ vs ∧ DerivesAll g ss us ∧ DerivesAll g ss' vs := by
  induction ss generalizing ts
  case nil => exact ⟨[], ts, rfl, .nil, h⟩
  case cons s ss hi =>
    cases h
    case cons hs hss =>
      obtain ⟨us, vs, hts, hus, hvs⟩ := hi hss
      exact ⟨_ :: us, vs, by rw [hts, List.cons_append], .cons hs hus, hvs⟩

theorem length_eq (h : DerivesAll g ss ts) : ts.length = ss.length := by
  induction ss generalizing ts
  case nil =>
    cases h
    rfl
  case cons s ss hi =>
    cases h
    case cons hs hss => simp [hi hss]

end DerivesAll

-- The label of a tree is the name of its symbol.
theorem Derives.symbol?_symbol (hg : g.WellFormed) (h : Derives g s t) :
    g.vocabulary.symbol? t.symbol = some s := by
  cases h
  case leaf ht => exact (Vocabulary.IsSound.symbol?_of_terminal? ht).left
  case node r children hr _ _ =>
    obtain ⟨rule, hrule⟩ := Option.isSome_iff_exists.mp hr
    refine hg.vocabulary.symbol?_name ?_ (by simp)
    rw [Grammar.left_of_rule? hrule]
    exact hg.declares_left hrule

-- What a tree or a list of trees begins with.
def BeginsWith (ctx : Context) (ss : List Symbol) : List (String × String) → Prop
  | []     => ctx.first.NullableSeq ss
  | p :: _ => ∃ t, ctx.grammar.vocabulary.terminal? p.1 = some t ∧ t ∈ ctx.first.ofSeq ss ∅

theorem beginsWith_append {xs ys : List (String × String)} (hx : BeginsWith ctx [s] xs)
    (hy : BeginsWith ctx ss ys) : BeginsWith ctx (s :: ss) (xs ++ ys) := by
  cases xs
  case nil =>
    have hs : ctx.first.IsNullableSymbol s := hx s <| .head _
    cases ys
    case nil => exact List.forall_mem_cons.mpr ⟨hs, hy⟩
    case cons y ys =>
      obtain ⟨t, ht, hmem⟩ := hy
      exact ⟨t, ht, FirstSets.mem_ofSeq_cons.mpr <| .inr ⟨hs, hmem⟩⟩
  case cons x xs =>
    obtain ⟨t, ht, hmem⟩ := hx
    exact ⟨t, ht, FirstSets.mem_ofSeq_cons.mpr <| .inl hmem⟩

mutual

theorem Derives.first (hg : ctx.grammar.WellFormed) :
    ∀ {s t}, Derives ctx.grammar s t → BeginsWith ctx [s] t.leaves
  | _, _, .leaf ht => ⟨_, ht, TerminalSet.mem_singleton.mpr rfl⟩
  | _, _, @Derives.node _ _ ts hr _ h => by
    have hfirst := h.first hg
    rw [ParseTree.leaves]
    cases hleaves : ParseTree.leavesOfAll ts
    case nil =>
      rw [hleaves] at hfirst
      exact List.forall_mem_singleton.mpr <| ctx.isNullable_left hg hr hfirst
    case cons p ps =>
      rw [hleaves] at hfirst
      obtain ⟨u, hu, hmem⟩ := hfirst
      exact ⟨u, hu, FirstSets.mem_ofSeq_nonterminal.mpr <| ctx.mem_first_left hg hr hmem⟩

theorem DerivesAll.first (hg : ctx.grammar.WellFormed) :
    ∀ {ss ts}, DerivesAll ctx.grammar ss ts → BeginsWith ctx ss (ParseTree.leavesOfAll ts)
  | _, _, .nil       => fun _ h => absurd h List.not_mem_nil
  | _, _, .cons h hs => beginsWith_append (h.first hg) (hs.first hg)

end

mutual

-- No rule has the end of input on its right side, so that no leaf of a derivation is one.
theorem Derives.ne_endOfInput (hg : g.WellFormed) : ∀ {s t}, Derives g s t →
    s ≠ .terminal .endOfInput → ∀ p ∈ t.leaves, p.1 ≠ Vocabulary.endOfInputName
  | _, _, @Derives.leaf _ _ kind _ ht, hs, p, hp => by
    intro hkind
    rw [List.mem_singleton.mp hp] at hkind
    have hkind : kind = Vocabulary.endOfInputName := hkind
    rw [hkind, hg.vocabulary.terminal?_endOfInput] at ht
    exact hs <| congrArg Symbol.terminal (Option.some.inj ht).symm
  | _, _, .node _ _ h, _, p, hp => by
    refine h.ne_endOfInput hg (fun s hs he => ?_) p hp
    refine hg.not_reserved_of_mem_right hs ?_
    rw [he]
    exact Terminal.isReserved_iff.mpr <| .inl rfl

theorem DerivesAll.ne_endOfInput (hg : g.WellFormed) : ∀ {ss ts}, DerivesAll g ss ts →
    (∀ s ∈ ss, s ≠ .terminal .endOfInput) →
    ∀ p ∈ ParseTree.leavesOfAll ts, p.1 ≠ Vocabulary.endOfInputName
  | _, _, .nil, _, _, hp       => absurd hp List.not_mem_nil
  | _, _, .cons h h', hs, p, hp => by
    obtain ⟨hs, hss⟩ := List.forall_mem_cons.mp hs
    cases List.mem_append.mp hp
    case inl hp => exact h.ne_endOfInput hg hs p hp
    case inr hp => exact h'.ne_endOfInput hg hss p hp

end
end ShiftReduce
