import ShiftReduce.Proofs.Derivation.Rightmost
import ShiftReduce.Proofs.Parser.Derivations

namespace ShiftReduce

open Relation Grammar

namespace Grammar

def IsSentence (g : Grammar) (w : List Terminal) : Prop :=
  g.DerivesTo [.nonterminal g.start] (word w)

-- The terminal can follow on these: with it, they begin a sentence and the end of input behind it.
def Continues (g : Grammar) (w : List Terminal) (x : Terminal) : Prop :=
  ∃ u, g.IsSentence u ∧ w ++ [x] <+: u ++ [.endOfInput]

-- The names are those of the terminals, one by one.
def Spells (g : Grammar) (names : List String) (w : List Terminal) : Prop :=
  names.map g.vocabulary.terminal? = w.map some

end Grammar

variable {g : Grammar} {γ ss ss' : List Symbol} {s : Symbol} {u v w : List Terminal}
  {x : Terminal} {n : Nonterminal} {r : RuleId} {ts : List ParseTree}
  {names names' : List String} {pairs : List (String × String)}

namespace Grammar.Spells

theorem append (h : g.Spells names v) (h' : g.Spells names' w) :
    g.Spells (names ++ names') (v ++ w) := by
  rw [Spells, List.map_append, List.map_append, h, h']

theorem concat {name : String} (h : g.Spells names w)
    (hx : g.vocabulary.terminal? name = some x) : g.Spells (names ++ [name]) (w ++ [x]) :=
  h.append <| congrArg ([·]) hx

theorem unique (h : g.Spells names v) (h' : g.Spells names w) : v = w :=
  List.map_injective_iff.mpr (Option.some_injective _) <| h.symm.trans h'

end Grammar.Spells

mutual

theorem Derives.exists_derivesTo : ∀ {s t}, Derives g s t →
    ∃ w, g.DerivesTo [s] (word w) ∧ g.Spells (t.leaves.map (·.1)) w
  | _, _, @Derives.leaf _ x _ _ ht => ⟨[x], .refl, congrArg ([·]) ht⟩
  | _, _, .node hr _ h => by
    obtain ⟨w, hw, hspells⟩ := h.exists_derivesTo
    exact ⟨w, (DerivesTo.rule hr).trans hw, hspells⟩

theorem DerivesAll.exists_derivesTo : ∀ {ss ts}, DerivesAll g ss ts →
    ∃ w, g.DerivesTo ss (word w) ∧ g.Spells ((ParseTree.leavesOfAll ts).map (·.1)) w
  | _, _, .nil => ⟨[], .refl, rfl⟩
  | _, _, .cons h h' => by
    obtain ⟨v, hv, hspells⟩ := h.exists_derivesTo
    obtain ⟨w, hw, hspells'⟩ := h'.exists_derivesTo
    refine ⟨v ++ w, hv.cons hw, ?_⟩
    rw [ParseTree.leavesOfAll, List.map_append]
    exact hspells.append hspells'

end

namespace Grammar

theorem Spells.derivesAll (h : g.Spells (pairs.map (·.1)) w) :
    DerivesAll g (word w) (pairs.map fun p => .leaf p.1 p.2) := by
  induction pairs generalizing w
  case nil =>
    cases List.map_eq_nil_iff.mp h.symm
    exact .nil
  case cons p pairs hi =>
    obtain ⟨x, w', hw, hx, hw'⟩ := List.map_eq_cons_iff.mp h.symm
    subst hw
    exact .cons (.leaf hx.symm) <| hi hw'.symm

-- Back over one step: the trees of the right side become the children of one tree.
theorem RewritesLast.exists_trees (h : g.RewritesLast ss ss') (hg : g.WellFormed)
    (hss : ∀ s ∈ ss, s ≠ .nonterminal .accept) (hts : DerivesAll g ss' ts) :
    ∃ us, DerivesAll g ss us ∧ ParseTree.leavesOfAll us = ParseTree.leavesOfAll ts := by
  cases h
  case rule δ r w hr =>
    have hne : r ≠ .accept := by
      intro he
      refine hss (.nonterminal (g.left r)) (List.mem_append_right _ <| .head _) ?_
      rw [he, hg.left_accept]
    obtain ⟨before, rest, hts', hbefore, hrest⟩ := hts.exists_append
    obtain ⟨children, behind, hrest', hchildren, hbehind⟩ := hrest.exists_append
    refine ⟨before ++ .node (g.name <| .nonterminal <| g.left r) children :: behind,
      hbefore.append <| .cons (.node hr hne hchildren) hbehind, ?_⟩
    rw [hts', hrest']
    simp [ParseTree.leavesOfAll_append, ParseTree.leavesOfAll, ParseTree.leaves]

-- The induction goes back from the string, which is spelled by leaves.
theorem DerivesTo.exists_trees (h : g.DerivesTo ss (word w)) (hg : g.WellFormed)
    (hss : ∀ s ∈ ss, s ≠ .nonterminal .accept) (hpairs : g.Spells (pairs.map (·.1)) w) :
    ∃ ts, DerivesAll g ss ts ∧ ParseTree.leavesOfAll ts = pairs := by
  induction h using ReflTransGen.head_induction_on
  case refl =>
    refine ⟨_, hpairs.derivesAll, ?_⟩
    simp [ParseTree.leavesOfAll_eq_flatMap, List.flatMap_map, ParseTree.leaves]
  case head hstep _ hi =>
    have hright : ∀ r, ∀ s ∈ g.right r, s ≠ .nonterminal .accept :=
      fun r s hs he => hg.accept_not_mem_right <| he ▸ hs
    obtain ⟨ts, hts, hleaves⟩ := hi <| hstep.forall_mem hright hss
    obtain ⟨us, hus, hleaves'⟩ := hstep.exists_trees hg hss hts
    exact ⟨us, hus, hleaves'.trans hleaves⟩

theorem RewritesLast.exists_rule (h : g.RewritesLast [.nonterminal n] ss) :
    ∃ r, (g.rule? r).isSome ∧ g.left r = n ∧ g.right r = ss := by
  generalize hn : [Symbol.nonterminal n] = ss' at h
  cases h
  case rule δ r w hr =>
    cases δ
    case cons => simp at hn
    case nil =>
      obtain ⟨hleft, hw⟩ := List.cons.inj hn
      exact ⟨r, hr, (Symbol.nonterminal.inj hleft).symm, by simp [← hw]⟩

namespace IsSentence

theorem of_accept (hg : g.WellFormed) (h : g.DerivesTo [.nonterminal .accept] (word w)) :
    g.IsSentence w := by
  cases ReflTransGen.cases_head h
  case inl he => exact absurd (he ▸ List.mem_singleton.mpr rfl) (nonterminal_not_mem_word (w := w))
  case inr hstep =>
    obtain ⟨ss, hstep, hss⟩ := hstep
    obtain ⟨r, hr, hleft, hright⟩ := hstep.exists_rule
    cases (hg.left_eq_accept_iff hr).mp hleft
    rw [← hright, hg.right_accept] at hss
    exact hss

theorem forall_mem {P : Symbol → Prop} (h : g.IsSentence w) (hg : g.WellFormed)
    (hright : ∀ r, ∀ s ∈ g.right r, P s) : ∀ x ∈ w, P (.terminal x) := by
  intro x hx
  refine DerivesTo.forall_mem h hright (fun s hs => hright .accept s ?_) _ <|
    List.mem_map_of_mem hx
  rwa [hg.right_accept]

theorem mem_inputTerminals (h : g.IsSentence w) (hg : g.WellFormed)
    (hx : x ∈ w ++ [.endOfInput]) : x ∈ g.vocabulary.inputTerminals := by
  cases List.mem_append.mp hx
  case inl hx =>
    refine h.forall_mem hg (P := fun s => ∀ t, s = .terminal t → t ∈ g.vocabulary.inputTerminals)
      (fun r s hs t ht => hg.mem_inputTerminals_of_mem_right <| ht ▸ hs) x hx x rfl
  case inr hx => exact List.mem_singleton.mp hx ▸ hg.endOfInput_mem_inputTerminals

theorem exists_tree (h : g.IsSentence w) (hg : g.WellFormed)
    (hpairs : g.Spells (pairs.map (·.1)) w) :
    ∃ tree, Derives g (.nonterminal g.start) tree ∧ tree.leaves = pairs := by
  obtain ⟨ts, hts, hleaves⟩ := DerivesTo.exists_trees h hg
    (fun s hs he => hg.accept_not_mem_right (r := .accept) <| by rwa [hg.right_accept, ← he]) hpairs
  cases hts
  case cons htree hnil =>
    cases hnil
    exact ⟨_, htree, by simpa [ParseTree.leavesOfAll] using hleaves⟩

end IsSentence

theorem Continues.mem_inputTerminals (h : g.Continues w x) (hg : g.WellFormed) :
    x ∈ g.vocabulary.inputTerminals := by
  obtain ⟨u, hu, hprefix⟩ := h
  exact hu.mem_inputTerminals hg <| hprefix.subset <| List.mem_append_right _ <| .head _

-- The rest of the sentence, with the derivation tree of the whole.
theorem Continues.exists_tree (h : g.Continues w x) (hg : g.WellFormed) {tokens : List Token}
    {token : Token} (hw : g.Spells (tokens.map (·.kind)) w)
    (hx : g.vocabulary.terminal? token.kind = some x) :
    ∃ rest sentence last tree, tokens ++ token :: rest = sentence ++ [last] ∧
      Derives g (.nonterminal g.start) tree ∧ sentence.map Token.pair = tree.leaves ∧
      g.vocabulary.terminal? last.kind = some .endOfInput := by
  obtain ⟨u, hu, ρ, hρ⟩ := h
  let rest := ρ.map fun y => Token.mk (g.name (.terminal y)) "" {}
  have hrest : g.Spells (rest.map (·.kind)) ρ := by
    simp only [rest, Spells, List.map_map]
    refine List.map_congr_left fun y hy => ?_
    have hmem : y ∈ u ++ [.endOfInput] := hρ ▸ List.mem_append_right _ hy
    exact hg.vocabulary.terminal?_name <| hu.mem_inputTerminals hg hmem
  have hspells : (tokens ++ token :: rest).map (g.vocabulary.terminal? ·.kind) =
      u.map some ++ [some .endOfInput] := by
    have := (hw.concat hx).append hrest
    rw [hρ] at this
    simpa [Spells, Function.comp_def] using this
  obtain ⟨sentence, others, hsplit, hsentence, hothers⟩ := List.map_eq_append_iff.mp hspells
  obtain ⟨last, hlast, hend⟩ := List.map_eq_singleton_iff.mp hothers
  have hpairs : g.Spells ((sentence.map Token.pair).map (·.1)) u := by
    rw [Spells, List.map_map, List.map_map]
    exact hsentence
  obtain ⟨tree, htree, hleaves⟩ := hu.exists_tree hg hpairs
  exact ⟨rest, sentence, last, tree, by rw [hsplit, hlast], htree, hleaves.symm, hend⟩

theorem IsViable.exists_isSentence (h : g.IsViable γ) (hg : g.WellFormed) (hp : g.IsProductive)
    (hγ : g.DerivesTo γ (word v)) : ∃ u, g.IsSentence u ∧ v <+: u := by
  obtain ⟨δ, r, w, hr, hd, ρ, hρ⟩ := h
  have hd : g.DerivesTo [.nonterminal .accept] (γ ++ ρ ++ word w) := by
    rw [hρ, List.append_assoc]
    exact hd.tail <| .rule hr
  have hdeclares := hd.forall_mem (fun _ _ => hg.declares_of_mem_right) fun s hs =>
    List.mem_singleton.mp hs ▸ hg.declares_left hg.accept_rule
  obtain ⟨z, hz⟩ := hp.exists_word fun s hs =>
    hdeclares s <| List.mem_append_left _ <| List.mem_append_right γ hs
  refine ⟨v ++ z ++ w, .of_accept hg <| hd.trans ?_, ?_⟩
  · exact (hγ.append hz).append .refl
  · rw [List.append_assoc]
    exact List.prefix_append ..

theorem IsViable.continues (h : g.IsViable (γ ++ [.terminal x])) (hg : g.WellFormed)
    (hp : g.IsProductive) (hγ : g.DerivesTo γ (word v)) : g.Continues v x := by
  have hx : g.DerivesTo [.terminal x] (word [x]) := .refl
  obtain ⟨u, hu, hprefix⟩ := h.exists_isSentence hg hp <| hγ.append hx
  exact ⟨u, hu, hprefix.trans <| List.prefix_append ..⟩

theorem IsValid.continues (h : g.IsValid γ ⟨r, (g.right r).length⟩ x) (hg : g.WellFormed)
    (hγ : g.DerivesTo γ (word v)) : g.Continues v x := by
  obtain ⟨δ, w, hd, hδ, hx⟩ := h.derives
  rw [List.take_length] at hδ
  obtain ⟨rest, hrest⟩ := List.head?_eq_some_iff.mp hx
  have hd : g.DerivesTo [.nonterminal .accept] (γ ++ word w) := by
    rw [← hδ, List.append_assoc]
    exact hd.tail <| .rule h.rule
  refine ⟨v ++ w, .of_accept hg <| hd.trans <| hγ.append .refl, rest, ?_⟩
  rw [List.append_assoc, List.append_assoc, hrest]
  rfl

end Grammar
end ShiftReduce
