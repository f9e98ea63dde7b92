import ShiftReduce.Proofs.Construction.Coherence
import ShiftReduce.Proofs.Derivation.Rightmost

namespace ShiftReduce

open Grammar

namespace FirstSets

variable {f : FirstSets} {ss ss' : List Symbol} {lookaheads : TerminalSet} {x : Terminal}

theorem mem_ofSeq_append :
    x ∈ f.ofSeq (ss ++ ss') lookaheads ↔ x ∈ f.ofSeq ss (f.ofSeq ss' lookaheads) := by
  induction ss
  case nil => rfl
  case cons s ss hi => rw [List.cons_append, mem_ofSeq_cons, hi, ← mem_ofSeq_cons]

theorem ofSeq_mono {lookaheads' : TerminalSet} (h : ∀ x ∈ lookaheads, x ∈ lookaheads') :
    ∀ x ∈ f.ofSeq ss lookaheads, x ∈ f.ofSeq ss lookaheads' := by
  intro x hx
  rw [mem_ofSeq] at hx ⊢
  exact hx.imp_right fun hx => ⟨hx.left, h x hx.right⟩

end FirstSets

namespace Automaton

-- Where the transitions on the symbols lead, from the start on.
def follow? (a : Automaton) (γ : List Symbol) : Option StateId :=
  γ.foldlM (a.transition? · ·) .start

-- The item at the end of the path may act on the terminal.
def Along (ctx : Context) (a : Automaton) (γ : List Symbol) (c : Core) (t : Terminal) : Prop :=
  ∃ q, a.follow? γ = some q ∧ a.Looks ctx q c t

variable {ctx : Context} {a : Automaton} {γ γ' ss : List Symbol} {s : Symbol} {q : StateId}
  {n : Node} {c d : Core} {t u : Terminal} {r : RuleId} {k : Nat}

theorem follow?_concat : a.follow? (γ ++ [s]) = (a.follow? γ).bind (a.transition? · s) := by
  simp [follow?, List.foldlM_append]

theorem isSome_follow?_of_prefix (h : γ <+: γ') (hs : (a.follow? γ').isSome) :
    (a.follow? γ).isSome := by
  obtain ⟨ρ, hρ⟩ := h
  subst hρ
  rw [follow?, List.foldlM_append] at hs
  rw [follow?]
  cases hf : γ.foldlM (a.transition? · ·) StateId.start
  case none => simp [hf] at hs
  case some => rfl

section Soundness

variable (hg : ctx.grammar.WellFormed) (hp : ctx.grammar.IsProductive)

include hg hp

-- Every item on a path is valid for it, with some lookahead.
theorem Coherent.exists_isValid (hc : a.Coherent ctx) (hq : a.follow? γ = some q)
    (hn : a.node? q = some n) (hcore : c ∈ n.items.closure.map Item.core) :
    ∃ t, ctx.grammar.IsValid γ c t := by
  induction γ using List.reverseRecOn generalizing q n c
  case nil =>
    cases hq
    obtain ⟨n', hn', hkernel⟩ := hc.start
    cases hn.symm.trans hn'
    refine IsValid.exists_of_predicted hg hp (fun k hk => ?_) <| (hc.closed hn c).mp hcore
    rw [hkernel] at hk
    exact List.mem_singleton.mp hk ▸ ⟨_, .start hg⟩
  case append_singleton γ s hi =>
    rw [follow?_concat] at hq
    obtain ⟨p, hp', htransition⟩ := Option.bind_eq_some_iff.mp hq
    obtain ⟨m, e, hm, he, hs, htarget⟩ := hc.exists_of_transition? htransition
    obtain ⟨n', hn', hcores⟩ := hc.targets hm he
    cases hn.symm.trans (htarget ▸ hn')
    refine IsValid.exists_of_predicted hg hp (fun k hk => ?_) <| (hc.closed hn c).mp hcore
    obtain ⟨d, hd, hnext, hadvance⟩ := (hcores k).mp hk
    obtain ⟨t, ht⟩ := hi hp' hm hd
    exact ⟨t, hadvance ▸ ht.advance (hs ▸ hnext)⟩

-- Every lookahead of a canonical LR(1) state is valid, too.
theorem isValid_of_covers (h : Collected ctx .lr1 a) (hq : a.follow? γ = some q)
    (hn : a.node? q = some n) (hcovers : Covers n.items.closure c t) :
    ctx.grammar.IsValid γ c t := by
  have hc := (h.follows hg).coherent hg
  have hcompletes {q n} (hn : a.node? q = some n) :
      Completes ctx .lr1 (kernelIn ctx .lr1 q) n.items.closure := by
    rw [h.closure_eq hn]
    exact completes_closureIn hg (h.kernel_eq hn).left
  have hcores {γ q n} (hq : a.follow? γ = some q) (hn : a.node? q = some n) :
      ∀ c ∈ (kernelIn ctx .lr1 q).map Item.core, ∃ t, ctx.grammar.IsValid γ c t :=
    fun c hc' => hc.exists_isValid hg hp hq hn <|
      List.map_subset _ (hcompletes hn).subset.subset hc'
  induction γ using List.reverseRecOn generalizing q n c t
  case nil =>
    cases hq
    refine IsValid.of_looksAhead hg hp (hcores rfl hn) (fun c t hk => ?_) <|
      ((hcompletes hn).covers rfl c t).mp hcovers
    rw [kernelIn_start hg] at hk
    obtain ⟨hcore, ht⟩ := covers_singleton.mp hk
    have ht : t = .endOfInput := TerminalSet.mem_singleton.mp ht
    subst hcore ht
    exact .start hg
  case append_singleton γ s hi =>
    refine IsValid.of_looksAhead hg hp (hcores hq hn) (fun c t hk => ?_) <|
      ((hcompletes hn).covers rfl c t).mp hcovers
    rw [follow?_concat] at hq
    obtain ⟨p, hp', htransition⟩ := Option.bind_eq_some_iff.mp hq
    obtain ⟨m, e, hm, he, hs, htarget⟩ := hc.exists_of_transition? htransition
    obtain ⟨hsymbol, htargetIn⟩ := (h.follows hg).exists_target hm he
    have heq : q = targetIn ctx .lr1 p s := by
      rw [← htarget, htargetIn, hs]
      rfl
    rw [heq] at hk
    obtain ⟨d, hnext, hadvance, hcovers⟩ := covers_kernelOver.mp <| Covers.subset
      (fun i hi => (mem_kernelIn_targetIn hg (h.kernel_eq hm).left (hs ▸ hsymbol)).mp hi) hk
    have hvalid := hi hp' hm <| h.closure_eq hm ▸ hcovers
    exact hadvance ▸ hvalid.advance hnext

end Soundness

namespace Along

theorem start (hf : a.Foresees ctx) : a.Along ctx [] ⟨.accept, 0⟩ .endOfInput :=
  ⟨.start, rfl, hf.start⟩

theorem advance (hc : a.Coherent ctx) (hf : a.Foresees ctx) (h : a.Along ctx γ c t)
    (hs : c.next? ctx.grammar = some s) : a.Along ctx (γ ++ [s]) c.advance t := by
  obtain ⟨q, hq, hl⟩ := h
  obtain ⟨n, hn, hcore⟩ := hl.exists_node
  obtain ⟨p, hp⟩ := hc.exists_transition? hn hcore hs
  refine ⟨p, ?_, hf.advance hc hl hs hp⟩
  rw [follow?_concat, hq]
  exact hp

theorem take (hc : a.Coherent ctx) (hf : a.Foresees ctx) (h : a.Along ctx γ ⟨r, 0⟩ t)
    (hk : k ≤ (ctx.grammar.right r).length) :
    a.Along ctx (γ ++ (ctx.grammar.right r).take k) ⟨r, k⟩ t := by
  induction k
  case zero => simpa using h
  case succ k hi =>
    have hget : (ctx.grammar.right r)[k]? = some (ctx.grammar.right r)[k] :=
      List.getElem?_eq_getElem hk
    rw [List.take_add_one, hget, ← List.append_assoc]
    exact (hi <| Nat.le_of_succ_le hk).advance hc hf hget

theorem predict (hf : a.Foresees ctx) (h : a.Along ctx γ c t) (hd : d ∈ c.predicted ctx.grammar)
    (hu : u ∈ ctx.first.ofSeq (c.afterNext ctx.grammar) {t}) : a.Along ctx γ d u := by
  obtain ⟨q, hq, hl⟩ := h
  obtain ⟨n, hn, hcore⟩ := hl.exists_node
  refine ⟨q, hq, ?_⟩
  cases FirstSets.mem_ofSeq.mp hu
  case inl hu => exact hf.generated hn hcore hd hu
  case inr hu =>
    obtain ⟨hnull, hut⟩ := hu
    exact TerminalSet.mem_singleton.mp hut ▸ hf.passed hl hd hnull

-- Putting back the left side for the right side loses no terminal that may begin the rest.
theorem mem_ofSeq_rewritten (hg : ctx.grammar.WellFormed) {δ ρ : List Symbol}
    (hr : (ctx.grammar.rule? r).isSome) {lookaheads : TerminalSet}
    (ht : t ∈ ctx.first.ofSeq (δ ++ (ctx.grammar.right r ++ ρ)) lookaheads) :
    t ∈ ctx.first.ofSeq (δ ++ .nonterminal (ctx.grammar.left r) :: ρ) lookaheads := by
  rw [FirstSets.mem_ofSeq_append] at ht ⊢
  refine FirstSets.ofSeq_mono (fun x hx => ?_) t ht
  rw [FirstSets.mem_ofSeq_append, FirstSets.mem_ofSeq] at hx
  refine FirstSets.mem_ofSeq_cons.mpr <| hx.imp (fun hx => ?_) (fun hx => ⟨?_, hx.right⟩)
  · exact FirstSets.mem_ofSeq_nonterminal.mpr <| ctx.mem_first_left hg hr hx
  · exact ctx.isNullable_left hg hr hx.left

-- A rule in the middle of a right side, if that right side may be followed by `lookaheads`.
theorem inside (hc : a.Coherent ctx) (hf : a.Foresees ctx) {δ α β : List Symbol} {r₀ : RuleId}
    {lookaheads : TerminalSet} (hr : (ctx.grammar.rule? r).isSome)
    (hright : ctx.grammar.right r₀ = α ++ .nonterminal (ctx.grammar.left r) :: β)
    (h : ∀ u ∈ lookaheads, a.Along ctx δ ⟨r₀, 0⟩ u) (hne : ∃ u, u ∈ lookaheads)
    (ht : t ∈ ctx.first.ofSeq β lookaheads) : a.Along ctx (δ ++ α) ⟨r, 0⟩ t := by
  have hnext : (⟨r₀, α.length⟩ : Core).next? ctx.grammar =
      some (.nonterminal (ctx.grammar.left r)) := by
    simp [Core.next?, hright]
  have hafter : (⟨r₀, α.length⟩ : Core).afterNext ctx.grammar = β := by
    simp [Core.afterNext, hright]
  have hpredicted : ⟨r, 0⟩ ∈ (⟨r₀, α.length⟩ : Core).predicted ctx.grammar :=
    mem_predicted.mpr ⟨rfl, hr, hnext⟩
  have halong : ∀ u ∈ lookaheads, a.Along ctx (δ ++ α) ⟨r₀, α.length⟩ u := by
    intro u hu
    have := (h u hu).take hc hf (k := α.length) (by simp [hright])
    rwa [hright, List.take_left] at this
  cases FirstSets.mem_ofSeq.mp ht
  case inl ht =>
    obtain ⟨u, hu⟩ := hne
    exact (halong u hu).predict hf hpredicted <| hafter ▸ FirstSets.mem_ofSeq.mpr (.inl ht)
  case inr ht =>
    refine (halong t ht.right).predict hf hpredicted <| hafter ▸ FirstSets.mem_ofSeq.mpr ?_
    exact .inr ⟨ht.left, TerminalSet.mem_singleton.mpr rfl⟩

theorem mem_ofSeq_word {w : List Terminal} :
    t ∈ ctx.first.ofSeq (word w) {.endOfInput} ↔ (w ++ [Terminal.endOfInput]).head? = some t := by
  cases w
  all_goals exact TerminalSet.mem_singleton.trans <| by simp [eq_comm]

theorem exists_head? {w : List Terminal} : ∃ t, (w ++ [Terminal.endOfInput]).head? = some t := by
  cases w <;> simp

-- The induction is on the derivation. The nonterminal was there before the last step, or it stands
-- in the right side that this step has put in.
theorem of_derivesTo (hg : ctx.grammar.WellFormed) (hc : a.Coherent ctx) (hf : a.Foresees ctx)
    (hs : ctx.grammar.DerivesTo [.nonterminal .accept] ss) {δ ρ : List Symbol}
    (hr : (ctx.grammar.rule? r).isSome) (hss : ss = δ ++ .nonterminal (ctx.grammar.left r) :: ρ)
    (ht : t ∈ ctx.first.ofSeq ρ {.endOfInput}) : a.Along ctx δ ⟨r, 0⟩ t := by
  induction hs generalizing δ ρ r t
  case refl =>
    obtain ⟨hδ, hleft, hρ⟩ : δ = [] ∧ .accept = ctx.grammar.left r ∧ ρ = [] := by
      cases δ
      case nil         => simpa using hss
      case cons _ rest => simp at hss
    subst hδ hρ
    rw [TerminalSet.mem_singleton.mp ht, (hg.left_eq_accept_iff hr).mp hleft.symm]
    exact .start hf
  case tail hstep hi =>
    cases hstep
    case rule δ₀ r₀ w hr₀ _ =>
      cases split_rewritten hss
      case inl hbefore =>
        obtain ⟨δ', hδ, hρ⟩ := hbefore
        refine hi hr (by rw [hδ, List.append_assoc]; rfl) ?_
        exact mem_ofSeq_rewritten hg hr₀ (hρ ▸ ht)
      case inr hinside =>
        obtain ⟨α, β, hright, hδ, hρ⟩ := hinside
        subst hδ hρ
        obtain ⟨u, hu⟩ := exists_head? (w := w)
        exact inside hc hf hr hright (fun u hu => hi hr₀ rfl hu) ⟨u, mem_ofSeq_word.mpr hu⟩ <|
          FirstSets.mem_ofSeq_append.mp ht

theorem of_isValid (hg : ctx.grammar.WellFormed) (hc : a.Coherent ctx) (hf : a.Foresees ctx)
    (h : ctx.grammar.IsValid γ c t) : a.Along ctx γ c t := by
  obtain ⟨δ, w, hd, hγ, ht⟩ := h.derives
  exact hγ ▸ (of_derivesTo hg hc hf hd h.rule rfl <| mem_ofSeq_word.mpr ht).take hc hf h.dot

end Along

theorem Coherent.exists_mem_closure (hc : a.Coherent ctx) (hq : a.follow? γ = some q) :
    ∃ n c, a.node? q = some n ∧ c ∈ n.items.closure.map Item.core := by
  cases γ using List.reverseRecOn
  case nil =>
    cases hq
    obtain ⟨n, hn, hcore⟩ := hc.start_closure
    exact ⟨n, _, hn, hcore⟩
  case append_singleton γ s =>
    rw [follow?_concat] at hq
    obtain ⟨p, _, htransition⟩ := Option.bind_eq_some_iff.mp hq
    obtain ⟨m, e, hm, he, hs, htarget⟩ := hc.exists_of_transition? htransition
    obtain ⟨n, hn, hcores⟩ := hc.targets hm he
    obtain ⟨c, hcore, hnext⟩ := hc.exists_next hm he
    exact ⟨n, c.advance, htarget ▸ hn, (hc.closed hn _).mpr <|
      .start <| (hcores _).mpr ⟨c, hcore, hnext, rfl⟩⟩

-- The paths are the viable prefixes, whatever the algorithm.
theorem isSome_follow?_iff (hg : ctx.grammar.WellFormed) (hp : ctx.grammar.IsProductive)
    (hc : a.Coherent ctx) (hf : a.Foresees ctx) :
    (a.follow? γ).isSome ↔ ctx.grammar.IsViable γ := by
  constructor
  case mp =>
    intro hs
    obtain ⟨q, hq⟩ := Option.isSome_iff_exists.mp hs
    obtain ⟨n, c, hn, hcore⟩ := hc.exists_mem_closure hq
    obtain ⟨t, ht⟩ := hc.exists_isValid hg hp hq hn hcore
    exact ht.isViable
  case mpr =>
    rintro ⟨δ, r, w, hr, hd, hγ⟩
    obtain ⟨t, ht⟩ := Along.exists_head? (w := w)
    have hvalid : ctx.grammar.IsValid (δ ++ ctx.grammar.right r)
        ⟨r, (ctx.grammar.right r).length⟩ t :=
      ⟨hr, Nat.le_refl _, δ, w, hd, by simp, ht⟩
    obtain ⟨q, hq, _⟩ := Along.of_isValid hg hc hf hvalid
    exact isSome_follow?_of_prefix hγ <| Option.isSome_iff_exists.mpr ⟨q, hq⟩

end Automaton

variable {ctx : Context}

-- The canonical LR(1) automaton of every grammar in which all nonterminals derive something: its
-- paths are the viable prefixes, and the items of the state that a path leads to are the valid
-- ones.
theorem viable_prefixes (h : ctx.grammar.IsDefined) (hp : ctx.grammar.IsProductive) :
    ∃ a, Automaton.build ctx .lr1 = .ok a ∧ ∀ γ,
      ((a.follow? γ).isSome ↔ ctx.grammar.IsViable γ) ∧
      ∀ q, a.follow? γ = some q → ∃ n, a.node? q = some n ∧
        ∀ c t, Covers n.items.closure c t ↔ ctx.grammar.IsValid γ c t := by
  have hg := h.wellFormed
  obtain ⟨a, hbuild, ha, _⟩ := exists_build hg .lr1
  have hc := IsOutcome.coherent hg ha
  have hf := IsOutcome.foresees hg ha
  have ha : Collected ctx .lr1 a := ha.left
  refine ⟨a, hbuild, fun γ => ⟨Automaton.isSome_follow?_iff hg hp hc hf, fun q hq => ?_⟩⟩
  obtain ⟨n, _, hn, _⟩ := hc.exists_mem_closure hq
  refine ⟨n, hn, fun c t => ⟨Automaton.isValid_of_covers hg hp ha hq hn, fun hvalid => ?_⟩⟩
  obtain ⟨q', hq', hlooks⟩ := Automaton.Along.of_isValid hg hc hf hvalid
  cases hq.symm.trans hq'
  exact ((ha.unites hg).looks_iff hn).mp hlooks

theorem Grammar.repetition_isProductive : repetition.IsProductive := by
  intro n hn
  have hvanishes : ∀ n ∈ repetition.vocabulary.nonterminalIds,
      (Context.ofGrammar repetition).first.NullableSeq [.nonterminal n] := by decide +kernel
  have hn := hvanishes n <| Vocabulary.mem_nonterminalIds.mpr hn
  exact ⟨[], ((Context.ofGrammar repetition).nullableSeq_iff repetition_isDefined.wellFormed).mp hn
    |>.derivesTo⟩

theorem viable_prefixes_on_repetition : Grammar.repetition.IsDefined ∧
    Grammar.repetition.IsProductive ∧
    ∃ a, Automaton.build (.ofGrammar .repetition) .lr1 = .ok a ∧
      ∀ γ q, a.follow? γ = some q → ∃ n, a.node? q = some n ∧
        ∀ c t, Covers n.items.closure c t ↔ Grammar.repetition.IsValid γ c t := by
  obtain ⟨a, ha, hall⟩ := @viable_prefixes (.ofGrammar .repetition) Grammar.repetition_isDefined
    Grammar.repetition_isProductive
  exact ⟨Grammar.repetition_isDefined, Grammar.repetition_isProductive, a, ha,
    fun γ => (hall γ).right⟩

end ShiftReduce
