import Mathlib.Logic.Relation
import ShiftReduce.Item.Basic
import ShiftReduce.Proofs.Closure.Prediction
import ShiftReduce.Proofs.Derivation.Beginnings

namespace ShiftReduce

theorem Core.right_eq {g : Grammar} {c : Core} {s : Symbol} (h : c.next? g = some s) :
    g.right c.rule = (g.right c.rule).take c.dot ++ s :: c.afterNext g := by
  obtain ⟨hlt, hget⟩ := List.getElem?_eq_some_iff.mp h
  conv_lhs => rw [← List.take_append_drop c.dot (g.right c.rule)]
  rw [List.drop_eq_getElem_cons hlt, hget, Core.afterNext]

namespace Grammar

def word (w : List Terminal) : List Symbol :=
  w.map .terminal

-- The last nonterminal becomes the right side of one of its rules.
inductive RewritesLast (g : Grammar) : List Symbol → List Symbol → Prop
  | rule {δ r w} :
    (g.rule? r).isSome →
    RewritesLast g (δ ++ .nonterminal (g.left r) :: word w) (δ ++ (g.right r ++ word w))

def DerivesTo (g : Grammar) : List Symbol → List Symbol → Prop :=
  Relation.ReflTransGen g.RewritesLast

-- Every nonterminal derives some string of terminals.
def IsProductive (g : Grammar) : Prop :=
  ∀ n, g.vocabulary.Declares (.nonterminal n) → ∃ w, g.DerivesTo [.nonterminal n] (word w)

def IsViable (g : Grammar) (γ : List Symbol) : Prop :=
  ∃ δ r w, (g.rule? r).isSome ∧
    g.DerivesTo [.nonterminal .accept] (δ ++ .nonterminal (g.left r) :: word w) ∧
    γ <+: δ ++ g.right r

-- The lookahead is what follows the derived right side: the first terminal, or the end of input.
structure IsValid (g : Grammar) (γ : List Symbol) (c : Core) (t : Terminal) : Prop where
  rule    : (g.rule? c.rule).isSome
  dot     : c.dot ≤ (g.right c.rule).length
  derives : ∃ δ w, g.DerivesTo [.nonterminal .accept]
      (δ ++ .nonterminal (g.left c.rule) :: word w) ∧
    δ ++ (g.right c.rule).take c.dot = γ ∧ (w ++ [Terminal.endOfInput]).head? = some t

variable {g : Grammar} {ss ss' γ δ ρ : List Symbol} {s : Symbol} {v w : List Terminal}
  {n : Nonterminal} {c d : Core} {t u x : Terminal} {r : RuleId} {cores : List Core}

@[simp]
theorem word_append : word (v ++ w) = word v ++ word w :=
  List.map_append

theorem nonterminal_not_mem_word : .nonterminal n ∉ word w := by
  simp [word]

section Derivation

theorem RewritesLast.append_left (h : g.RewritesLast ss ss') :
    g.RewritesLast (δ ++ ss) (δ ++ ss') := by
  cases h
  case rule δ' r w hr =>
    rw [← List.append_assoc, ← List.append_assoc]
    exact .rule hr

theorem RewritesLast.append_word (h : g.RewritesLast ss ss') :
    g.RewritesLast (ss ++ word v) (ss' ++ word v) := by
  cases h
  case rule δ r w hr =>
    have := RewritesLast.rule (δ := δ) (w := w ++ v) hr
    simpa using this

theorem DerivesTo.trans {ss'' : List Symbol} (h : g.DerivesTo ss ss') (h' : g.DerivesTo ss' ss'') :
    g.DerivesTo ss ss'' :=
  Relation.ReflTransGen.trans h h'

theorem DerivesTo.append_left (h : g.DerivesTo ss ss') : g.DerivesTo (δ ++ ss) (δ ++ ss') :=
  h.lift (δ ++ ·) fun _ _ hr => hr.append_left

theorem DerivesTo.append_word (h : g.DerivesTo ss ss') :
    g.DerivesTo (ss ++ word v) (ss' ++ word v) :=
  h.lift (· ++ word v) fun _ _ hr => hr.append_word

theorem DerivesTo.rule (hr : (g.rule? r).isSome) :
    g.DerivesTo [.nonterminal (g.left r)] (g.right r) := by
  have := RewritesLast.rule (δ := []) (w := []) hr
  exact .single <| by simpa [word] using this

-- Words are derived part by part, from the right.
theorem DerivesTo.append (h : g.DerivesTo ss (word v)) (h' : g.DerivesTo ss' (word w)) :
    g.DerivesTo (ss ++ ss') (word (v ++ w)) := by
  have hfirst : g.DerivesTo (ss ++ word w) (word (v ++ w)) := by
    simpa using h.append_word (v := w)
  exact h'.append_left.trans hfirst

theorem DerivesTo.cons (h : g.DerivesTo [s] (word v)) (h' : g.DerivesTo ss (word w)) :
    g.DerivesTo (s :: ss) (word (v ++ w)) :=
  h.append h'

-- What holds of all symbols on right sides is kept.
theorem RewritesLast.forall_mem {P : Symbol → Prop} (h : g.RewritesLast ss ss')
    (hright : ∀ r, ∀ s ∈ g.right r, P s) (hss : ∀ s ∈ ss, P s) : ∀ s ∈ ss', P s := by
  cases h
  case rule δ r w _ =>
    intro s hs
    cases List.mem_append.mp hs
    case inl hs => exact hss s <| List.mem_append_left _ hs
    case inr hs =>
      cases List.mem_append.mp hs
      case inl hs => exact hright r s hs
      case inr hs => exact hss s <| List.mem_append_right _ <| .tail _ hs

theorem DerivesTo.forall_mem {P : Symbol → Prop} (h : g.DerivesTo ss ss')
    (hright : ∀ r, ∀ s ∈ g.right r, P s) (hss : ∀ s ∈ ss, P s) : ∀ s ∈ ss', P s := by
  induction h
  case refl          => exact hss
  case tail hstep hi => exact hstep.forall_mem hright hi

theorem Vanishes.derivesTo (h : g.Vanishes ss) : g.DerivesTo ss [] := by
  induction h
  case nil => exact .refl
  case cons hr _ _ hright hss =>
    exact ((DerivesTo.rule hr).trans hright).cons (v := []) (w := []) hss

theorem IsProductive.exists_word (hp : g.IsProductive)
    (hss : ∀ s ∈ ss, g.vocabulary.Declares s) : ∃ w, g.DerivesTo ss (word w) := by
  induction ss
  case nil => exact ⟨[], .refl⟩
  case cons s ss hi =>
    obtain ⟨hs, hss⟩ := List.forall_mem_cons.mp hss
    obtain ⟨w, hw⟩ := hi hss
    cases s
    case terminal t =>
      have ht : g.DerivesTo [.terminal t] (word [t]) := .refl
      exact ⟨_, ht.cons hw⟩
    case nonterminal n =>
      obtain ⟨v, hv⟩ := hp n hs
      exact ⟨_, hv.cons hw⟩

theorem Begins.exists_word (h : g.Begins ss x) (hg : g.WellFormed) (hp : g.IsProductive)
    (hss : ∀ s ∈ ss, g.vocabulary.Declares s) : ∃ w, g.DerivesTo ss (word (x :: w)) := by
  induction h
  case terminal x ss =>
    obtain ⟨w, hw⟩ := hp.exists_word (List.forall_mem_cons.mp hss).right
    have hx : g.DerivesTo [.terminal x] (word [x]) := .refl
    exact ⟨w, hx.cons hw⟩
  case inside r ss x hr _ hi =>
    obtain ⟨v, hv⟩ := hi fun s hs => hg.declares_of_mem_right hs
    obtain ⟨w, hw⟩ := hp.exists_word (List.forall_mem_cons.mp hss).right
    exact ⟨v ++ w, ((DerivesTo.rule hr).trans hv).cons hw⟩
  case behind r ss x hr hright _ hi =>
    obtain ⟨w, hw⟩ := hi (List.forall_mem_cons.mp hss).right
    exact ⟨w, (Vanishes.cons hr hright .nil).derivesTo.cons (v := []) hw⟩

-- A nonterminal in a rewritten sequence was there before, or it comes from the right side.
theorem split_rewritten (h : δ ++ (ss ++ word w) = γ ++ .nonterminal n :: ρ) :
    (∃ δ', δ = γ ++ .nonterminal n :: δ' ∧ ρ = δ' ++ (ss ++ word w)) ∨
      ∃ α β, ss = α ++ .nonterminal n :: β ∧ γ = δ ++ α ∧ ρ = β ++ word w := by
  have hright {α : List Symbol} (h : ss ++ word w = α ++ .nonterminal n :: ρ) :
      ∃ β, ss = α ++ .nonterminal n :: β ∧ ρ = β ++ word w := by
    have hnot (ρ' : List Symbol) : word w ≠ ρ' ++ .nonterminal n :: ρ := by
      intro he
      exact nonterminal_not_mem_word (he ▸ List.mem_append_right _ (.head _))
    cases List.append_eq_append_iff.mp h
    case inl hl =>
      obtain ⟨_, _, he⟩ := hl
      exact absurd he <| hnot _
    case inr hr =>
      obtain ⟨β, hss, he⟩ := hr
      cases β
      case nil => exact absurd he.symm <| hnot []
      case cons _ β =>
        obtain ⟨hs, hρ⟩ := List.cons.inj he
        exact ⟨β, hs ▸ hss, hρ⟩
  cases List.append_eq_append_iff.mp h
  case inl hl =>
    obtain ⟨α, hγ, he⟩ := hl
    obtain ⟨β, hss, hρ⟩ := hright he
    exact .inr ⟨α, β, hss, hγ, hρ⟩
  case inr hr =>
    obtain ⟨δ', hδ, he⟩ := hr
    cases δ'
    case nil =>
      obtain ⟨β, hss, hρ⟩ := hright (α := []) he.symm
      exact .inr ⟨[], β, hss, by simpa using hδ.symm, hρ⟩
    case cons _ δ' =>
      obtain ⟨hs, hρ⟩ := List.cons.inj he
      exact .inl ⟨δ', hs ▸ hδ, hρ⟩

end Derivation

theorem WellFormed.declares_of_mem_afterNext (h : g.WellFormed) :
    ∀ s ∈ c.afterNext g, g.vocabulary.Declares s :=
  fun _ hs => h.declares_of_mem_right <| List.mem_of_mem_drop hs

namespace IsValid

theorem start (h : g.WellFormed) : g.IsValid [] ⟨.accept, 0⟩ .endOfInput where
  rule    := by simp [h.accept_rule]
  dot     := Nat.zero_le _
  derives := ⟨[], [], by rw [h.left_accept]; exact .refl, rfl, rfl⟩

theorem advance (h : g.IsValid γ c t) (hs : c.next? g = some s) :
    g.IsValid (γ ++ [s]) c.advance t where
  rule    := h.rule
  dot     := (List.getElem?_eq_some_iff.mp hs).choose
  derives := by
    obtain ⟨δ, w, hd, hγ, ht⟩ := h.derives
    refine ⟨δ, w, hd, ?_, ht⟩
    have hs : (g.right c.rule)[c.dot]? = some s := hs
    rw [Core.advance, List.take_add_one, hs, ← hγ, List.append_assoc]
    rfl

-- What follows a predicted item is what the rest of the predicting item derives, and then what
-- follows that item.
theorem predict (h : g.IsValid γ c t) (hd : d ∈ c.predicted g)
    (hv : g.DerivesTo (c.afterNext g) (word v)) (hu : (v ++ [t]).head? = some u) :
    g.IsValid γ d u := by
  obtain ⟨hdot, hrule, hnext⟩ := mem_predicted.mp hd
  obtain ⟨δ, w, hderives, hγ, ht⟩ := h.derives
  refine ⟨hrule, by simp [hdot], γ, v ++ w, ?_, by simp [hdot], ?_⟩
  · have hrewrite : g.DerivesTo (δ ++ .nonterminal (g.left c.rule) :: word w)
        (δ ++ (g.right c.rule ++ word w)) := .single <| .rule h.rule
    have hrest : g.DerivesTo ((γ ++ [.nonterminal (g.left d.rule)]) ++ c.afterNext g ++ word w)
        ((γ ++ [.nonterminal (g.left d.rule)]) ++ word v ++ word w) :=
      hv.append_left.append_word
    rw [Core.right_eq hnext, ← List.append_assoc, ← List.append_assoc, hγ] at hrewrite
    refine (hderives.trans hrewrite).trans ?_
    simpa only [List.append_assoc, List.cons_append, List.nil_append, word_append] using hrest
  · cases v
    case nil         => simpa [← ht] using hu
    case cons x rest => simpa using hu

variable {ctx : Context} {kernel : List Item}

theorem exists_of_predicted (hg : g.WellFormed) (hp : g.IsProductive)
    (hk : ∀ c ∈ cores, ∃ t, g.IsValid γ c t) (h : Predicted g cores c) : ∃ t, g.IsValid γ c t := by
  induction h
  case start hc => exact hk _ hc
  case step c d _ hd hi =>
    obtain ⟨t, ht⟩ := hi
    obtain ⟨v, hv⟩ := hp.exists_word <| hg.declares_of_mem_afterNext (c := c)
    obtain ⟨u, hu⟩ : ∃ u, (v ++ [t]).head? = some u := by cases v <;> simp
    exact ⟨u, ht.predict hd hv hu⟩

theorem of_looksAhead (hg : ctx.grammar.WellFormed) (hp : ctx.grammar.IsProductive)
    (hcores : ∀ c ∈ kernel.map Item.core, ∃ t, ctx.grammar.IsValid γ c t)
    (hk : ∀ c t, Covers kernel c t → ctx.grammar.IsValid γ c t) (h : LooksAhead ctx kernel c t) :
    ctx.grammar.IsValid γ c t := by
  induction h
  case kernel hc => exact hk _ _ hc
  case generated hc hd ht =>
    obtain ⟨u, hu⟩ := exists_of_predicted hg hp hcores hc
    obtain ⟨w, hw⟩ := ((ctx.mem_ofSeq_iff hg).mp ht).exists_word hg hp
      hg.declares_of_mem_afterNext
    exact hu.predict hd hw rfl
  case passed hd hn hi =>
    exact hi.predict (v := []) hd ((ctx.nullableSeq_iff hg).mp hn).derivesTo rfl

end IsValid

theorem IsValid.isViable (h : g.IsValid γ c t) : g.IsViable γ := by
  obtain ⟨δ, w, hd, hγ, _⟩ := h.derives
  have hprefix : δ ++ (g.right c.rule).take c.dot <+: δ ++ g.right c.rule :=
    (List.prefix_append_right_inj δ).mpr <| List.take_prefix ..
  exact ⟨δ, c.rule, w, h.rule, hd, hγ ▸ hprefix⟩

end Grammar
end ShiftReduce
