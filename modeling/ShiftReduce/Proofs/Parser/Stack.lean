import ShiftReduce.Parser.Basic
import ShiftReduce.Proofs.Construction.Coherence
import ShiftReduce.Proofs.Parser.Derivations

namespace ShiftReduce

open Automaton

-- The state on top of a stack; an empty stack stands on the start state.
def topOf : List Frame → StateId
  | []         => .start
  | frame :: _ => frame.state

-- Each state follows on the state below it by the symbol of its tree.
inductive Linked (g : Grammar) (a : Automaton) : List Frame → Prop
  | nil : Linked g a []
  | push {stack q tree s} :
    Linked g a stack → a.transition? (topOf stack) s = some q → Derives g s tree →
    Linked g a (⟨q, tree⟩ :: stack)

variable {ctx : Context} {g : Grammar} {a : Automaton} {t : ParseTable} {stack : List Frame}
  {frame : Frame} {n m : Node} {c : Core} {r : RuleId} {i : Nat} {tree : ParseTree}

theorem topState_eq : Parser.topState t stack = topOf stack := by
  cases stack <;> rfl

theorem getElem?_states_length :
    (StateId.start :: (stack.map (·.state)).reverse)[stack.length]? = some (topOf stack) := by
  cases stack
  case nil             => rfl
  case cons frame rest => simp [topOf]

namespace Linked

-- The kernel of the state on top comes from the closure of the state below.
theorem pop (h : Linked ctx.grammar a (frame :: stack)) (hc : a.Coherent ctx)
    (hm : a.node? frame.state = some m) : Linked ctx.grammar a stack ∧ ∃ n s,
      a.node? (topOf stack) = some n ∧ Derives ctx.grammar s frame.tree ∧
      ∀ c, c ∈ m.items.kernel.map Item.core ↔ ∃ d ∈ n.items.closure.map Item.core,
        d.next? ctx.grammar = some s ∧ d.advance = c := by
  cases h
  case push s hd hstack ht =>
    obtain ⟨n, e, hn, he, hs, htarget⟩ := hc.exists_of_transition? ht
    obtain ⟨m', hm', hcores⟩ := hc.targets hn he
    rw [htarget] at hm'
    cases hm.symm.trans hm'
    exact ⟨hstack, n, s, hn, hd, hs ▸ hcores⟩

-- Only the start item stands at the front of a kernel, and only below all frames.
theorem eq_accept_of_mem_kernel (h : Linked ctx.grammar a stack) (hc : a.Coherent ctx)
    (hn : a.node? (topOf stack) = some n) (hk : c ∈ n.items.kernel.map Item.core)
    (hdot : c.dot = 0) : stack = [] ∧ c = ⟨.accept, 0⟩ := by
  cases stack
  case nil =>
    obtain ⟨n', hn', hkernel⟩ := hc.start
    cases hn.symm.trans hn'
    rw [hkernel] at hk
    exact ⟨rfl, List.mem_singleton.mp hk⟩
  case cons frame stack =>
    obtain ⟨_, _, _, _, _, hcores⟩ := h.pop hc hn
    obtain ⟨d, _, _, hd⟩ := (hcores c).mp hk
    simp [← hd, Core.advance] at hdot

theorem unwind (h : Linked ctx.grammar a stack) (hc : a.Coherent ctx)
    (hn : a.node? (topOf stack) = some n) (hr : ⟨r, i⟩ ∈ n.items.closure.map Item.core) :
    i ≤ stack.length ∧ Linked ctx.grammar a (stack.drop i) ∧
      DerivesAll ctx.grammar ((ctx.grammar.right r).take i)
        ((stack.take i).map (·.tree)).reverse ∧
      ∃ m, a.node? (topOf (stack.drop i)) = some m ∧
        ⟨r, 0⟩ ∈ m.items.closure.map Item.core := by
  induction i generalizing stack n
  case zero => exact ⟨Nat.zero_le _, h, .nil, n, hn, hr⟩
  case succ i hi =>
    have hkernel := ((hc.closed hn _).mp hr).mem_or_dot_eq_zero.resolve_right (by simp)
    cases stack
    case nil =>
      obtain ⟨n', hn', hstart⟩ := hc.start
      cases hn.symm.trans hn'
      simp [hstart] at hkernel
    case cons frame stack =>
      obtain ⟨hstack, n', s, hn', hd, hcores⟩ := h.pop hc hn
      obtain ⟨⟨r', i'⟩, hd', hs, hadvance⟩ := (hcores _).mp hkernel
      simp only [Core.advance, Core.mk.injEq, Nat.add_right_cancel_iff] at hadvance
      obtain ⟨hr', hi'⟩ := hadvance
      subst hr' hi'
      obtain ⟨hle, hrest, htrees, hexposed⟩ := hi hstack hn' hd'
      refine ⟨Nat.succ_le_succ hle, hrest, ?_, hexposed⟩
      have hs : (ctx.grammar.right r')[i']? = some s := hs
      rw [List.take_add_one, hs, List.take_succ_cons, List.map_cons, List.reverse_cons]
      exact htrees.append <| .cons hd .nil

-- A rule at its front was predicted.
theorem exists_predicting (h : Linked ctx.grammar a stack) (hc : a.Coherent ctx)
    (hn : a.node? (topOf stack) = some n) (hr : ⟨r, 0⟩ ∈ n.items.closure.map Item.core)
    (hne : r ≠ .accept) : ∃ d ∈ n.items.closure.map Item.core,
      d.next? ctx.grammar = some (.nonterminal <| ctx.grammar.left r) := by
  cases ((hc.closed hn _).mp hr).mem_or_dot_eq_zero
  case inl hk =>
    obtain ⟨_, heq⟩ := h.eq_accept_of_mem_kernel hc hn hk rfl
    cases heq
    contradiction
  case inr hp =>
    obtain ⟨_, d, hd, hnext⟩ := hp
    exact ⟨d, (hc.closed hn d).mpr hd, hnext⟩

theorem eq_nil_of_accept (h : Linked ctx.grammar a stack) (hc : a.Coherent ctx)
    (hg : ctx.grammar.WellFormed) (hn : a.node? (topOf stack) = some n)
    (hr : ⟨.accept, 0⟩ ∈ n.items.closure.map Item.core) : stack = [] := by
  cases ((hc.closed hn _).mp hr).mem_or_dot_eq_zero
  case inl hk => exact (h.eq_accept_of_mem_kernel hc hn hk rfl).left
  case inr hp =>
    obtain ⟨_, d, _, hnext⟩ := hp
    rw [hg.left_accept] at hnext
    exact absurd (List.mem_of_getElem? hnext) hg.accept_not_mem_right

-- Below the end of input, only the tree of the start symbol is left.
theorem exists_of_accept (h : Linked ctx.grammar a stack) (hc : a.Coherent ctx)
    (hg : ctx.grammar.WellFormed) (hn : a.node? (topOf stack) = some n)
    (hr : ⟨.accept, 1⟩ ∈ n.items.closure.map Item.core) :
    ∃ frame, stack = [frame] ∧ Derives ctx.grammar (.nonterminal ctx.grammar.start) frame.tree := by
  obtain ⟨hle, hrest, htrees, m, hm, hfront⟩ := h.unwind hc hn hr
  have hnil := hrest.eq_nil_of_accept hc hg hm hfront
  obtain ⟨frame, hstack⟩ := List.length_eq_one_iff.mp <|
    Nat.le_antisymm (List.drop_eq_nil_iff.mp hnil) hle
  subst hstack
  rw [hg.right_accept] at htrees
  cases htrees
  case cons hd _ => exact ⟨frame, rfl, hd⟩

-- Every tree leads from the state below it to the one above it.
theorem transition_of_getElem? (h : Linked g a stack)
    (ht : ((stack.map (·.tree)).reverse)[i]? = some tree) : ∃ q q' s,
      (StateId.start :: (stack.map (·.state)).reverse)[i]? = some q ∧
      (StateId.start :: (stack.map (·.state)).reverse)[i + 1]? = some q' ∧
      a.transition? q s = some q' ∧ Derives g s tree := by
  induction h
  case nil => simp at ht
  case push stack q tree' s _ htrans hd hi =>
    have hcons : StateId.start :: ((⟨q, tree'⟩ :: stack : List Frame).map (·.state)).reverse =
        (StateId.start :: (stack.map (·.state)).reverse) ++ [q] := by simp
    rw [hcons]
    rw [List.map_cons, List.reverse_cons] at ht
    cases Nat.lt_or_ge i stack.length
    case inl hlt =>
      rw [List.getElem?_append_left (by simpa using hlt)] at ht
      obtain ⟨p, p', s', hp, hp', hrest⟩ := hi ht
      refine ⟨p, p', s', ?_, ?_, hrest⟩
      · rw [List.getElem?_append_left (by simp; omega), hp]
      · rw [List.getElem?_append_left (by simp; omega), hp']
    case inr hge =>
      have hlt := (List.getElem?_eq_some_iff.mp ht).choose
      have heq : i = stack.length := by
        simp at hlt
        omega
      subst heq
      rw [List.getElem?_append_right (by simp)] at ht
      have htree : tree' = tree := by simpa using ht
      subst htree
      refine ⟨topOf stack, q, s, ?_, ?_, htrans, hd⟩
      · rw [List.getElem?_append_left (by simp), getElem?_states_length]
      · rw [List.getElem?_append_right (by simp)]
        simp

end Linked
end ShiftReduce
