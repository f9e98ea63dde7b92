import ShiftReduce.Proofs.Construction.Outcome

namespace ShiftReduce

open Automaton

-- What holds of a construction, in whichever phase it is.
inductive Underway (ctx : Context) (alg : Algorithm) (a : Automaton) : Prop
  | collecting : Collecting ctx alg a → Underway ctx alg a
  | merging    : alg = .lalrByMerging → Merging.IsMerging ctx a → Underway ctx alg a
  | surveying  : alg = .lalrByPropagation → Surveying ctx a → Underway ctx alg a
  | passing    : alg = .lalrByPropagation → Passing ctx a → Underway ctx alg a
  | reclosing  : alg = .lalrByPropagation → Reclosing ctx a → Underway ctx alg a
  | complete   : IsOutcome ctx alg a → Underway ctx alg a

variable {ctx : Context} {alg : Algorithm} {a : Automaton} {k : Nat}

theorem Collecting.phase_eq (h : Collecting ctx alg a) :
    a.phase = .closure ∨ a.phase = .mergeLookaheads ∨ a.phase = .goto := by
  obtain ⟨n, _, hcurrent⟩ := h.current
  cases hp : a.phase <;> simp_all [IsCurrent]

namespace Underway

theorem init (hg : ctx.grammar.WellFormed) : Underway ctx alg (initial ctx alg) :=
  .collecting <| .init hg

-- The algorithm decides what the canonical phases lead to.
theorem enterState (hg : ctx.grammar.WellFormed) (h : Collected ctx alg a) :
    Underway ctx alg a.enterState := by
  cases alg
  case lr0 | lr1         => exact .complete <| h.isOutcome <| by simp
  case lalrByMerging     => exact .merging rfl <| isMerging_enterState hg h
  case lalrByPropagation => exact .surveying rfl <| surveying_enterState hg h

theorem step (hg : ctx.grammar.WellFormed) (h : Underway ctx alg a) :
    ∃ b done, a.step ctx = (b, .ok done) ∧ Underway ctx alg b := by
  cases h
  case collecting h =>
    obtain ⟨_, _, b, done, hstep, hb⟩ := h.step hg
    refine ⟨b, done, hstep, ?_⟩
    cases hb
    case inl hb =>
      obtain ⟨c, hc, rfl⟩ := hb
      exact enterState hg hc
    case inr hb => exact .collecting hb.left
  case merging halg h =>
    obtain ⟨_, _, b, done, hstep, hb⟩ := Merging.step hg h
    exact ⟨b, done, hstep, hb.elim (fun hb => .complete <| halg ▸ hb) (.merging halg ·.left)⟩
  case surveying halg h =>
    obtain ⟨_, _, b, done, hstep, hb⟩ := h.step hg
    exact ⟨b, done, hstep, hb.elim (.passing halg) (.surveying halg ·.left)⟩
  case passing halg h =>
    obtain ⟨_, _, b, done, hstep, hb⟩ := h.step hg
    exact ⟨b, done, hstep, hb.elim (.reclosing halg) (.passing halg ·.left)⟩
  case reclosing halg h =>
    obtain ⟨_, _, b, done, hstep, hb⟩ := h.step hg
    exact ⟨b, done, hstep, hb.elim (fun hb => .complete <| halg ▸ hb) (.reclosing halg ·.left)⟩
  case complete h => exact ⟨a, .finished, step_of_isDone h.isDone, .complete h⟩

theorem iterate (hg : ctx.grammar.WellFormed) :
    Underway ctx alg ((fun a => (a.step ctx).1)^[k] (initial ctx alg)) := by
  induction k
  case zero => exact init hg
  case succ k hi =>
    obtain ⟨b, done, hstep, hb⟩ := hi.step hg
    rw [Function.iterate_succ_apply', hstep]
    exact hb

-- While states are being merged there is something to merge.
theorem isSome_mergeable? (h : Underway ctx alg a) (hp : a.phase = .mergeStates) :
    a.mergeable?.isSome := by
  cases h
  case collecting h   => simpa [hp] using h.phase_eq
  case merging h      => simpa [hp] using h.right
  case surveying h    => simp [h.phase] at hp
  case passing h      => simp [h.phase] at hp
  case reclosing h    => simp [h.phase] at hp
  case complete h     => simp [show a.phase = .done from h.isDone] at hp

end Underway
end ShiftReduce
