import Mathlib.Algebra.Group.Nat.Defs
import Mathlib.Logic.Function.Iterate
import ShiftReduce.Automaton.Construction

namespace ShiftReduce
namespace Automaton

-- `n` steps without an error lead from the first automaton to the second.
inductive Reaches (ctx : Context) : Automaton → Nat → Automaton → Prop
  | refl {a} : Reaches ctx a 0 a
  | step {a b c n s} :
    ¬ a.IsDone → a.step ctx = (b, .ok s) → Reaches ctx b n c → Reaches ctx a (n + 1) c

variable {ctx : Context} {a b c : Automaton} {m n k fuel : Nat}

theorem step_of_isDone (h : a.IsDone) : a.step ctx = (a, .ok .finished) := by
  have hphase : a.phase = .done := h
  rw [step, hphase]

namespace Reaches

theorem trans (h : Reaches ctx a m b) (h' : Reaches ctx b n c) : Reaches ctx a (m + n) c := by
  induction h
  case refl => simpa using h'
  case step hdone hstep _ hi =>
    rw [Nat.succ_add]
    exact .step hdone hstep (hi h')

theorem single {s : ConstructionStep} (hdone : ¬ a.IsDone) (hstep : a.step ctx = (b, .ok s)) :
    Reaches ctx a 1 b :=
  .step hdone hstep .refl

-- Every step either leaves the phase or keeps its invariant and lowers the work that is left. The
-- invariant holds up to the last step.
theorem exists_of_work {P Q : Automaton → Prop} {work : Automaton → Nat}
    (hstep : ∀ a, P a → ¬ a.IsDone ∧ 0 < work a ∧ ∃ b s, a.step ctx = (b, .ok s) ∧
      (Q b ∨ (P b ∧ work b < work a)))
    (ha : P a) : ∃ b n, Reaches ctx a n b ∧ Q b ∧ n ≤ work a ∧
      ∀ j < n, P ((fun a => (a.step ctx).1)^[j] a) := by
  induction hw : work a using Nat.strongRecOn generalizing a
  case ind w hi =>
    obtain ⟨hdone, hpos, b, s, hs, hb⟩ := hstep a ha
    cases hb
    case inl hq => exact ⟨b, 1, single hdone hs, hq, hw ▸ hpos, by simpa using ha⟩
    case inr hp =>
      obtain ⟨c, n, hr, hq, hn, hall⟩ := hi (work b) (hw ▸ hp.right) hp.left rfl
      refine ⟨c, n + 1, .step hdone hs hr, hq, by omega, fun j hj => ?_⟩
      cases j
      case zero   => exact ha
      case succ j =>
        rw [Function.iterate_succ_apply, hs]
        exact hall j <| Nat.lt_of_succ_lt_succ hj

theorem of_work {P Q : Automaton → Prop} {work : Automaton → Nat}
    (hstep : ∀ a, P a → ¬ a.IsDone ∧ 0 < work a ∧ ∃ b s, a.step ctx = (b, .ok s) ∧
      (Q b ∨ (P b ∧ work b < work a)))
    (ha : P a) : ∃ b n, Reaches ctx a n b ∧ Q b ∧ n ≤ work a := by
  obtain ⟨b, n, hr, hq, hn, _⟩ := exists_of_work hstep ha
  exact ⟨b, n, hr, hq, hn⟩

theorem runFor (h : Reaches ctx a n b) (hb : b.IsDone) (hn : n ≤ fuel) :
    a.runFor ctx fuel = (b, .ok n) := by
  induction h generalizing fuel
  case refl =>
    cases fuel
    case zero   => rfl
    case succ n => simp [Automaton.runFor, hb]
  case step hdone hstep _ hi =>
    cases fuel
    case zero   => contradiction
    case succ k =>
      have hrun := hi hb (Nat.le_of_succ_le_succ hn)
      simp [Automaton.runFor, hdone, hstep, hrun, Except.map]

theorem run (h : Reaches ctx a n b) (hb : b.IsDone) (hn : n < 2 ^ a.stepBits ctx) :
    a.run ctx = (b, .ok n) :=
  run_eq_runFor.trans <| h.runFor hb (by omega)

theorem build {algorithm : Algorithm} (h : Reaches ctx (initial ctx algorithm) n b) (hb : b.IsDone)
    (hn : n < 2 ^ (initial ctx algorithm).stepBits ctx) : build ctx algorithm = .ok b := by
  have hrun := h.run hb hn
  unfold Automaton.build
  generalize (initial ctx algorithm).run ctx = result at hrun
  subst hrun
  rfl

theorem iterate (h : Reaches ctx a n b) : (fun a => (a.step ctx).1)^[n] a = b := by
  induction h
  case refl => rfl
  case step hstep _ hi =>
    rw [Function.iterate_succ_apply, hstep]
    exact hi

-- Nothing changes after the end.
theorem iterate_of_le (h : Reaches ctx a n b) (hb : b.IsDone) (hn : n ≤ k) :
    (fun a => (a.step ctx).1)^[k] a = b := by
  have hfixed : (b.step ctx).1 = b := by rw [step_of_isDone hb]
  rw [← Nat.sub_add_cancel hn, Function.iterate_add_apply, h.iterate]
  exact Function.iterate_fixed hfixed _

-- What is left of the way after some of its steps.
theorem drop (h : Reaches ctx a n b) (hb : b.IsDone) :
    Reaches ctx ((fun a => (a.step ctx).1)^[k] a) (n - k) b := by
  induction h generalizing k
  case refl =>
    rw [refl.iterate_of_le hb (Nat.zero_le k), Nat.zero_sub]
    exact .refl
  case step hdone hstep hrest hi =>
    cases k
    case zero   => exact .step hdone hstep hrest
    case succ k =>
      rw [Function.iterate_succ_apply, hstep, Nat.add_sub_add_right]
      exact hi hb

theorem eq_of_isDone (h : Reaches ctx a n b) (ha : a.IsDone) : a = b := by
  cases h
  case refl              => rfl
  case step hrunning _ _ => exact absurd ha hrunning

theorem exists_step (h : Reaches ctx a n b) (hb : b.IsDone) : ∃ s, (a.step ctx).2 = .ok s := by
  cases h
  case refl         => exact ⟨.finished, by rw [step_of_isDone hb]⟩
  case step hstep _ => exact ⟨_, congrArg Prod.snd hstep⟩

theorem step_iterate (h : Reaches ctx a n b) (hk : k < n) :
    ¬ ((fun a => (a.step ctx).1)^[k] a).IsDone ∧
      ∃ s, (((fun a => (a.step ctx).1)^[k] a).step ctx).2 = .ok s := by
  induction h generalizing k
  case refl => contradiction
  case step s hdone hstep _ hi =>
    cases k
    case zero   => exact ⟨hdone, s, congrArg Prod.snd hstep⟩
    case succ k =>
      rw [Function.iterate_succ_apply, hstep]
      exact hi (Nat.lt_of_succ_lt_succ hk)

end Reaches

-- What an evaluation of the construction says about the automaton.
theorem eq_of_build {β : Type} (f : Automaton → β) {x : β}
    (h : (build ctx alg).map f = .ok x) (hb : build ctx alg = .ok b) : f b = x := by
  rw [hb] at h
  exact Except.ok.inj h

end Automaton
end ShiftReduce
