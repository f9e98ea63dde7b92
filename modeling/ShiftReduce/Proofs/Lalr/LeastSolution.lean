import ShiftReduce.Proofs.Construction.Phases
import ShiftReduce.Proofs.Lalr.Spreading

namespace ShiftReduce

open Exploration Automaton

variable {ctx : Context} {a b : Automaton} {source target r : KernelRef} {q : StateId}
  {t : Terminal} {lookaheads : TerminalSet} {index j k m n : Nat} {cores : List Core} {s : Survey}

namespace Automaton.Survey

-- The survey, begun with `a`, has added to the kernels what it reports.
structure Accounts (a : Automaton) (s : Survey) : Prop where
  kinds  : ∀ q, ∀ i ∈ s.automaton.kernelItems q, i.kind = .lr1
  family : ∀ r t, t ∈ s.automaton.family r ↔
    t ∈ a.family r ∨ ∃ lookaheads, (r, lookaheads) ∈ s.generated ∧ t ∈ lookaheads

namespace Accounts

theorem init (h : ∀ q, ∀ i ∈ a.kernelItems q, i.kind = .lr1) : Accounts a ⟨a, [], []⟩ :=
  ⟨h, by simp⟩

theorem link (h : Accounts a s) : Accounts a (s.link source target) where
  kinds q i hi  := h.kinds q i <| by rwa [kernelItems, nodes_link] at hi
  family r t    := by
    rw [generated_link, ← h.family]
    simp only [Automaton.family, kernelLookaheads, nodes_link]

theorem generate (h : Accounts a s)
    (hr : target.index < (s.automaton.kernelItems target.state).length) :
    Accounts a (s.generate target lookaheads) where
  kinds q    := by
    show ∀ i ∈ (s.automaton.gain target lookaheads).kernelItems q, i.kind = .lr1
    by_cases hq : q = target.state
    case pos =>
      rw [hq, kernelItems_gain_self]
      exact kind_of_mem_modify_joining (h.kinds _)
    case neg =>
      rw [kernelItems_gain_of_ne hq]
      exact h.kinds q
  family r t := by
    have hgain : t ∈ (s.generate target lookaheads).automaton.family r ↔ _ :=
      mem_kernelLookaheads_gain (h.kinds _) hr
    refine hgain.trans <| (or_congr_left <| h.family r t).trans ?_
    simp only [Survey.generate, List.mem_cons, Prod.mk.injEq]
    grind

theorem kernel (h : Accounts a s) : Accounts a (s.kernel ctx q index cores).1 :=
  kernel_induction link (fun _ _ _ => fun hr h => h.generate hr) h

end Accounts
end Automaton.Survey

namespace Automaton

-- The construction by propagation after so many steps.
def stage (ctx : Context) (k : Nat) : Automaton :=
  (fun a => (a.step ctx).1)^[k] (initial ctx .lalrByPropagation)

theorem stage_succ {st : Except Error ConstructionStep} (h : (stage ctx k).step ctx = (b, st)) :
    stage ctx (k + 1) = b := by
  rw [stage, Function.iterate_succ_apply']
  exact congrArg Prod.fst h

theorem stage_add : stage ctx (k + j) = (fun a => (a.step ctx).1)^[j] (stage ctx k) := by
  rw [stage, Nat.add_comm, Function.iterate_add_apply]
  rfl

theorem snd_attempt {α : Type} {x : Except Error (Automaton × α)} :
    (a.attempt x).2 = x.map Prod.snd := by
  cases x <;> rfl

theorem phase_of_step_spontaneous {st : SpontaneousStep}
    (h : (a.step ctx).2 = .ok (.spontaneous st)) : a.phase = .spontaneous := by
  cases hp : a.phase
  case spontaneous => rfl
  all_goals simp only [Automaton.step, hp, snd_attempt] at h
  case done      => cases h
  case goto      => cases hs : a.gotoStep ctx <;> rw [hs] at h <;> cases h
  case retarget  => cases hs : a.retarget <;> rw [hs] at h <;> cases h
  case propagate => cases hs : a.propagationPass <;> rw [hs] at h <;> cases h
  case reclose   => cases hs : a.recloseStep ctx <;> rw [hs] at h <;> cases h
  case closure | mergeLookaheads | mergeStates =>
    simp only [closureStep, mergeLookaheadsStep, mergeStatesStep, bind, Except.bind, pure,
      Except.pure] at h
    repeat' split at h
    all_goals cases h

end Automaton

-- The survey reports the terminal as a lookahead of the kernel item.
def Reports (ctx : Context) (k : Nat) (r : KernelRef) (t : Terminal) : Prop :=
  ∃ st lookaheads, ((stage ctx k).step ctx).2 = .ok (.spontaneous st) ∧
    (r, lookaheads) ∈ st.generated ∧ t ∈ lookaheads

theorem mem_family_enterState (hg : ctx.grammar.WellFormed)
    (h : Collected ctx .lalrByPropagation a) :
    t ∈ a.enterState.family r ↔ r = ⟨.start, 0⟩ ∧ t = .endOfInput := by
  have hnone : t ∉ (promoted a).family r := by
    intro ht
    obtain ⟨c, hc⟩ := exists_covers_of_mem_family ht
    exact not_covers_promoted hg h hc
  rw [enterState_eq_startPropagation h, startPropagation_eq,
    (promoted_isShaped h).mem_family_gain (isRef_start hg)]
  simp [hnone]

theorem Surveying.mem_family_succ (hg : ctx.grammar.WellFormed) (h : Surveying ctx (stage ctx k)) :
    t ∈ (stage ctx (k + 1)).family r ↔ t ∈ (stage ctx k).family r ∨ Reports ctx k r t := by
  obtain ⟨s, hkernel, hstep, hsound, _⟩ := h.exists_survey hg
  have haccounts : Survey.Accounts (stage ctx k) s := by
    have hs : _ = s := congrArg Prod.fst hkernel
    rw [← hs]
    exact (Survey.Accounts.init h.kinds).kernel
  rw [stage_succ hstep]
  refine (haccounts.family r t).trans <| or_congr_right ?_
  simp [Reports, hstep]

theorem Passing.exists_pass (hg : ctx.grammar.WellFormed) (h : Passing ctx a) : ∃ b p,
    a.step ctx = (b, .ok (.propagate p)) ∧ Spreads (HasLink a.effects) a b p.grown ∧
      (p.grown = [] → b.phase = .reclose ∧
        ∀ s t, HasLink a.effects s t → b.family s ≤ b.family t) ∧
      (p.grown ≠ [] → b.phase = .propagate) := by
  have hlink : ∀ s t, HasLink a.effectsInOrder s t → IsLink ctx s t :=
    fun s t hst => h.links s t <| hasLink_effectsInOrder.mp hst
  have hstep := h.step_eq
  have hpassed := passAllOn_spec (a := { a with passes := a.passes + 1 }) hg h.move hlink
  obtain ⟨_, hspreads⟩ := passAllOn_spreads (a := { a with passes := a.passes + 1 })
    h.move.toIsShaped fun s t hst => (hlink s t hst).isRef.right
  generalize passAllOn { a with passes := a.passes + 1 } a.effectsInOrder = p
    at hstep hpassed hspreads
  obtain ⟨b, grown⟩ := p
  have hspreads := hspreads.mono fun s t => hasLink_effectsInOrder.mp
  have hmoved {pointer : Nat} {phase : Phase} :
      Spreads (HasLink a.effects) a { b with pointer, phase } grown :=
    hspreads.move a.pointer a.passes a.phase
  dsimp only at hstep
  refine ⟨_, _, hstep, ?_⟩
  split
  case isTrue hnil =>
    refine ⟨hmoved, fun _ => ⟨rfl, fun s t hst => ?_⟩, fun hne => absurd hnil hne⟩
    obtain ⟨hsame, hclosed⟩ := hpassed.unchanged hnil
    have hsame : b = { a with passes := a.passes + 1 } := hsame
    rw [hsame]
    exact TerminalSet.subset_iff.mp <| hclosed s t <| hasLink_effectsInOrder.mpr hst
  case isFalse hne =>
    refine ⟨hmoved, fun hnil => absurd hnil hne, fun _ => ?_⟩
    exact hpassed.advances.phase.trans h.phase

-- The end of input for the start item, all that the survey has reported, and whatever follows from
-- these over the links.
structure IsSolution (ctx : Context) (a : Automaton) (L : KernelRef → Set Terminal) : Prop where
  start    : .endOfInput ∈ L ⟨.start, 0⟩
  reported : ∀ j r t, Reports ctx j r t → t ∈ L r
  closed   : ∀ s t, HasLink a.effects s t → L s ≤ L t

-- When the phases begin: the survey after `m` steps, and after `k` steps the passes, `n` of them
-- and one more.
structure Timetable (ctx : Context) (m k n : Nat) : Prop where
  le         : m ≤ k
  start      : ∃ c, Collected ctx .lalrByPropagation c ∧ stage ctx m = c.enterState
  collecting : ∀ j < m, Collecting ctx .lalrByPropagation (stage ctx j)
  surveying  : ∀ j, m ≤ j → j < k → Surveying ctx (stage ctx j)
  passing    : ∀ j, k ≤ j → j ≤ k + n → Passing ctx (stage ctx j)
  later      : ∀ j, k + n < j → Reclosing ctx (stage ctx j) ∨ Propagated ctx (stage ctx j)

theorem reclosing_or_propagated (hg : ctx.grammar.WellFormed) (h : Reclosing ctx (stage ctx k)) :
    Reclosing ctx (stage ctx (k + j)) ∨ Propagated ctx (stage ctx (k + j)) := by
  induction j
  case zero => exact .inl h
  case succ j hi =>
    cases hi
    case inl hi =>
      obtain ⟨_, _, b, done, hstep, hb⟩ := hi.step hg
      rw [← Nat.add_assoc, stage_succ hstep]
      exact hb.symm.imp_left And.left
    case inr hi =>
      rw [← Nat.add_assoc, stage_succ <| step_of_isDone hi.done]
      exact .inr hi

theorem exists_timetable (hg : ctx.grammar.WellFormed) : ∃ m k n, Timetable ctx m k n := by
  have hinit : Collecting ctx .lalrByPropagation (stage ctx 0) := .init hg
  obtain ⟨_, m, hm, ⟨c, hcollected, rfl⟩, _, hcollecting⟩ := Reaches.exists_of_work
    (Q := fun b => ∃ c, Collected ctx .lalrByPropagation c ∧ b = c.enterState)
    (fun _ => Collecting.step hg) hinit
  have hm : stage ctx m = c.enterState := hm.iterate
  have hstart : Surveying ctx (stage ctx m) := hm ▸ surveying_enterState hg hcollected
  obtain ⟨_, i, hi, hpassing, _, hsurveying⟩ := Reaches.exists_of_work
    (fun _ => Surveying.step hg) hstart
  have hi := stage_add.trans hi.iterate
  rw [← hi] at hpassing
  obtain ⟨_, n, hn, hreclosing, _, hpasses⟩ := Reaches.exists_of_work
    (fun _ => Passing.step hg) hpassing
  have hn := stage_add.trans hn.iterate
  rw [← hn] at hreclosing
  have hpos : n ≠ 0 := by
    intro hzero
    have hphase : (stage ctx (m + i)).phase = .reclose := by simpa [hzero] using hreclosing.phase
    simp [hpassing.phase] at hphase
  refine ⟨m, m + i, n - 1, ?_⟩
  constructor
  case le         => exact Nat.le_add_right ..
  case start      => exact ⟨c, hcollected, hm⟩
  case collecting => exact hcollecting
  case surveying  =>
    intro j hle hlt
    have := hsurveying (j - m) (by omega)
    rwa [← stage_add, Nat.add_sub_cancel' hle] at this
  case passing    =>
    intro j hle hlt
    have := hpasses (j - (m + i)) (by omega)
    rwa [← stage_add, Nat.add_sub_cancel' hle] at this
  case later      =>
    intro j hlt
    have := reclosing_or_propagated (j := j - (m + i + n)) hg hreclosing
    rwa [Nat.add_sub_cancel' (by omega)] at this

namespace Timetable

theorem phase_cases (h : Timetable ctx m k n) (j : Nat) :
    (j < m ∧ (stage ctx j).phase ≠ .spontaneous ∧ (stage ctx j).phase ≠ .propagate) ∨
    (m ≤ j ∧ j < k ∧ (stage ctx j).phase = .spontaneous) ∨
    (k ≤ j ∧ j ≤ k + n ∧ (stage ctx j).phase = .propagate) ∨
    (k + n < j ∧ (stage ctx j).phase ≠ .spontaneous ∧ (stage ctx j).phase ≠ .propagate) := by
  have hle := h.le
  by_cases hm : j < m
  case pos =>
    refine .inl ⟨hm, ?_⟩
    obtain hp | hp | hp := (h.collecting j hm).phase_eq <;> simp [hp]
  by_cases hk : j < k
  case pos => exact .inr <| .inl ⟨by omega, hk, (h.surveying j (by omega) hk).phase⟩
  by_cases hn : j ≤ k + n
  case pos => exact .inr <| .inr <| .inl ⟨by omega, hn, (h.passing j (by omega) hn).phase⟩
  refine .inr <| .inr <| .inr ⟨by omega, ?_⟩
  cases h.later j (by omega)
  case inl h => simp [h.phase]
  case inr h => simp [show (stage ctx j).phase = .done from h.done]

theorem phase_eq_propagate_iff (h : Timetable ctx m k n) :
    (stage ctx j).phase = .propagate ↔ k ≤ j ∧ j ≤ k + n := by
  have hle := h.le
  have hcases := h.phase_cases j
  grind

theorem le_and_lt_of_reports (h : Timetable ctx m k n) (hr : Reports ctx j r t) :
    m ≤ j ∧ j < k := by
  obtain ⟨st, _, hstep, _⟩ := hr
  have hp := phase_of_step_spontaneous hstep
  have hcases := h.phase_cases j
  grind

theorem mem_family_add (hg : ctx.grammar.WellFormed) (h : Timetable ctx m k n) {i : Nat}
    (hi : m + i ≤ k) : t ∈ (stage ctx (m + i)).family r ↔
      (r = ⟨.start, 0⟩ ∧ t = .endOfInput) ∨ ∃ j < m + i, Reports ctx j r t := by
  induction i
  case zero =>
    obtain ⟨c, hc, hstage⟩ := h.start
    have hnone : ¬ ∃ j < m, Reports ctx j r t :=
      fun ⟨j, hj, hr⟩ => (h.le_and_lt_of_reports hr).left.not_gt hj
    simp only [Nat.add_zero, hstage, mem_family_enterState hg hc, hnone, or_false]
  case succ i hind =>
    rw [← Nat.add_assoc, (h.surveying (m + i) (by omega) hi).mem_family_succ hg,
      hind (by omega), or_assoc]
    refine or_congr_right ?_
    constructor
    case mp =>
      intro h
      cases h
      case inl h =>
        obtain ⟨j, hj, hr⟩ := h
        exact ⟨j, by omega, hr⟩
      case inr hr => exact ⟨m + i, by omega, hr⟩
    case mpr =>
      rintro ⟨j, hj, hr⟩
      cases Nat.lt_or_eq_of_le (Nat.le_of_lt_succ hj)
      case inl hj => exact .inl ⟨j, hj, hr⟩
      case inr hj => exact .inr <| hj ▸ hr

-- What the passes start from.
theorem mem_family_iff (hg : ctx.grammar.WellFormed) (h : Timetable ctx m k n) :
    t ∈ (stage ctx k).family r ↔ (r = ⟨.start, 0⟩ ∧ t = .endOfInput) ∨ ∃ j, Reports ctx j r t := by
  have hk : m + (k - m) = k := Nat.add_sub_cancel' h.le
  have hfamily := h.mem_family_add (t := t) (r := r) hg hk.le
  rw [hk] at hfamily
  refine hfamily.trans <| or_congr_right <| exists_congr fun j => ?_
  exact and_iff_right_of_imp fun hr => (h.le_and_lt_of_reports hr).right

theorem isSolution_iff (hg : ctx.grammar.WellFormed) (h : Timetable ctx m k n)
    {L : KernelRef → Set Terminal} : IsSolution ctx (stage ctx k) L ↔
      (stage ctx k).family ≤ L ∧ ∀ s t, HasLink (stage ctx k).effects s t → L s ≤ L t := by
  constructor
  case mp =>
    intro hL
    refine ⟨fun r t ht => ?_, hL.closed⟩
    obtain ⟨rfl, rfl⟩ | ⟨j, hr⟩ := (h.mem_family_iff hg).mp ht
    case inl => exact hL.start
    case inr => exact hL.reported j r t hr
  case mpr =>
    rintro ⟨hle, hclosed⟩
    refine ⟨hle _ ?_, fun j r t hr => hle r ?_, hclosed⟩
    · exact (h.mem_family_iff hg).mpr <| .inl ⟨rfl, rfl⟩
    · exact (h.mem_family_iff hg).mpr <| .inr ⟨j, hr⟩

-- The last pass is the one that grows nothing.
theorem exists_pass (hg : ctx.grammar.WellFormed) (h : Timetable ctx m k n) (hj : k ≤ j)
    (hj' : j ≤ k + n) : ∃ p, (stage ctx j).step ctx = (stage ctx (j + 1), .ok (.propagate p)) ∧
      Spreads (HasLink (stage ctx j).effects) (stage ctx j) (stage ctx (j + 1)) p.grown ∧
      (p.grown = [] ↔ j = k + n) ∧
      (j = k + n → ∀ s t, HasLink (stage ctx j).effects s t →
        (stage ctx (j + 1)).family s ≤ (stage ctx (j + 1)).family t) := by
  obtain ⟨b, p, hstep, hspreads, hlast, hmore⟩ := (h.passing j hj hj').exists_pass hg
  have hb : stage ctx (j + 1) = b := stage_succ hstep
  have hphase := h.phase_eq_propagate_iff (j := j + 1)
  have hiff : p.grown = [] ↔ j = k + n := by
    constructor
    case mp =>
      intro hnil
      have hp : (stage ctx (j + 1)).phase = .reclose := hb ▸ (hlast hnil).left
      simp [hp] at hphase
      omega
    case mpr =>
      intro he
      by_contra hne
      have hp : (stage ctx (j + 1)).phase = .propagate := hb ▸ hmore hne
      simp [hp] at hphase
      omega
  refine ⟨p, hb ▸ hstep, hb ▸ hspreads, hiff, fun he => ?_⟩
  exact hb ▸ (hlast <| hiff.mpr he).right

theorem exists_spreads (hg : ctx.grammar.WellFormed) (h : Timetable ctx m k n) {i : Nat}
    (hi : i ≤ n + 1) : ∃ grown,
      Spreads (HasLink (stage ctx k).effects) (stage ctx k) (stage ctx (k + i)) grown := by
  induction i
  case zero => exact ⟨[], .refl⟩
  case succ i hind =>
    obtain ⟨grown, hspreads⟩ := hind (by omega)
    obtain ⟨p, _, hpass, _⟩ := h.exists_pass hg (j := k + i) (by omega) (by omega)
    rw [hspreads.keeps.effects] at hpass
    exact ⟨_, hspreads.trans hpass⟩

theorem isLeast (hg : ctx.grammar.WellFormed) (h : Timetable ctx m k n) :
    IsLeast {L | (stage ctx k).family ≤ L ∧
        ∀ s t, HasLink (stage ctx k).effects s t → L s ≤ L t}
      (stage ctx (k + n + 1)).family := by
  obtain ⟨_, hspreads⟩ := h.exists_spreads hg (i := n) (by omega)
  obtain ⟨_, hall⟩ := h.exists_spreads hg (i := n + 1) (by omega)
  obtain ⟨_, _, _, _, hclosed⟩ := h.exists_pass hg (j := k + n) (by omega) (by omega)
  refine hall.isLeast fun s t hst => hclosed rfl s t ?_
  rwa [hspreads.keeps.effects]

end Timetable

-- A pass only adds lookaheads, and tells where.
structure IsPass (a b : Automaton) (p : PropagationPass) : Prop where
  keeps : Keeps a b
  le    : a.family ≤ b.family
  grown : ∀ r, r ∈ p.grown ↔ ¬ b.family r ≤ a.family r

-- The steps from `k` to `k + n` are the passes. All but the last one grow something, and the last
-- one leaves the least solution. The same comes of passes over the same links in any other orders.
theorem propagation_least (h : ctx.grammar.IsDefined) : ∃ k n,
    (∀ j, (stage ctx j).phase = .propagate ↔ k ≤ j ∧ j ≤ k + n) ∧
    (∀ j, k ≤ j → j ≤ k + n → ∃ p,
      (stage ctx j).step ctx = (stage ctx (j + 1), .ok (.propagate p)) ∧
      IsPass (stage ctx j) (stage ctx (j + 1)) p ∧ (p.grown = [] ↔ j = k + n)) ∧
    IsLeast {L | IsSolution ctx (stage ctx k) L} (stage ctx (k + n + 1)).family ∧
    ∀ orders, (stage ctx k).IsSchedule orders → ∃ m,
      (∀ j ≤ m, (stage ctx k).grownIn orders j = [] ↔ j = m) ∧
      Keeps (stage ctx k) ((stage ctx k).afterPasses orders (m + 1)) ∧
      ((stage ctx k).afterPasses orders (m + 1)).family = (stage ctx (k + n + 1)).family := by
  have hg := h.wellFormed
  obtain ⟨m, k, n, htime⟩ := exists_timetable hg
  have hleast := htime.isLeast hg
  refine ⟨k, n, fun j => htime.phase_eq_propagate_iff, fun j hj hj' => ?_, ?_, fun orders ho => ?_⟩
  case refine_1 =>
    obtain ⟨p, hstep, hspreads, hlast, _⟩ := htime.exists_pass hg hj hj'
    exact ⟨p, hstep, ⟨hspreads.keeps, hspreads.le, hspreads.grown⟩, hlast⟩
  case refine_2 =>
    simp only [htime.isSolution_iff hg]
    exact hleast
  case refine_3 =>
    have hsound := (htime.passing k le_rfl (Nat.le_add_right ..)).toIsSound
    obtain ⟨m, hm, hkeeps, hleast'⟩ := ho.exists_isLeast hg hsound
    exact ⟨m, hm, hkeeps, hleast'.unique hleast⟩

-- Two passes follow after eleven steps. `S → S · a` gets its own terminal from the survey, and the
-- end of input from the start item.
theorem propagation_least_on_repetition : Grammar.repetition.IsDefined ∧
    let ctx : Context := .ofGrammar .repetition
    IsLeast {L | IsSolution ctx (stage ctx 11) L} (stage ctx 13).family ∧
      (stage ctx 13).kernelLookaheads ⟨⟨1⟩, 1⟩ = .ofList [.endOfInput, ⟨2⟩] := by
  have h := Grammar.repetition_isDefined
  obtain ⟨k, n, hphase, _, hleast, _⟩ := @propagation_least (.ofGrammar .repetition) h
  have hphases : ∀ j ∈ [10, 13],
      (stage (.ofGrammar .repetition) j).phase ≠ .propagate := by decide +kernel
  have hfirst := (hphase 11).mp (by decide +kernel)
  have hlast := (hphase 12).mp (by decide +kernel)
  have hbefore := mt (hphase 10).mpr <| hphases 10 (by decide)
  have hafter := mt (hphase 13).mpr <| hphases 13 (by decide)
  obtain ⟨rfl, rfl⟩ : k = 11 ∧ n = 1 := by omega
  exact ⟨h, hleast, by decide +kernel⟩

end ShiftReduce
