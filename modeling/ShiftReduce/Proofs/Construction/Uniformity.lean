import ShiftReduce.Proofs.Closure.Uniformity
import ShiftReduce.Proofs.Lalr.LeastSolution

namespace ShiftReduce

-- The end of input and terminals that the grammar has declared, but not the marker. What is shown
-- with the name of the marker has been declared with this name.
structure IsUnmarked (g : Grammar) (s : TerminalSet) : Prop where
  marker    : .marker ∉ s
  terminals : ∀ t ∈ s, t = .endOfInput ∨
    (g.vocabulary.Declares (.terminal t) ∧ ¬ t.IsReserved)
  names     : ∀ t ∈ s,
    g.vocabulary.symbol? (g.vocabulary.name (.terminal t)) = some (.terminal t)

theorem Grammar.WellFormed.isUnmarked {g : Grammar} {s : TerminalSet} (h : g.WellFormed)
    (hs : ∀ t ∈ s, t ∈ g.vocabulary.inputTerminals) : IsUnmarked g s where
  marker hm      := (Vocabulary.mem_inputTerminals.mp <| hs _ hm).right rfl
  terminals t ht := by
    obtain ⟨hdeclares, hmarker⟩ := Vocabulary.mem_inputTerminals.mp <| hs t ht
    refine or_iff_not_imp_left.mpr fun hend => ⟨hdeclares, fun hr => ?_⟩
    exact (Terminal.isReserved_iff.mp hr).elim hend hmarker
  names t ht     := by
    obtain ⟨hdeclares, hmarker⟩ := Vocabulary.mem_inputTerminals.mp <| hs t ht
    exact h.vocabulary.symbol?_name hdeclares <| by simpa using hmarker

namespace Automaton

-- All nodes count, also those of states that have been merged away.
def Fits (P : Terminal → Prop) (kind : ItemKind) (a : Automaton) : Prop :=
  ∀ n ∈ a.nodes, n.items.Fits P kind

variable {ctx : Context} {alg : Algorithm} {a b : Automaton} {P : Terminal → Prop}
  {kind : ItemKind} {n : Node} {q : StateId} {r : KernelRef} {lookaheads : TerminalSet} {s : Survey}

namespace Fits

section Changes

theorem node (h : a.Fits P kind) (hn : a.node q = .ok n) : n.items.Fits P kind :=
  h n <| Array.mem_of_getElem? (node?_eq_some_iff.mp <| node_eq_ok_iff.mp hn).left

theorem modifyItems {f : ItemSet → ItemSet} (h : a.Fits P kind)
    (hf : ∀ n ∈ a.nodes, (f n.items).Fits P kind) : (a.modifyItems q f).Fits P kind :=
  forall_mem_modifyNode h fun n hn => hf n <| Array.mem_of_getElem? hn

theorem modifyNode {f : Node → Node} (h : a.Fits P kind) (hf : ∀ n, (f n).items = n.items) :
    (a.modifyNode q f).Fits P kind :=
  forall_mem_modifyNode (P := (·.items.Fits P kind)) h fun n hn =>
    (hf n).symm ▸ h n (Array.mem_of_getElem? hn)

theorem gain (h : a.Fits P kind) (hl : ∀ t ∈ lookaheads, P t) : (a.gain r lookaheads).Fits P kind :=
  h.modifyItems fun n hn => (h n hn).addLookaheads hl

theorem kernelLookaheads (h : a.Fits P kind) : ∀ t ∈ a.kernelLookaheads r, P t := by
  unfold Automaton.kernelLookaheads
  split
  case h_1 i hi =>
    obtain ⟨n, hn, hi⟩ := Option.bind_eq_some_iff.mp hi
    exact ((h n <| Array.mem_of_getElem? hn).kernel i <| List.mem_of_getElem? hi).lookaheads
  case h_2 => simp

theorem connect {g : Grammar} {kind' : ItemKind} {nodes : Array Node} {succs : List Successor}
    (h : ∀ n ∈ nodes, n.items.Fits P kind) (hs : ∀ s ∈ succs, ∀ i ∈ s.kernel, i.Fits P kind) :
    ∀ n ∈ (Automaton.connect g kind' nodes succs).1, n.items.Fits P kind := by
  induction succs generalizing nodes
  case nil => exact h
  case cons s succs hi =>
    obtain ⟨hs, hsuccs⟩ := List.forall_mem_cons.mp hs
    rw [Automaton.connect]
    split
    case h_1 => exact hi h hsuccs
    case h_2 =>
      exact hi (forall_mem_push (P := (·.items.Fits P kind)) h <| .ofKernel hs) hsuccs

theorem promoted (h : a.Fits P kind) : (promoted a).Fits P .lr1 := by
  intro n hn
  obtain ⟨m, hm, rfl⟩ := Array.mem_map.mp hn
  exact (h m hm).promote

end Changes
end Fits

section Survey

-- A survey keeps the marker to itself.
structure Survey.Fits (P : Terminal → Prop) (kind : ItemKind) (s : Survey) : Prop where
  automaton : s.automaton.Fits P kind
  generated : ∀ r lookaheads, (r, lookaheads) ∈ s.generated → ∀ t ∈ lookaheads, P t

theorem Survey.fits_of_probe (hg : ctx.grammar.WellFormed)
    (hP : ∀ t ∈ ctx.grammar.vocabulary.inputTerminals, P t) {c : Core} {items : List Item}
    (h : probe ctx c = .ok items) : ∀ i ∈ items, i.Fits (fun t => P t ∨ t = .marker) .lr1 := by
  obtain ⟨seed, hseed, h⟩ := exists_of_bind_eq_ok h
  obtain ⟨_, _, h⟩ := exists_of_bind_eq_ok h
  have hseed : seed = ⟨⟨c.rule, c.dot⟩, some {.marker}⟩ :=
    Item.eq_of_make_eq_ok <| eq_ok_of_mapError_eq_ok hseed
  have hfits : seed.Fits (fun t => P t ∨ t = .marker) .lr1 :=
    ⟨by simp [Item.kind, hseed], by simp [Item.lookaheadSet, hseed]⟩
  cases h
  refine (ItemSet.Fits.computeClosure hg (fun t ht => .inl <| hP t ht) ?_).closure
  exact .ofKernel <| by simpa using hfits

namespace Survey.Fits

theorem link {source target : KernelRef} (h : s.Fits P kind) :
    (s.link source target).Fits P kind where
  automaton := by
    rw [Automaton.Fits, nodes_link]
    exact h.automaton
  generated := by
    rw [generated_link]
    exact h.generated

theorem generate {target : KernelRef} (h : s.Fits P kind) (hl : ∀ t ∈ lookaheads, P t) :
    (s.generate target lookaheads).Fits P kind where
  automaton     := h.automaton.gain hl
  generated r l hr := by
    cases List.mem_cons.mp hr
    case inl hr => cases hr; exact hl
    case inr hr => exact h.generated r l hr

-- What is left of the lookaheads of a probe when the marker is gone is generated.
theorem kernel {index : Nat} {cores : List Core} (hg : ctx.grammar.WellFormed)
    (hP : ∀ t ∈ ctx.grammar.vocabulary.inputTerminals, P t) (h : s.Fits P kind) :
    (s.kernel ctx q index cores).1.Fits P kind := by
  refine kernel_induction link (fun hprobe item hi => fun _ h => h.generate fun t ht => ?_) h
  have ht := TerminalSet.mem_erase.mp ht
  exact ((fits_of_probe hg hP hprobe item hi).lookaheads t ht.left).resolve_right ht.right

end Survey.Fits
end Survey

section Passes

theorem Fits.passOn {targets : List KernelRef} (h : a.Fits P kind) (hl : ∀ t ∈ lookaheads, P t) :
    (passOn lookaheads a targets).1.Fits P kind ∧
      (passOn lookaheads a targets).1.phase = a.phase := by
  induction targets generalizing a
  case nil => exact ⟨h, rfl⟩
  case cons target targets hi =>
    rw [Automaton.passOn]
    split
    case isTrue  => exact hi h
    case isFalse => exact hi (h.gain hl)

theorem Fits.passAllOn {effects : List (KernelRef × List KernelRef)} (h : a.Fits P kind) :
    (passAllOn a effects).1.Fits P kind ∧ (passAllOn a effects).1.phase = a.phase := by
  induction effects generalizing a
  case nil => exact ⟨h, rfl⟩
  case cons e effects hi =>
    obtain ⟨source, targets⟩ := e
    obtain ⟨hpassed, hphase⟩ :
        (Automaton.passOn (a.kernelLookaheads source) a targets).1.Fits P kind ∧ _ :=
      h.passOn h.kernelLookaheads
    obtain ⟨hrest, hphase'⟩ := hi hpassed
    exact ⟨hrest, hphase'.trans hphase⟩

end Passes

-- The items stay of their kind, and the propagation does not start.
structure Stays (P : Terminal → Prop) (kind : ItemKind) (a b : Automaton) : Prop where
  fits  : b.Fits P kind
  phase : b.phase = .spontaneous → a.phase = .spontaneous

theorem node_of_propagating {phase : Phase} (h : a.propagating phase = .ok n) :
    a.node ⟨a.pointer⟩ = .ok n := by
  obtain ⟨_, _, h⟩ := exists_of_bind_eq_ok h
  obtain ⟨_, _, h⟩ := exists_of_bind_eq_ok h
  exact h

namespace Stays

theorem trans {c : Automaton} (h : Stays P kind a b) (h' : Stays P kind b c) : Stays P kind a c :=
  ⟨h'.fits, h.phase ∘ h'.phase⟩

theorem advancePointer {next : Phase} (h : Stays P kind a b) (hnext : next ≠ .spontaneous) :
    Stays P kind a (b.advancePointer next) where
  fits     := h.fits
  phase hp := by
    rw [Automaton.advancePointer] at hp
    split at hp
    case isTrue  => exact absurd hp hnext
    case isFalse => exact h.phase hp

theorem closureStep {st : ConstructionStep} (hg : ctx.grammar.WellFormed)
    (hP : ∀ t ∈ ctx.grammar.vocabulary.inputTerminals, P t) (h : a.Fits P kind)
    (hs : a.closureStep ctx = .ok (b, st)) : Stays P kind a b := by
  obtain ⟨n, hn, hs⟩ := exists_of_bind_eq_ok hs
  obtain ⟨⟨items, step⟩, hstep, hs⟩ := exists_of_bind_eq_ok hs
  have hitems := (h.node hn).closureStep hg hP <| eq_ok_of_mapError_eq_ok hstep
  have hstepped : (a.modifyItems ⟨a.pointer⟩ fun _ => items).Fits P kind :=
    h.modifyItems fun _ _ => hitems
  cases hs
  refine ⟨hstepped, fun hp => ?_⟩
  dsimp only at hp
  split at hp
  case isTrue  => split at hp <;> cases hp
  case isFalse => exact hp

theorem mergeLookaheadsStep {st : ConstructionStep} (h : a.Fits P kind)
    (hs : a.mergeLookaheadsStep = .ok (b, st)) : Stays P kind a b := by
  obtain ⟨n, hn, hs⟩ := exists_of_bind_eq_ok hs
  have hjoined : (a.modifyItems ⟨a.pointer⟩ fun _ => n.items.mergeLookaheads.1).Fits P kind :=
    h.modifyItems fun _ _ => (h.node hn).mergeLookaheads
  cases hs
  exact ⟨hjoined, nofun⟩

theorem mergeStep {st : Option MergeStep} (h : a.Fits P kind) (hs : a.mergeStep = .ok (b, st)) :
    Stays P kind a b := by
  obtain ⟨_, _, hs⟩ := exists_of_bind_eq_ok hs
  obtain ⟨_, _, hs⟩ := exists_of_bind_eq_ok hs
  split at hs
  case h_1 =>
    cases hs
    exact ⟨h, nofun⟩
  case h_2 into removed _ =>
    obtain ⟨source, hsource, hs⟩ := exists_of_bind_eq_ok hs
    obtain ⟨_, _, hs⟩ := exists_of_bind_eq_ok hs
    have habsorbed : (a.modifyItems into (·.absorb source.items)).Fits P kind :=
      h.modifyItems fun n hn => (h n hn).absorb <| h.node hsource
    have hmerged : (a.merge into removed source.items).Fits P kind :=
      habsorbed.modifyNode (f := fun n => { n with live := false, edges := [] }) fun _ => rfl
    cases hs
    split
    · exact ⟨hmerged, id⟩
    · exact ⟨hmerged, nofun⟩

theorem retarget {st : RetargetStep} (h : a.Fits P kind) (hs : a.retarget = .ok (b, st)) :
    Stays P kind a b := by
  obtain ⟨_, _, hs⟩ := exists_of_bind_eq_ok hs
  obtain ⟨_, _, hs⟩ := exists_of_bind_eq_ok hs
  cases hs
  refine ⟨fun n hn => ?_, nofun⟩
  obtain ⟨m, hm, rfl⟩ := Array.mem_map.mp hn
  exact h m hm

theorem mergeStatesStep {st : ConstructionStep} (h : a.Fits P kind)
    (hs : a.mergeStatesStep = .ok (b, st)) : Stays P kind a b := by
  obtain ⟨⟨c, merged⟩, hc, hs⟩ := exists_of_bind_eq_ok hs
  have hmerged := mergeStep h hc
  cases merged
  case some =>
    cases hs
    exact hmerged
  case none =>
    obtain ⟨⟨d, st'⟩, hd, hs⟩ := exists_of_bind_eq_ok hs
    cases hs
    exact hmerged.trans <| retarget hmerged.fits hd

theorem propagationPass {st : PropagationPass} (h : a.Fits P kind)
    (hs : a.propagationPass = .ok (b, st)) : Stays P kind a b := by
  obtain ⟨_, _, hs⟩ := exists_of_bind_eq_ok hs
  obtain ⟨_, _, hs⟩ := exists_of_bind_eq_ok hs
  have hstart : ({ a with passes := a.passes + 1 } : Automaton).Fits P kind := h
  obtain ⟨hpassed, hphase⟩ : (passAllOn _ a.effectsInOrder).1.Fits P kind ∧ _ := hstart.passAllOn
  cases hs
  split
  · exact ⟨hpassed, nofun⟩
  · exact ⟨hpassed, fun hp => hphase ▸ hp⟩

theorem recloseStep {st : RecloseStep} (hg : ctx.grammar.WellFormed)
    (hP : ∀ t ∈ ctx.grammar.vocabulary.inputTerminals, P t) (h : a.Fits P kind)
    (hs : a.recloseStep ctx = .ok (b, st)) : Stays P kind a b := by
  obtain ⟨n, hn, hs⟩ := exists_of_bind_eq_ok hs
  obtain ⟨_, _, hs⟩ := exists_of_bind_eq_ok hs
  have hreset : (n.items.reset ctx.grammar).Fits P kind :=
    .ofKernel (h.node <| node_of_propagating hn).kernel
  have hclosed : ((n.items.reset ctx.grammar).computeClosure ctx .lr1).1.Fits P kind :=
    hreset.computeClosure hg hP
  have hreclosed : (a.modifyItems ⟨a.pointer⟩ fun _ => _).Fits P kind :=
    h.modifyItems fun _ _ => hclosed.mergeLookaheads
  cases hs
  exact advancePointer ⟨hreclosed, id⟩ nofun

theorem attempt {α : Type} {x : Except Error (Automaton × α)} (h : a.Fits P kind)
    (hx : ∀ b y, x = .ok (b, y) → Stays P kind a b) : Stays P kind a (a.attempt x).1 := by
  cases x
  case error => exact ⟨h, id⟩
  case ok r  => exact hx r.1 r.2 rfl

end Stays

theorem fst_attempt_map {α β : Type} {x : Except Error (Automaton × α)} {f : α → β} :
    (a.attempt (x.map (·.map id f))).1 = (a.attempt x).1 := by
  cases x <;> rfl

-- The kind of all items when a phase is entered. A survey needs lookaheads to add to.
def kindOnEntering (kind : ItemKind) (phase : Phase) : ItemKind :=
  if phase = .spontaneous then .lr1 else kind

theorem kindOnEntering_eq_lr1_iff {phase : Phase} :
    kindOnEntering kind phase = .lr1 ↔ phase = .spontaneous ∨ kind = .lr1 := by
  unfold kindOnEntering
  split <;> simp_all

theorem Stays.fits_onEntering (h : Stays P kind a b) (hp : a.phase ≠ .spontaneous) :
    b.Fits P (kindOnEntering kind b.phase) := by
  rw [kindOnEntering, if_neg <| mt h.phase hp]
  exact h.fits

namespace Fits

-- What is left of the lookaheads of the probes is all that a survey adds and reports.
theorem spontaneousStep (hg : ctx.grammar.WellFormed)
    (hP : ∀ t ∈ ctx.grammar.vocabulary.inputTerminals, P t) (h : a.Fits P kind) :
    (a.spontaneousStep ctx).1.Fits P kind ∧ ∀ st, (a.spontaneousStep ctx).2 = .ok st →
      ∀ r lookaheads, (r, lookaheads) ∈ st.generated → ∀ t ∈ lookaheads, P t := by
  rw [Automaton.spontaneousStep]
  split
  case h_1 => exact ⟨h, by simp⟩
  case h_2 n _ =>
    have hsurveyed : (Survey.kernel ctx ⟨a.pointer⟩ ⟨a, [], []⟩ 0
        (n.items.kernel.map (·.core))).1.Fits P kind := .kernel hg hP ⟨h, by simp⟩
    dsimp only
    split
    case h_1 hs =>
      rw [hs] at hsurveyed
      exact ⟨hsurveyed.automaton, by simp⟩
    case h_2 hs =>
      rw [hs] at hsurveyed
      refine ⟨hsurveyed.automaton, fun st hst => ?_⟩
      cases hst
      exact fun r lookaheads hr => hsurveyed.generated r lookaheads <| List.mem_reverse.mp hr

theorem ofClosure {g : Grammar} {closure : List Item} (h : ∀ i ∈ closure, i.Fits P kind) :
    ∀ s ∈ Successor.ofClosure g closure, ∀ i ∈ s.kernel, i.Fits P kind := by
  intro s hs i hi
  rw [ofClosure_eq] at hs
  obtain ⟨x, _, rfl⟩ := List.mem_map.mp hs
  obtain ⟨j, hj, _, rfl⟩ := mem_kernelOver.mp hi
  exact (h j hj).advance

theorem enterState (hP : P .endOfInput) (h : a.Fits P kind) :
    a.enterState.Fits P (kindOnEntering kind a.enterState.phase) := by
  unfold Automaton.enterState
  split
  case h_1 n _ => cases n.items.closed <;> exact h
  case h_2 =>
    split
    case h_1 | h_2 => exact h
    case h_3 =>
      rw [startMerging]
      dsimp only
      split <;> exact h
    case h_4 =>
      have hstarted : a.startPropagation.Fits P .lr1 :=
        startPropagation_eq ▸ h.promoted.gain (by simpa using hP)
      exact hstarted

theorem gotoStep {st : GotoStep} (hP : P .endOfInput) (h : a.Fits P kind)
    (hs : a.gotoStep ctx = .ok (b, st)) : b.Fits P (kindOnEntering kind b.phase) := by
  obtain ⟨_, _, hs⟩ := exists_of_bind_eq_ok hs
  obtain ⟨n, hn, hs⟩ := exists_of_bind_eq_ok hs
  let c := Automaton.connect ctx.grammar a.algorithm.itemKind a.nodes
    (Successor.ofClosure ctx.grammar n.items.closure)
  have hconnected : ({ a with nodes := c.1 } : Automaton).Fits P kind :=
    connect h <| ofClosure (h.node hn).closure
  have hlinked : (({ a with nodes := c.1 } : Automaton).modifyNode ⟨a.pointer⟩
      ({ · with edges := c.2.map (·.1) })).Fits P kind := hconnected.modifyNode fun _ => rfl
  cases hs
  exact enterState hP hlinked

-- The step that starts the propagation is the only one that changes the kind of items.
theorem step (hg : ctx.grammar.WellFormed)
    (hP : ∀ t ∈ ctx.grammar.vocabulary.inputTerminals, P t) (h : a.Fits P kind)
    (hkind : a.phase = .spontaneous → kind = .lr1) :
    (a.step ctx).1.Fits P (kindOnEntering kind (a.step ctx).1.phase) := by
  have hend : P .endOfInput := hP _ hg.endOfInput_mem_inputTerminals
  by_cases hp : a.phase = .spontaneous
  case pos =>
    have hsame : kindOnEntering kind (a.step ctx).1.phase = kind := by
      rw [kindOnEntering_eq_lr1_iff.mpr <| .inr <| hkind hp, hkind hp]
    rw [hsame, Automaton.step, hp]
    exact (h.spontaneousStep hg hP).left
  case neg =>
    rw [Automaton.step]
    cases hphase : a.phase
    case spontaneous => exact absurd hphase hp
    case goto =>
      simp only [fst_attempt_map]
      cases hs : a.gotoStep ctx
      case error => exact (Stays.mk h id).fits_onEntering hp
      case ok    => exact h.gotoStep hend hs
    case closure =>
      exact (Stays.attempt h fun _ _ => .closureStep hg hP h).fits_onEntering hp
    case mergeLookaheads =>
      exact (Stays.attempt h fun _ _ => .mergeLookaheadsStep h).fits_onEntering hp
    case mergeStates =>
      exact (Stays.attempt h fun _ _ => .mergeStatesStep h).fits_onEntering hp
    case retarget =>
      simp only [fst_attempt_map]
      exact (Stays.attempt h fun _ _ => .retarget h).fits_onEntering hp
    case propagate =>
      simp only [fst_attempt_map]
      exact (Stays.attempt h fun _ _ => .propagationPass h).fits_onEntering hp
    case reclose =>
      simp only [fst_attempt_map]
      exact (Stays.attempt h fun _ _ => .recloseStep hg hP h).fits_onEntering hp
    case done => exact (Stays.mk h id).fits_onEntering hp

theorem init (hg : ctx.grammar.WellFormed)
    (hP : ∀ t ∈ ctx.grammar.vocabulary.inputTerminals, P t) :
    (initial ctx alg).Fits P alg.itemKind := by
  have hend : P .endOfInput := hP _ hg.endOfInput_mem_inputTerminals
  have hstart : (Item.start alg.itemKind).Fits P alg.itemKind := by
    cases alg.itemKind
    case lr0 => exact ⟨rfl, by simp [Item.start, Item.lookaheadSet]⟩
    case lr1 => exact ⟨rfl, by simpa [Item.start, Item.lookaheadSet] using hend⟩
  intro n hn
  cases List.mem_singleton.mp <| Array.mem_toList_iff.mpr hn
  exact .ofKernel <| by simpa using hstart

-- The items have lookaheads from the start, or since the propagation began.
theorem iterate (hg : ctx.grammar.WellFormed)
    (hP : ∀ t ∈ ctx.grammar.vocabulary.inputTerminals, P t) (k : Nat) :
    let after (j : Nat) : Automaton := (fun a => (a.step ctx).1)^[j] (initial ctx alg)
    ∃ kind, (after k).Fits P kind ∧
      (kind = .lr1 ↔ alg.itemKind = .lr1 ∨ ∃ j ≤ k, (after j).phase = .spontaneous) := by
  intro after
  induction k
  case zero => exact ⟨_, init hg hP, by simp [after, initial]⟩
  case succ k hi =>
    obtain ⟨kind, hfits, hkind⟩ := hi
    have hstep : after (k + 1) = ((after k).step ctx).1 := Function.iterate_succ_apply' ..
    have hlast : (∃ j ≤ k + 1, (after j).phase = .spontaneous) ↔
        (∃ j ≤ k, (after j).phase = .spontaneous) ∨ (after (k + 1)).phase = .spontaneous := by
      simp only [← Nat.lt_succ_iff, Nat.exists_lt_succ_right]
    refine ⟨kindOnEntering kind (after (k + 1)).phase, ?_, ?_⟩
    · exact hstep ▸ hfits.step hg hP fun hp => hkind.mpr <| .inr ⟨k, le_rfl, hp⟩
    · rw [kindOnEntering_eq_lr1_iff, hkind, hlast, or_comm, or_assoc]

end Fits
end Automaton

variable {ctx : Context}

open Automaton

-- No construction other than that by propagation makes a survey.
theorem Underway.eq_of_phase_eq {alg : Algorithm} {a : Automaton} (h : Underway ctx alg a)
    (hp : a.phase = .spontaneous) : alg = .lalrByPropagation := by
  cases h
  case collecting h => simpa [hp] using h.phase_eq
  case merging h => simpa [hp] using h.right
  case surveying halg _ | passing halg _ | reclosing halg _ => exact halg
  case complete h => simp [show a.phase = .done from h.isDone] at hp

-- Whatever the algorithm and the number of steps, the marker is in no lookahead set of a state, in
-- no set that a survey reports and in no FIRST set. The items of all states have lookaheads, unless
-- the algorithm has none or has not begun to add them.
theorem marker_never_leaks (h : ctx.grammar.IsDefined) (alg : Algorithm) (k : Nat) :
    let after (j : Nat) : Automaton := (fun a => (a.step ctx).1)^[j] (initial ctx alg)
    (∀ n, IsUnmarked ctx.grammar (ctx.first.first n)) ∧
    (∀ n ∈ (after k).nodes, ∀ i ∈ n.items.kernel ++ n.items.closure,
      IsUnmarked ctx.grammar i.lookaheadSet ∧
      (i.kind = .lr0 ↔ alg = .lr0 ∨
        (alg = .lalrByPropagation ∧ ∀ j ≤ k, (after j).phase ≠ .spontaneous))) ∧
    ∀ st, ((after k).step ctx).2 = .ok (.spontaneous st) →
      ∀ r lookaheads, (r, lookaheads) ∈ st.generated → IsUnmarked ctx.grammar lookaheads := by
  have hg := h.wellFormed
  intro after
  obtain ⟨kind, hfits, hkind⟩ : ∃ kind, (after k).Fits _ kind ∧ _ :=
    Fits.iterate hg (fun _ => id) k
  refine ⟨fun n => hg.isUnmarked fun t => ctx.mem_inputTerminals_of_mem_first hg,
    fun n hn i hi => ?_, fun st hst r lookaheads hr => ?_⟩
  case refine_1 =>
    have hitem := (List.mem_append.mp hi).elim ((hfits n hn).kernel i) ((hfits n hn).closure i)
    refine ⟨hg.isUnmarked hitem.lookaheads, ?_⟩
    have hsurvey : (∃ j ≤ k, (after j).phase = .spontaneous) → alg = .lalrByPropagation :=
      fun ⟨j, _, hp⟩ => (Underway.iterate (k := j) hg).eq_of_phase_eq hp
    have hnone : (∀ j ≤ k, (after j).phase ≠ .spontaneous) ↔
        ¬ ∃ j ≤ k, (after j).phase = .spontaneous := by simp
    rw [hitem.kind, hnone]
    generalize (∃ j ≤ k, (after j).phase = .spontaneous) = begun at hkind hsurvey
    cases alg <;> cases kind <;> simp_all [Algorithm.itemKind]
  case refine_2 =>
    have hst : ((after k).spontaneousStep ctx).2 = .ok st := by
      rw [Automaton.step, phase_of_step_spontaneous hst] at hst
      cases hs : ((after k).spontaneousStep ctx).2
      case error => simp [hs, Except.map] at hst
      case ok    => simpa [hs, Except.map] using hst
    exact hg.isUnmarked <| (hfits.spontaneousStep hg fun _ => id).right st hst r lookaheads hr

namespace Grammar

-- The grammar `S → S # | ε`, whose terminal has the name of the marker.
def hashedCalls : List Draft.Call :=
  [.terminal "#", .nonterminal "S", .rule ⟨1⟩ [.nonterminal ⟨1⟩, .terminal ⟨2⟩] none,
    .rule ⟨1⟩ [] none]

def hashed : Grammar where
  vocabulary := (Draft.afterCalls hashedCalls).vocabulary
  rules      := #[⟨.accept, [.nonterminal ⟨1⟩], 0, 0⟩] ++ (Draft.afterCalls hashedCalls).rules
  start      := ⟨1⟩

theorem hashed_isDefined : hashed.IsDefined :=
  ⟨hashedCalls, by cbv⟩

end Grammar

-- When the passes are over, `S → S · #` can be followed by `#`, which is the declared terminal.
theorem marker_never_leaks_on_hashed : Grammar.hashed.IsDefined ∧
    let ctx : Context := .ofGrammar .hashed
    let a : Automaton := (fun a => (a.step ctx).1)^[13] (initial ctx .lalrByPropagation)
    ctx.grammar.vocabulary.name (.terminal ⟨2⟩) = Vocabulary.markerName ∧
      ⟨2⟩ ∈ a.kernelLookaheads ⟨⟨1⟩, 1⟩ ∧
      ∀ n ∈ a.nodes, ∀ i ∈ n.items.kernel ++ n.items.closure,
        i.kind = .lr1 ∧ IsUnmarked ctx.grammar i.lookaheadSet := by
  have h := Grammar.hashed_isDefined
  refine ⟨h, ?_⟩
  intro ctx a
  refine ⟨by decide +kernel, by decide +kernel, fun n hn i hi => ?_⟩
  have hsurvey : ((fun a => (a.step ctx).1)^[10] (initial ctx .lalrByPropagation)).phase =
      .spontaneous := by decide +kernel
  obtain ⟨_, hitems, _⟩ := @marker_never_leaks ctx h .lalrByPropagation 13
  obtain ⟨hunmarked, hkind⟩ := hitems n hn i hi
  refine ⟨?_, hunmarked⟩
  cases hi : i.kind
  case lr1 => rfl
  case lr0 =>
    have hnone := (hkind.mp hi).resolve_left (by decide)
    exact absurd hsurvey <| hnone.right 10 (by decide)

end ShiftReduce
