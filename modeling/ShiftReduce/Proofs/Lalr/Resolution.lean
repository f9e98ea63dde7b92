import ShiftReduce.Proofs.Construction.Coherence
import ShiftReduce.Proofs.Construction.Operations
import ShiftReduce.Proofs.Lalr.Agreement

namespace ShiftReduce

open Automaton

-- The state of `a` has the items of all the states of the canonical `c` that resolve to it.
structure IsUnited (ctx : Context) (c a : Automaton) (q : StateId) (s : ItemSet) : Prop where
  cores    : ∃ m, c.node? q = some m ∧ s.kernel.map Item.core = m.items.kernel.map Item.core ∧
    s.closure.map Item.core = m.items.closure.map Item.core
  nodup    : (s.closure.map Item.core).Nodup
  kernel   : ∀ d t, Covers s.kernel d t ↔
    ∃ p m, c.node? p = some m ∧ a.resolve p = q ∧ Covers m.items.kernel d t
  closure  : ∀ d t, Covers s.closure d t ↔
    ∃ p m, c.node? p = some m ∧ a.resolve p = q ∧ Covers m.items.closure d t
  closed   : s.closure = closureOf ctx .lr1 s.kernel
  isPrefix : s.kernel <+: s.closure

-- What merging has made of the states of the canonical automaton `c`.
structure MergesExactly (ctx : Context) (c a : Automaton) : Prop where
  redirects : ∀ {p q}, (p, q) ∈ a.redirects → p ∉ a.liveStates ∧ q.number < p.number ∧
    ∃ n m, a.nodes[p.number]? = some n ∧ a.nodes[q.number]? = some m ∧
      SameKernel .lr0 n.items.kernel m.items.kernel
  unique    : ∀ {p q r}, (p, q) ∈ a.redirects → (p, r) ∈ a.redirects → q = r
  resolves  : ∀ q ∈ c.liveStates, a.resolve q ∈ a.liveStates ∧
    Relation.ReflTransGen (fun p p' => (p, p') ∈ a.redirects) q (a.resolve q)
  live      : ∀ q ∈ a.liveStates, q ∈ c.liveStates ∧ a.resolve q = q
  united    : ∀ {q n}, a.node? q = some n → IsUnited ctx c a q n.items
  -- The states before the cursor differ from each other and from those behind it.
  cursor    : ∀ {p q n m}, a.node? p = some n → a.node? q = some m → p ≠ q →
    p.number < a.mergeCursor → ¬ SameKernel .lr0 n.items.kernel m.items.kernel
  -- The search from the cursor finds whatever is left to merge.
  search    : a.mergeable? = none → ∀ {p q n m}, a.node? p = some n → a.node? q = some m →
    p ≠ q → ¬ SameKernel .lr0 n.items.kernel m.items.kernel

-- The merged automaton, in which transitions lead where those of the merged states led.
structure IsMergeOf (c a : Automaton) : Prop where
  distinct    : ∀ {p q n m}, a.node? p = some n → a.node? q = some m →
    SameKernel .lr0 n.items.kernel m.items.kernel → p = q
  connected   : ∀ {q e}, (q, e) ∈ a.transitions → q ∈ a.liveStates ∧ e.target ∈ a.liveStates
  transitions : ∀ q ∈ a.liveStates, ∀ x, a.transition? q x = (c.transition? q x).map a.resolve
  merged      : ∀ q ∈ a.liveStates, ∀ p ∈ c.liveStates, a.resolve p = q →
    ∀ x, a.transition? q x = (c.transition? p x).map a.resolve

-- Also a state that is gone keeps its cores.
def KeepsCores (ctx : Context) (a : Automaton) : Prop :=
  ∀ (q : StateId) n, a.nodes[q.number]? = some n →
    n.items.kernel.map Item.core = (kernelIn ctx .lr1 q).map Item.core

variable {ctx : Context} {a b c : Automaton} {n m : Node} {p q r : StateId} {s : ItemSet}

namespace KeepsCores

theorem modifyNode {f : Node → Node} (h : KeepsCores ctx a)
    (hf : ∀ n, (f n).items.kernel.map Item.core = n.items.kernel.map Item.core) :
    KeepsCores ctx (a.modifyNode r f) := by
  intro q n hn
  rw [Automaton.modifyNode, Array.getElem?_modify] at hn
  split at hn
  case isFalse => exact h q n hn
  case isTrue =>
    obtain ⟨m, hm, he⟩ := Option.map_eq_some_iff.mp hn
    rw [← he, hf, h q m hm]

theorem merge (h : KeepsCores ctx a) : KeepsCores ctx (a.merge q r s) :=
  have h' : KeepsCores ctx (a.modifyItems q (·.absorb s)) :=
    h.modifyNode fun _ => map_core_foldl_joinFirst
  h'.modifyNode (r := r) (f := fun n => { n with live := false, edges := [] }) fun _ => rfl

theorem sameKernel (hg : ctx.grammar.WellFormed) (h : KeepsCores ctx a)
    (hn : a.nodes[p.number]? = some n) (hm : a.nodes[q.number]? = some m)
    (hp : p.number < (collection ctx .lr1).length) (hq : q.number < (collection ctx .lr1).length) :
    SameKernel .lr0 n.items.kernel m.items.kernel ↔ coresAt ctx p = coresAt ctx q := by
  have hpn := h p n hn
  have hqm := h q m hm
  rw [sameKernel_lr0_iff, hpn, hqm, coresAt, coresAt]
  · exact hpn ▸ (isKernel_kernelIn hg hp).nodup
  · exact hqm ▸ (isKernel_kernelIn hg hq).nodup

end KeepsCores

theorem Collected.keepsCores (h : Collected ctx .lalrByMerging a) : KeepsCores ctx a :=
  fun _ _ hn => congrArg _ (kernelIn_eq <| h.getElem?_eq hn).symm

-- The states of the canonical automaton are those of the collection.
theorem Collected.exists_node?_iff {P : List Item → List Item → Prop} (hc : Collected ctx .lr1 c) :
    (∃ m, c.node? p = some m ∧ P m.items.kernel m.items.closure) ↔
      p.number < (collection ctx .lr1).length ∧ P (kernelIn ctx .lr1 p) (closureIn ctx .lr1 p) := by
  constructor
  case mp =>
    rintro ⟨m, hm, hp⟩
    obtain ⟨hlt, hkernel⟩ := hc.kernel_eq hm
    have hclosure : m.items.closure = closureIn ctx .lr1 p := hc.closure_eq hm
    exact ⟨hlt, hkernel ▸ hclosure ▸ hp⟩
  case mpr =>
    rintro ⟨hlt, hp⟩
    obtain ⟨m, hm⟩ := Automaton.mem_liveStates.mp <| hc.mem_liveStates hlt
    have hkernel : m.items.kernel = kernelIn ctx .lr1 p := (hc.kernel_eq hm).right
    have hclosure : m.items.closure = closureIn ctx .lr1 p := hc.closure_eq hm
    exact ⟨m, hm, by rwa [hkernel, hclosure]⟩

theorem Collected.mem_liveStates_iff (hc : Collected ctx .lr1 c) :
    q ∈ c.liveStates ↔ q.number < (collection ctx .lr1).length := by
  refine ⟨fun hq => ?_, hc.mem_liveStates⟩
  obtain ⟨m, hm⟩ := Automaton.mem_liveStates.mp hq
  exact (hc.kernel_eq hm).left

namespace Merging

theorem not_sameKernel (hg : ctx.grammar.WellFormed) (h : Merging ctx a)
    (hn : a.node? p = some n) (hm : a.node? q = some m) (hne : p ≠ q)
    (hlt : p.number < q.number → coresAt ctx p ≠ coresAt ctx q)
    (hgt : q.number < p.number → coresAt ctx q ≠ coresAt ctx p) :
    ¬ SameKernel .lr0 n.items.kernel m.items.kernel := by
  rw [h.sameKernel_iff hg hn hm]
  have hnumber : p.number ≠ q.number := fun he => hne <| congrArg StateId.mk he
  exact (Nat.lt_or_gt_of_ne hnumber).elim hlt fun hqp => (hgt hqp).symm

theorem isUnited (hg : ctx.grammar.WellFormed) (hc : Collected ctx .lr1 c) (h : Merging ctx a)
    (hn : a.node? q = some n) : IsUnited ctx c a q n.items where
  cores := by
    obtain ⟨m, hm⟩ := mem_liveStates.mp <| hc.mem_liveStates_iff.mpr <| h.lt_length hn
    have hkernel : m.items.kernel = kernelIn ctx .lr1 q := (hc.kernel_eq hm).right
    have hclosure : m.items.closure = closureIn ctx .lr1 q := hc.closure_eq hm
    rw [(h.items hn).kernelCores, (h.items hn).closureCores, ← hkernel, ← hclosure]
    exact ⟨m, hm, rfl, rfl⟩
  nodup := (h.items hn).nodup_closure hg (h.isClass hn)
  kernel d t := by
    rw [(h.items hn).kernelCovers]
    refine exists_congr fun p => ?_
    rw [hc.exists_node?_iff (P := fun k _ => a.resolve p = q ∧ Covers k d t),
      h.isOrigin_iff_resolve (by simp [hn]), and_assoc]
  closure d t := by
    rw [(h.items hn).closureCovers]
    refine exists_congr fun p => ?_
    rw [hc.exists_node?_iff (P := fun _ k => a.resolve p = q ∧ Covers k d t),
      h.isOrigin_iff_resolve (by simp [hn]), and_assoc]
  closed := (h.items hn).closure_eq hg (h.isClass hn)
  isPrefix := (h.items hn).kernel_isPrefix hg (h.isClass hn)

theorem mergesExactly (hg : ctx.grammar.WellFormed) (hc : Collected ctx .lr1 c)
    (h : Merging ctx a) (hk : KeepsCores ctx a) : MergesExactly ctx c a where
  redirects := by
    intro p q hpq
    have hr := h.redirects hpq
    obtain ⟨m, hm⟩ := Option.isSome_iff_exists.mp hr.target
    have hn := Array.getElem?_eq_getElem (h.size ▸ hr.bound : p.number < a.nodes.size)
    have hm' := (node?_eq_some_iff.mp hm).left
    refine ⟨by simp [liveStates, hr.source], hr.lt, _, m, hn, hm', ?_⟩
    exact (hk.sameKernel hg hn hm' hr.bound <| h.lt_length hm).mpr hr.cores
  unique    := h.redirect_unique
  resolves  := by
    intro q hq
    refine ⟨h.isSome_resolve <| hc.mem_liveStates_iff.mp hq, ?_⟩
    cases h.resolve_cases q
    case inl hl => rw [hl.left]
    case inr hr => exact .single hr
  live      := by
    intro q hq
    obtain ⟨n, hn⟩ := mem_liveStates.mp hq
    exact ⟨hc.mem_liveStates_iff.mpr <| h.lt_length hn, h.resolve_eq_self hq⟩
  united    := h.isUnited hg hc
  cursor    := by
    intro p q n m hn hm hne hc
    have hp : (a.node? p).isSome := by simp [hn]
    have hq : (a.node? q).isSome := by simp [hm]
    exact h.not_sameKernel hg hn hm hne (h.cursor hp hq hc) fun hqp =>
      h.cursor hq hp (hqp.trans hc) hqp
  search    := by
    intro hnone p q n m hn hm hne
    have hp : (a.node? p).isSome := by simp [hn]
    have hq : (a.node? q).isSome := by simp [hm]
    exact h.not_sameKernel hg hn hm hne (h.cores_ne hg hnone hp hq) (h.cores_ne hg hnone hq hp)

end Merging

section Retargeting

theorem exists_of_node?_retargeted (hn : (retargeted a).node? q = some n) :
    ∃ m, a.node? q = some m ∧ n.items = m.items := by
  obtain ⟨m, hm, he⟩ := Option.map_eq_some_iff.mp (Merging.node?_retargeted ▸ hn)
  exact ⟨m, hm, he ▸ rfl⟩

theorem liveStates_retargeted : (retargeted a).liveStates = a.liveStates := by
  ext q
  simp [liveStates, Merging.node?_retargeted]

theorem MergesExactly.distinct (h : MergesExactly ctx c a) (hnone : a.mergeable? = none)
    (hn : (ShiftReduce.retargeted a).node? p = some n)
    (hm : (ShiftReduce.retargeted a).node? q = some m) (hne : p ≠ q) :
    ¬ SameKernel .lr0 n.items.kernel m.items.kernel := by
  obtain ⟨_, hn₀, he⟩ := exists_of_node?_retargeted hn
  obtain ⟨_, hm₀, he'⟩ := exists_of_node?_retargeted hm
  rw [he, he']
  exact h.search hnone hn₀ hm₀ hne

-- Only transitions are changed in the end.
theorem MergesExactly.retargeted (h : MergesExactly ctx c a) (hnone : a.mergeable? = none) :
    MergesExactly ctx c (retargeted a) := by
  have hlive := liveStates_retargeted (a := a)
  have hslot {j : Nat} {n : Node} (hn : a.nodes[j]? = some n) :
      ∃ m, (ShiftReduce.retargeted a).nodes[j]? = some m ∧ m.items = n.items := by
    simp [ShiftReduce.retargeted, hn]
  constructor
  case redirects =>
    intro p q hpq
    obtain ⟨hdead, hlt, n, m, hn, hm, hsame⟩ := h.redirects hpq
    obtain ⟨n', hn', he⟩ := hslot hn
    obtain ⟨m', hm', he'⟩ := hslot hm
    exact ⟨by rwa [hlive], hlt, n', m', hn', hm', by rwa [he, he']⟩
  case unique   => exact h.unique
  case resolves => exact hlive.symm ▸ h.resolves
  case live     => exact hlive.symm ▸ h.live
  case united =>
    intro q n hn
    obtain ⟨m, hm, he⟩ := exists_of_node?_retargeted hn
    -- States resolve as they did before.
    obtain ⟨hcores, hnodup, hkernel, hclosure, hclosed, hprefix⟩ := h.united hm
    rw [he]
    exact ⟨hcores, hnodup, hkernel, hclosure, hclosed, hprefix⟩
  case cursor   => exact fun hn hm hne _ => h.distinct hnone hn hm hne
  case search   => exact fun _ => h.distinct hnone

theorem Merging.isMergeOf (hg : ctx.grammar.WellFormed) (hc : Collected ctx .lr1 c)
    (h : Merging ctx a) (hm : a.mergeable? = none) (he : MergesExactly ctx c a) :
    IsMergeOf c (ShiftReduce.retargeted a) := by
  have hmerged := h.retargeted hg hm
  have hunites := hmerged.unites hg
  have htransition {p : StateId} (hp : p ∈ c.liveStates) (x : Symbol) :
      (ShiftReduce.retargeted a).transition? (a.resolve p) x =
        (c.transition? p x).map a.resolve := by
    have hlt := hc.mem_liveStates_iff.mp hp
    have hcanonical : c.transition? p x = _ := (hc.unites hg).transition?_eq hg hlt
    rw [h.resolve_eq hg hm hlt, hunites.transition?_eq hg hlt, hcanonical]
    split
    case isFalse    => rfl
    case isTrue hx  => exact congrArg some (h.resolve_eq hg hm <| targetIn_lt hg hlt hx).symm
  constructor
  case distinct =>
    intro p q n m hn hm' hsame
    by_contra hne
    exact he.distinct hm hn hm' hne hsame
  case connected =>
    intro q e hqe
    obtain ⟨n, hn, he⟩ := (mem_transitions_iff hmerged.cut).mp hqe
    exact ⟨mem_liveStates.mpr ⟨n, hn⟩, hmerged.isConnected hg _ _ hn e he⟩
  case transitions =>
    intro q hq x
    obtain ⟨hlive, hself⟩ := he.live q <| liveStates_retargeted ▸ hq
    have hq := htransition hlive x
    rwa [hself] at hq
  case merged =>
    intro q _ p hp hpq x
    exact hpq ▸ htransition hp x

end Retargeting

section Runs

-- A construction that has come to the merging of its states.
inductive HasMerged (ctx : Context) (a : Automaton) : Prop
  | merging : Merging.IsMerging ctx a → KeepsCores ctx a → HasMerged ctx a
  | retargeted (b : Automaton) :
    Merging ctx b → KeepsCores ctx b → b.mergeable? = none → a = retargeted b → HasMerged ctx a

namespace HasMerged

theorem enterState (hg : ctx.grammar.WellFormed) (h : Collected ctx .lalrByMerging a) :
    HasMerged ctx a.enterState := by
  refine .merging (isMerging_enterState hg h) ?_
  have henter : a.enterState = a.startMerging := by
    simp [Automaton.enterState, h.pointer, h.algorithm]
  rw [henter]
  exact h.keepsCores

theorem step (hg : ctx.grammar.WellFormed) (h : HasMerged ctx a) :
    HasMerged ctx (a.step ctx).1 := by
  cases h
  case merging h hk =>
    obtain ⟨_, _, m, b, done, _, _, hstep, hnodes, hb, _⟩ | ⟨_, hnone, done, hstep⟩ :=
      h.step_cases hg
    all_goals rw [hstep]
    case inl =>
      refine .merging hb ?_
      rw [KeepsCores, hnodes]
      exact hk.merge
    case inr => exact .retargeted a h.left hk hnone rfl
  case retargeted b h hk hnone he =>
    have hdone : a.IsDone := he ▸ rfl
    rw [step_of_isDone hdone]
    exact .retargeted b h hk hnone he

-- The states are merged once all of them have been found.
theorem iterate (hg : ctx.grammar.WellFormed) (k : Nat) :
    let a := (fun a => (a.step ctx).1)^[k] (initial ctx .lalrByMerging)
    Collecting ctx .lalrByMerging a ∨ HasMerged ctx a := by
  induction k
  case zero => exact .inl <| .init hg
  case succ k hi =>
    rw [Function.iterate_succ_apply']
    cases hi
    case inl h =>
      obtain ⟨_, _, b, done, hstep, hb⟩ := h.step hg
      rw [hstep]
      cases hb
      case inl hb =>
        obtain ⟨c, hc, rfl⟩ := hb
        exact .inr <| enterState hg hc
      case inr hb => exact .inl hb.left
    case inr h => exact .inr <| h.step hg

theorem mergesExactly (hg : ctx.grammar.WellFormed) (hc : Collected ctx .lr1 c)
    (h : HasMerged ctx a) : MergesExactly ctx c a ∧ (a.IsDone → IsMergeOf c a) := by
  cases h
  case merging h hk =>
    refine ⟨h.left.mergesExactly hg hc hk, fun hdone => ?_⟩
    have hphase : a.phase = .done := hdone
    simpa [hphase] using h.right
  case retargeted b h hk hnone he =>
    have hexact := h.mergesExactly hg hc hk
    rw [he]
    exact ⟨hexact.retargeted hnone, fun _ => h.isMergeOf hg hc hnone hexact⟩

end HasMerged
end Runs

-- Whatever operations have been called, from the first merge on every state is the exact union of
-- the canonical states that resolve to it.
theorem state_merging_exact (h : ctx.grammar.IsDefined) :
    ∃ c, Automaton.build ctx .lr1 = .ok c ∧ ∀ ops : List Operation,
      let a := ops.foldl (fun a op => (a.perform ctx op).1) (initial ctx .lalrByMerging)
      (a.phase = .mergeStates ∨ a.phase = .retarget ∨ a.phase = .done) →
        MergesExactly ctx c a ∧ (a.IsDone → IsMergeOf c a) := by
  have hg := h.wellFormed
  obtain ⟨c, hbuild, hc, _⟩ := exists_build hg .lr1
  refine ⟨c, hbuild, fun ops => ?_⟩
  obtain ⟨k, hk⟩ := exists_iterate_foldl_perform hg .lalrByMerging ops
  simp only [hk]
  intro hphase
  cases HasMerged.iterate hg k
  case inl hcollecting =>
    obtain he | he | he := hcollecting.phase_eq <;> simp [he] at hphase
  case inr hmerged => exact hmerged.mergesExactly hg hc.left

-- Two of three pairs have been merged after 26 steps, and everything has been done after 28.
theorem state_merging_exact_on_nesting : Grammar.nesting.IsDefined ∧
    ∃ c, Automaton.build (.ofGrammar .nesting) .lr1 = .ok c ∧
      let after (k : Nat) := (List.replicate k Operation.step).foldl
        (fun a op => (a.perform (.ofGrammar .nesting) op).1)
        (initial (.ofGrammar .nesting) .lalrByMerging)
      ((after 26).phase = .mergeStates ∧ (after 26).redirects = [(⟨4⟩, ⟨2⟩), (⟨6⟩, ⟨3⟩)] ∧
        MergesExactly (.ofGrammar .nesting) c (after 26)) ∧
      (after 28).IsDone ∧ IsMergeOf c (after 28) := by
  have h := Grammar.nesting_isDefined
  refine ⟨h, ?_⟩
  obtain ⟨c, hbuild, hmerged⟩ := @state_merging_exact (.ofGrammar .nesting) h
  refine ⟨c, hbuild, ?_⟩
  intro after
  have hmerging : (after 26).phase = .mergeStates := by decide +kernel
  have hdone : (after 28).IsDone := by decide +kernel
  refine ⟨⟨hmerging, by decide +kernel, (hmerged _ <| .inl hmerging).left⟩, hdone, ?_⟩
  exact (hmerged _ <| .inr <| .inr hdone).right hdone

end ShiftReduce
