import ShiftReduce.Proofs.Closure.Exactness

namespace ShiftReduce

-- The calls that change a closure.
inductive ClosureCall
  | step
  | join
deriving DecidableEq

def ItemSet.perform (ctx : Context) (s : ItemSet) : ClosureCall → ItemSet
  | .step =>
    match s.closureStep ctx .lr1 with
    | .ok (s', _) => s'
    | .error _    => s
  | .join => s.mergeLookaheads.1

def ItemSet.afterCalls (ctx : Context) (kernel : List Item) (calls : List ClosureCall) : ItemSet :=
  calls.foldl (ItemSet.perform ctx) (.ofKernel ctx.grammar kernel)

-- A join does not change what has been expanded, or there is nothing left to expand.
def ItemSet.Spares (s : ItemSet) : Prop :=
  s.closed = true ∨ s.mergeLookaheads.1.closure.take s.searched = s.closure.take s.searched

instance (s : ItemSet) : Decidable s.Spares :=
  inferInstanceAs (Decidable (_ ∨ _))

-- The closure adds the lookahead to those of the kernel.
def Adds (ctx : Context) (kernel : List Item) (c : Core) (t : Terminal) : Prop :=
  LooksAhead ctx kernel c t ∧ ¬ Covers kernel c t

-- Items that can stand behind a kernel. One whose core is in the kernel adds to its lookaheads.
structure StandsBehind (ctx : Context) (kernel rest : List Item) : Prop where
  kinds     : ∀ i ∈ rest, i.kind = .lr1
  predicted : ∀ c ∈ rest.map Item.core, Predicted ctx.grammar (kernel.map Item.core) c
  adds      : ∀ c t, Covers rest c t → Adds ctx kernel c t
  fresh     : ∀ c ∈ rest.map Item.core, c ∈ kernel.map Item.core → ∃ t, Covers rest c t

-- What holds of an item set after any calls. A join leaves `searched` as it is, also if it removes
-- expanded items or gives them more lookaheads, so that another item can come to stand among the
-- expanded ones.
structure Interleaved (ctx : Context) (kernel : List Item) (s : ItemSet) : Prop where
  kernel_eq : s.kernel = kernel
  parts     : ∃ rest, s.closure = kernel ++ rest ∧ StandsBehind ctx kernel rest

-- What holds if every join spares what has been expanded.
structure PassesOn (ctx : Context) (kernel : List Item) (s : ItemSet) : Prop where
  expanded  : s.closed = false →
    ∀ i ∈ s.closure.take s.searched, ∀ j ∈ i.predictions ctx, IsPresent s.closure j
  saturated : s.closed = true → IsSaturated ctx kernel (lookaheadsOf? s.closure)

variable {ctx : Context} {kernel rest rest' xs : List Item} {s s' : ItemSet} {i item : Item}
  {c : Core} {t : Terminal} {call : ClosureCall} {calls : List ClosureCall}

theorem ItemSet.afterCalls_append : ItemSet.afterCalls ctx kernel (calls ++ [call]) =
    (ItemSet.afterCalls ctx kernel calls).perform ctx call := by
  simp [ItemSet.afterCalls]

namespace StandsBehind

theorem nil : StandsBehind ctx kernel [] where
  kinds     := by simp
  predicted := by simp
  adds      := by simp
  fresh     := by simp

theorem join (h : StandsBehind ctx kernel rest) : StandsBehind ctx kernel (joinByCore rest) := by
  obtain ⟨_, hkinds, hcovers⟩ := joinByCore_spec h.kinds
  constructor
  case kinds     => exact hkinds
  case predicted => exact fun c hc => h.predicted c <| (mem_map_core_joinByCore h.kinds).mp hc
  case adds      => exact fun c t hc => h.adds c t <| (hcovers c t).mp hc
  case fresh =>
    intro c hc hk
    obtain ⟨t, ht⟩ := h.fresh c ((mem_map_core_joinByCore h.kinds).mp hc) hk
    exact ⟨t, (hcovers c t).mpr ht⟩

-- An item that is found is trimmed to what it adds to the kernel and to the others.
theorem discover (h : StandsBehind ctx kernel rest) (hkind : item.kind = .lr1)
    (hp : Predicted ctx.grammar (kernel.map Item.core) item.core)
    (hl : ∀ t ∈ item.lookaheadSet, LooksAhead ctx kernel item.core t) :
    ∃ rest', (discover (kernel ++ rest) item).1 = kernel ++ rest' ∧
      StandsBehind ctx kernel rest' := by
  obtain ⟨hsame, _⟩ | ⟨trimmed, hadd, ht⟩ := discover_cases (kernel ++ rest) item
  case inl => exact ⟨rest, hsame, h⟩
  refine ⟨rest ++ [trimmed], by rw [hadd, List.append_assoc], ?_⟩
  constructor
  case kinds =>
    intro i hi
    cases List.mem_append.mp hi
    case inl hi => exact h.kinds i hi
    case inr hi => exact List.mem_singleton.mp hi ▸ ht.kind.trans hkind
  case predicted =>
    intro c hc
    rw [List.map_append] at hc
    cases List.mem_append.mp hc
    case inl hc => exact h.predicted c hc
    case inr hc => exact List.mem_singleton.mp hc ▸ ht.core ▸ hp
  case adds =>
    intro c t hc
    cases covers_append.mp hc
    case inl hc => exact h.adds c t hc
    case inr hc =>
      obtain ⟨rfl, hmem⟩ := covers_singleton.mp hc
      obtain ⟨hitem, hnew⟩ := (ht.mem t).mp hmem
      rw [ht.core]
      exact ⟨hl t hitem, fun hk => hnew <| covers_append.mpr <| .inl hk⟩
  case fresh =>
    intro c hc hk
    rw [List.map_append] at hc
    cases List.mem_append.mp hc
    case inl hc =>
      obtain ⟨t, hc⟩ := h.fresh c hc hk
      exact ⟨t, covers_append.mpr <| .inl hc⟩
    case inr hc =>
      have hcore : trimmed.core = c := (List.mem_singleton.mp hc).symm
      obtain ⟨t, hmem⟩ := ht.fresh <| by
        rw [← ht.core, hcore, List.map_append]
        exact List.mem_append_left _ hk
      exact ⟨t, covers_append.mpr <| .inr <| covers_singleton.mpr ⟨hcore, hmem⟩⟩

theorem discoverAll (h : StandsBehind ctx kernel rest) (hkinds : ∀ i ∈ xs, i.kind = .lr1)
    (hp : ∀ i ∈ xs, Predicted ctx.grammar (kernel.map Item.core) i.core)
    (hl : ∀ c t, Covers xs c t → LooksAhead ctx kernel c t) :
    ∃ rest', (discoverAll (kernel ++ rest) xs).1 = kernel ++ rest' ∧
      StandsBehind ctx kernel rest' := by
  induction xs generalizing rest
  case nil => exact ⟨rest, rfl, h⟩
  case cons x xs hi =>
    obtain ⟨hkind, hkinds⟩ := List.forall_mem_cons.mp hkinds
    obtain ⟨hpx, hp⟩ := List.forall_mem_cons.mp hp
    obtain ⟨found, heq, hfound⟩ := h.discover hkind hpx fun t ht => hl _ t ⟨x, .head _, rfl, ht⟩
    have hnext : (ShiftReduce.discoverAll (kernel ++ rest) (x :: xs)).1 =
        (ShiftReduce.discoverAll (ShiftReduce.discover (kernel ++ rest) x).1 xs).1 := rfl
    rw [hnext, heq]
    exact hi hfound hkinds hp fun c t hc => hl c t <| covers_cons.mpr <| .inr hc

theorem predicted_of_mem (h : StandsBehind ctx kernel rest) (hi : i ∈ kernel ++ rest) :
    Predicted ctx.grammar (kernel.map Item.core) i.core := by
  cases List.mem_append.mp hi
  case inl hi => exact .start <| List.mem_map_of_mem hi
  case inr hi => exact h.predicted _ <| List.mem_map_of_mem hi

theorem looksAhead_of_covers (h : StandsBehind ctx kernel rest) (hc : Covers (kernel ++ rest) c t) :
    LooksAhead ctx kernel c t := by
  cases covers_append.mp hc
  case inl hc => exact .kernel hc
  case inr hc => exact (h.adds c t hc).left

-- The expansion of an item puts its predictions behind the kernel.
theorem expand (h : StandsBehind ctx kernel rest) (hi : i ∈ kernel ++ rest)
    (hkind : i.kind = .lr1) :
    ∃ rest', (ShiftReduce.discoverAll (kernel ++ rest) (i.predictions ctx)).1 = kernel ++ rest' ∧
      StandsBehind ctx kernel rest' := by
  refine h.discoverAll ?_ ?_ ?_
  · exact fun j hj => (kind_of_mem_predictions hj).trans hkind
  · intro j hj
    refine .step (h.predicted_of_mem hi) ?_
    exact map_core_predictions ▸ List.mem_map_of_mem hj
  · intro d t hc
    obtain ⟨hd, lookaheads, hl, ht⟩ := covers_predictions.mp hc
    cases FirstSets.mem_ofSeq.mp ht
    case inl hg => exact .generated (h.predicted_of_mem hi) hd hg
    case inr hn =>
      have hcovers : Covers (kernel ++ rest) i.core t :=
        ⟨i, hi, rfl, by simpa [Item.lookaheadSet, hl] using hn.right⟩
      exact .passed (h.looksAhead_of_covers hcovers) hd hn.left

section Saturated

variable (h : StandsBehind ctx kernel rest)
  (hs : IsSaturated ctx kernel (lookaheadsOf? <| kernel ++ rest))

include h hs

theorem covers_iff_adds : Covers rest c t ↔ Adds ctx kernel c t := by
  refine ⟨h.adds c t, fun ⟨hl, hk⟩ => ?_⟩
  obtain ⟨s, hs, ht⟩ := hs.grants_of_looksAhead hl
  have hcovers := ((lookaheadsOf?_eq_some_iff.mp hs).right t).mp ht
  exact (covers_append.mp hcovers).resolve_left hk

theorem mem_map_core_iff : c ∈ rest.map Item.core ↔
    Predicted ctx.grammar (kernel.map Item.core) c ∧
      (c ∈ kernel.map Item.core → ∃ t, Adds ctx kernel c t) := by
  constructor
  case mp =>
    refine fun hc => ⟨h.predicted c hc, fun hk => ?_⟩
    obtain ⟨t, ht⟩ := h.fresh c hc hk
    exact ⟨t, h.adds c t ht⟩
  case mpr =>
    rintro ⟨hp, hfresh⟩
    by_cases hk : c ∈ kernel.map Item.core
    case pos =>
      obtain ⟨t, ht⟩ := hfresh hk
      exact ((h.covers_iff_adds hs).mpr ht).mem_map_core
    case neg =>
      obtain ⟨hc, _⟩ := grants_lookaheadsOf?_iff.mp <| hs.grants_of_predicted hp
      rw [List.map_append] at hc
      exact (List.mem_append.mp hc).resolve_left hk

theorem mem_lookaheadSet_iff (hi : i ∈ joinByCore rest) :
    t ∈ i.lookaheadSet ↔ Adds ctx kernel i.core t := by
  obtain ⟨_, _, hcovers⟩ := joinByCore_spec h.kinds
  rw [← covers_iff_mem (nodup_map_core_joinByCore h.kinds) hi, hcovers, h.covers_iff_adds hs]

-- Whatever can stand behind the kernel is among the items that have everything.
theorem exists_subset (h' : StandsBehind ctx kernel rest') (hi : i ∈ rest') :
    ∃ j ∈ joinByCore rest, j.core = i.core ∧ i.lookaheadSet ⊆ j.lookaheadSet := by
  have hc : i.core ∈ rest'.map Item.core := List.mem_map_of_mem hi
  have hwanted : i.core ∈ (joinByCore rest).map Item.core := by
    rw [mem_map_core_joinByCore h.kinds, h.mem_map_core_iff hs]
    refine ⟨h'.predicted _ hc, fun hk => ?_⟩
    obtain ⟨t, ht⟩ := h'.fresh _ hc hk
    exact ⟨t, h'.adds _ t ht⟩
  obtain ⟨j, hj, hji⟩ := List.mem_map.mp hwanted
  refine ⟨j, hj, hji, TerminalSet.subset_iff.mpr fun t ht => ?_⟩
  rw [h.mem_lookaheadSet_iff hs hj, hji]
  exact h'.adds _ t ⟨i, hi, rfl, ht⟩

-- If both have everything, then they have the same items.
theorem mem_joinByCore (h' : StandsBehind ctx kernel rest')
    (hs' : IsSaturated ctx kernel (lookaheadsOf? <| kernel ++ rest'))
    (hi : i ∈ joinByCore rest') : i ∈ joinByCore rest := by
  obtain ⟨j, hj, hji, _⟩ := h.exists_subset hs h'.join hi
  have heq : j = i := by
    refine eq_of_core_eq_of_mem_iff (h.join.kinds j hj) (h'.join.kinds i hi) hji fun t => ?_
    rw [h.mem_lookaheadSet_iff hs hj, h'.mem_lookaheadSet_iff hs' hi, hji]
  exact heq ▸ hj

end Saturated

-- Next to items that have everything, others have everything if and only if they are the same.
theorem perm_iff (h : StandsBehind ctx kernel rest) (h' : StandsBehind ctx kernel rest')
    (hs' : IsSaturated ctx kernel (lookaheadsOf? <| kernel ++ rest')) :
    (joinByCore rest).Perm (joinByCore rest') ↔
      IsSaturated ctx kernel (lookaheadsOf? <| kernel ++ rest) := by
  constructor
  case mp =>
    intro hperm
    have hmem {i : Item} := (hperm.append_left kernel).mem_iff (a := i)
    have hfamily : lookaheadsOf? (kernel ++ rest) = lookaheadsOf? (kernel ++ rest') := by
      rw [← lookaheadsOf?_joinByCore h.kinds, ← lookaheadsOf?_joinByCore h'.kinds]
      refine lookaheadsOf?_congr (fun c => ?_) fun c t => ?_
      · simp only [List.mem_map, hmem]
      · simp only [Covers, hmem]
    exact hfamily ▸ hs'
  case mpr =>
    intro hs
    have hnodup {xs : List Item} (h : StandsBehind ctx kernel xs) : (joinByCore xs).Nodup :=
      .of_map _ <| nodup_map_core_joinByCore h.kinds
    refine (List.perm_ext_iff_of_nodup (hnodup h) (hnodup h')).mpr fun i => ?_
    exact ⟨h'.mem_joinByCore hs' h hs, h.mem_joinByCore hs h' hs'⟩

end StandsBehind

namespace Interleaved

theorem init : Interleaved ctx kernel (.ofKernel ctx.grammar kernel) where
  kernel_eq := by simp
  parts     := ⟨[], by simp, .nil⟩

theorem kinds (h : Interleaved ctx kernel s) (hk : ∀ i ∈ kernel, i.kind = .lr1) :
    ∀ i ∈ s.closure, i.kind = .lr1 := by
  obtain ⟨rest, hrest, hbehind⟩ := h.parts
  rw [hrest]
  exact List.forall_mem_append.mpr ⟨hk, hbehind.kinds⟩

theorem join (h : Interleaved ctx kernel s) : Interleaved ctx kernel s.mergeLookaheads.1 := by
  obtain ⟨rest, hrest, hbehind⟩ := h.parts
  exact ⟨h.kernel_eq, joinByCore rest, mergeLookaheads_closure_eq h.kernel_eq hrest, hbehind.join⟩

theorem step {step : ClosureStep} (h : Interleaved ctx kernel s)
    (hstep : s.closureStep ctx .lr1 = .ok (s', step)) : Interleaved ctx kernel s' := by
  obtain ⟨rfl, _⟩ | ⟨i, hi, hkind, hclosure, _, _, _, _, hkernel, _⟩ := closureStep_cases hstep
  case inl => exact ⟨h.kernel_eq, h.parts⟩
  case inr =>
    obtain ⟨rest, hrest, hbehind⟩ := h.parts
    have hmem : i ∈ kernel ++ rest := hrest ▸ List.mem_of_getElem? hi
    obtain ⟨found, hfound, hbehind'⟩ := hbehind.expand hmem hkind
    exact ⟨hkernel.trans h.kernel_eq, found, by rw [hclosure, hrest, hfound], hbehind'⟩

theorem perform (h : Interleaved ctx kernel s) : Interleaved ctx kernel (s.perform ctx call) := by
  cases call
  case join => exact h.join
  case step =>
    rw [ItemSet.perform]
    split
    case h_1 hstep => exact h.step hstep
    case h_2       => exact h

theorem afterCalls : Interleaved ctx kernel (.afterCalls ctx kernel calls) := by
  induction calls using List.reverseRecOn
  case nil                    => exact init
  case append_singleton _ _ h => exact ItemSet.afterCalls_append ▸ h.perform

-- There is no item that a step could refuse.
theorem exists_step (h : Interleaved ctx kernel s) (hk : ∀ i ∈ kernel, i.kind = .lr1) :
    ∃ s' step, s.closureStep ctx .lr1 = .ok (s', step) := by
  unfold ItemSet.closureStep
  split
  case isTrue => exact ⟨_, _, rfl⟩
  case isFalse =>
    split
    case h_1 => exact ⟨_, _, rfl⟩
    case h_2 i hi =>
      rw [if_neg (not_not.mpr <| h.kinds hk i <| List.mem_of_getElem? hi)]
      exact ⟨_, _, rfl⟩

end Interleaved

namespace PassesOn

theorem of_expanded (h : Interleaved ctx kernel s) (hk : ∀ i ∈ kernel, i.kind = .lr1)
    (hx : ∀ i ∈ s.closure.take s.searched, ∀ j ∈ i.predictions ctx, IsPresent s.closure j)
    (hclosed : s.closed = true → s.closure.length ≤ s.searched) : PassesOn ctx kernel s where
  expanded _ := hx
  saturated hs := by
    obtain ⟨rest, hrest, _⟩ := h.parts
    rw [List.take_of_length_le <| hclosed hs] at hx
    refine isSaturated_of_expanded ?_ (h.kinds hk) hx
    exact hrest ▸ List.subset_append_left ..

theorem init (hk : ∀ i ∈ kernel, i.kind = .lr1) :
    PassesOn ctx kernel (.ofKernel ctx.grammar kernel) := by
  have cl : Closing ctx .lr1 kernel (.ofKernel ctx.grammar kernel) := .init hk
  exact .of_expanded .init hk cl.expanded cl.closed_iff.mp

theorem step {step : ClosureStep} (h : PassesOn ctx kernel s) (hs : Interleaved ctx kernel s)
    (hk : ∀ i ∈ kernel, i.kind = .lr1) (hstep : s.closureStep ctx .lr1 = .ok (s', step)) :
    PassesOn ctx kernel s' := by
  have hs' := hs.step hstep
  obtain ⟨rfl, hclosed⟩ | ⟨i, hi, _, hclosure, hsearched, _, _, hopen, _, hclosed⟩ :=
    closureStep_cases hstep
  case inl =>
    cases hopen : s.closed
    case true  => exact ⟨by simp, fun _ => h.saturated hopen⟩
    case false =>
      have hlength : s.closure.length ≤ s.searched := by simpa [hopen] using hclosed
      exact .of_expanded hs' hk (h.expanded hopen) fun _ => hlength
  case inr =>
    have hext : Extends s.closure (i.predictions ctx) s'.closure := hclosure ▸ discoverAll_extends
    refine .of_expanded hs' hk ?_ hclosed.mp
    rw [hsearched]
    exact hext.expanded hi (h.expanded hopen)

-- A join moves no lookahead away from its core. What has been expanded stays so if it is spared.
theorem join (h : PassesOn ctx kernel s) (hs : Interleaved ctx kernel s) (hspares : s.Spares) :
    PassesOn ctx kernel s.mergeLookaheads.1 := by
  obtain ⟨rest, hrest, hbehind⟩ := hs.parts
  obtain ⟨_, _, hcovers⟩ := joinByCore_spec hbehind.kinds
  have hclosure : s.mergeLookaheads.1.closure = kernel ++ joinByCore rest :=
    mergeLookaheads_closure_eq hs.kernel_eq hrest
  constructor
  case saturated =>
    intro hclosed
    rw [hclosure, lookaheadsOf?_joinByCore hbehind.kinds, ← hrest]
    exact h.saturated hclosed
  case expanded =>
    intro hopen
    have hopen : s.closed = false := hopen
    have hsearched : s.mergeLookaheads.1.searched = s.searched := by
      simp [ItemSet.mergeLookaheads, hopen]
    have htake := hspares.resolve_left (by simp [hopen])
    rw [hsearched, htake]
    intro i hi j hj
    have hp := h.expanded hopen i hi j hj
    rw [hrest] at hp
    rw [hclosure]
    refine ⟨?_, fun t ht => ?_⟩
    · have hc := hp.core
      rw [List.map_append, List.mem_append] at hc ⊢
      exact hc.imp_right (mem_map_core_joinByCore hbehind.kinds).mpr
    · have hc := hp.covers t ht
      rw [covers_append] at hc ⊢
      exact hc.imp_right (hcovers _ _).mpr

theorem perform (h : PassesOn ctx kernel s) (hs : Interleaved ctx kernel s)
    (hk : ∀ i ∈ kernel, i.kind = .lr1) (hspares : call = .join → s.Spares) :
    PassesOn ctx kernel (s.perform ctx call) := by
  cases call
  case join => exact h.join hs (hspares rfl)
  case step =>
    rw [ItemSet.perform]
    split
    case h_1 hstep => exact h.step hs hk hstep
    case h_2       => exact h

theorem afterCalls (hk : ∀ i ∈ kernel, i.kind = .lr1) (hspares : ∀ n, calls[n]? = some .join →
    (ItemSet.afterCalls ctx kernel <| calls.take n).Spares) :
    PassesOn ctx kernel (.afterCalls ctx kernel calls) := by
  induction calls using List.reverseRecOn
  case nil => exact init hk
  case append_singleton calls call hi =>
    have hbefore : PassesOn ctx kernel (.afterCalls ctx kernel calls) := by
      refine hi fun n hn => ?_
      have hlt : n < calls.length := (List.getElem?_eq_some_iff.mp hn).choose
      rw [← List.take_append_of_le_length hlt.le]
      exact hspares n <| (List.getElem?_append_left hlt).trans hn
    rw [ItemSet.afterCalls_append]
    refine hbefore.perform .afterCalls hk ?_
    rintro rfl
    simpa using hspares calls.length (by simp)

end PassesOn

-- For every kernel of LR(1) items, and after any closure steps and joins. No step fails. A last
-- join leaves items behind the kernel that are all part of the complete closure, and they are all
-- of it if and only if no item misses what another one predicts. None does if the steps went on to
-- the end and no join changed what had been expanded before it.
theorem interleaved_closure_exact (h : ctx.grammar.IsDefined) (hk : ∀ i ∈ kernel, i.kind = .lr1) :
    ∃ s₀ steps complete,
      (ItemSet.ofKernel ctx.grammar kernel).computeClosure ctx .lr1 = (s₀, .ok steps) ∧
      s₀.closed = true ∧ s₀.mergeLookaheads.1.closure = kernel ++ complete ∧
      ∀ calls : List ClosureCall,
        let s := ItemSet.afterCalls ctx kernel calls
        (∃ s' step, s.closureStep ctx .lr1 = .ok (s', step)) ∧
        ∃ joined, s.mergeLookaheads.1.closure = kernel ++ joined ∧
          (∀ i ∈ joined, ∃ j ∈ complete, j.core = i.core ∧ i.lookaheadSet ⊆ j.lookaheadSet) ∧
          (joined.Perm complete ↔ IsSaturated ctx kernel (lookaheadsOf? s.closure)) ∧
          (s.closed = true → (∀ n, calls[n]? = some .join →
            (ItemSet.afterCalls ctx kernel <| calls.take n).Spares) → joined.Perm complete) := by
  obtain ⟨s₀, steps, hrun, cl, hclosed⟩ := computeClosure_ofKernel h.wellFormed hk
  have hs₀ : Interleaved ctx kernel s₀ := by
    have hall : Interleaved ctx kernel
        ((ItemSet.ofKernel ctx.grammar kernel).computeClosure ctx .lr1).1 :=
      computeClosureFor_induction Interleaved.step .init _
    rwa [hrun] at hall
  obtain ⟨rest₀, hrest₀, hbehind₀⟩ := hs₀.parts
  have hsaturated₀ := (cl.isLeastSaturated hclosed).left
  rw [hrest₀] at hsaturated₀
  refine ⟨s₀, steps, joinByCore rest₀, hrun, hclosed,
    mergeLookaheads_closure_eq hs₀.kernel_eq hrest₀, fun calls => ?_⟩
  intro s
  have hs : Interleaved ctx kernel s := .afterCalls
  obtain ⟨rest, hrest, hbehind⟩ := hs.parts
  have hiff := hbehind.perm_iff hbehind₀ hsaturated₀
  rw [← hrest] at hiff
  refine ⟨hs.exists_step hk, joinByCore rest, mergeLookaheads_closure_eq hs.kernel_eq hrest, ?_,
    hiff, ?_⟩
  · exact fun i hi => hbehind₀.exists_subset hsaturated₀ hbehind.join hi
  · exact fun hclosed hspares => hiff.mpr <| (PassesOn.afterCalls hk hspares).saturated hclosed

section Chained

namespace Grammar

-- The grammar `S → B b | B c`, `B → D`, `D → E`, `E → e`.
def chainedCalls : List Draft.Call :=
  [.terminal "b", .terminal "c", .terminal "e", .nonterminal "S", .nonterminal "B",
    .nonterminal "D", .nonterminal "E",
    .rule ⟨1⟩ [.nonterminal ⟨2⟩, .terminal ⟨2⟩] none,
    .rule ⟨1⟩ [.nonterminal ⟨2⟩, .terminal ⟨3⟩] none,
    .rule ⟨2⟩ [.nonterminal ⟨3⟩] none, .rule ⟨3⟩ [.nonterminal ⟨4⟩] none,
    .rule ⟨4⟩ [.terminal ⟨4⟩] none]

def chained : Grammar where
  vocabulary := (Draft.afterCalls chainedCalls).vocabulary
  rules      := #[⟨.accept, [.nonterminal ⟨1⟩], 0, 0⟩] ++ (Draft.afterCalls chainedCalls).rules
  start      := ⟨1⟩

theorem chained_isDefined : chained.IsDefined :=
  ⟨chainedCalls, by cbv⟩

end Grammar

-- A join after three steps finds `B → · D` twice, both times not expanded.
def earlyJoin : List ClosureCall :=
  .replicate 3 .step ++ .join :: .replicate 3 .step

-- After five steps both have been expanded, and each has added an item that comes next.
def lateJoin : List ClosureCall :=
  .replicate 5 .step ++ .join :: .replicate 1 .step

theorem interleaved_closure_exact_on_chained : Grammar.chained.IsDefined ∧
    let ctx := Context.ofGrammar .chained
    let kernel := [Item.start .lr1]
    (∀ i ∈ kernel, i.kind = .lr1) ∧
      let s := ItemSet.afterCalls ctx kernel earlyJoin
      s.closed = true ∧ ∃ s₀ steps joined complete,
        (ItemSet.ofKernel ctx.grammar kernel).computeClosure ctx .lr1 = (s₀, .ok steps) ∧
        s.mergeLookaheads.1.closure = kernel ++ joined ∧
        s₀.mergeLookaheads.1.closure = kernel ++ complete ∧ joined.Perm complete := by
  refine ⟨Grammar.chained_isDefined, ?_⟩
  intro ctx kernel
  have hk : ∀ i ∈ kernel, i.kind = .lr1 := by decide
  obtain ⟨s₀, steps, complete, hrun, _, hcomplete, hexact⟩ :=
    @interleaved_closure_exact ctx kernel Grammar.chained_isDefined hk
  obtain ⟨_, joined, hjoined, _, _, hperm⟩ := hexact earlyJoin
  have hclosed : (ItemSet.afterCalls ctx kernel earlyJoin).closed = true := by decide +kernel
  have hspares : ∀ n < earlyJoin.length, earlyJoin[n]? = some .join →
      (ItemSet.afterCalls ctx kernel <| earlyJoin.take n).Spares := by decide +kernel
  refine ⟨hk, hclosed, s₀, steps, joined, complete, hrun, hjoined, hcomplete, hperm hclosed ?_⟩
  exact fun n hn => hspares n (List.getElem?_eq_some_iff.mp hn).choose hn

-- The join removes an expanded item, so that the first item behind counts as expanded. It is the
-- only one that predicts the rule of `E`.
theorem interleaved_closure_misses_item_on_chained : Grammar.chained.IsDefined ∧
    let ctx := Context.ofGrammar .chained
    let kernel := [Item.start .lr1]
    let s := ItemSet.afterCalls ctx kernel lateJoin
    let s₀ := ((ItemSet.ofKernel ctx.grammar kernel).computeClosure ctx .lr1).1
    s.closed = true ∧ s₀.closed = true ∧
      ⟨⟨5⟩, 0⟩ ∉ s.mergeLookaheads.1.closure.map Item.core ∧
      ⟨⟨5⟩, 0⟩ ∈ s₀.mergeLookaheads.1.closure.map Item.core :=
  ⟨Grammar.chained_isDefined, by decide +kernel⟩

end Chained
end ShiftReduce
