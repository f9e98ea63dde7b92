import ShiftReduce.Proofs.Lalr.Survey

namespace ShiftReduce

open Exploration Automaton

variable {ctx : Context} {a b : Automaton} {source target r : KernelRef} {q : StateId} {k : Core}
  {t : Terminal} {lookaheads : TerminalSet} {targets : List KernelRef}
  {effects : List (KernelRef × List KernelRef)}

-- The second automaton knows a lookahead that the first one does not.
def Outgrows (b a : Automaton) : Prop :=
  ∃ q c t, Covers (b.kernelItems q) c t ∧ ¬ Covers (a.kernelItems q) c t

theorem mem_kernelLookaheads (hg : ctx.grammar.WellFormed) (h : IsShaped ctx a)
    (hr : IsRef ctx r k) : t ∈ a.kernelLookaheads r ↔ Covers (a.kernelItems r.state) k t := by
  have hlt : r.state.number < (collection ctx .lr0).length := by
    by_contra hge
    simp [IsRef, kernelIn, List.getElem?_eq_none (Nat.le_of_not_lt hge)] at hr
  have hn : ((a.kernelItems r.state).map Item.core).Nodup := by
    rw [h.cores]
    exact (isKernel_kernelIn hg hlt).nodup
  obtain ⟨i, hi, hik⟩ := Option.map_eq_some_iff.mp <| h.kernelItems_isRef hr
  obtain ⟨n, hn', _⟩ := h.getElem?_nodes hlt
  have hitems : a.kernelItems r.state = n.items.kernel := by simp [kernelItems, hn']
  rw [← hik, covers_iff_mem hn (List.mem_of_getElem? hi)]
  rw [hitems] at hi
  simp [kernelLookaheads, hn', hi]

theorem IsLink.isLookahead (hg : ctx.grammar.WellFormed) (h : IsLink ctx source target)
    (hk : IsRef ctx source k) (hl : IsLookahead ctx source.state k t) :
    ∃ d, IsRef ctx target d ∧ IsLookahead ctx target.state d t := by
  obtain ⟨c, d, x, hc, hd, hx, hstate, href⟩ := h.passes
  cases hk.symm.trans hc
  exact ⟨d.advance, href, hstate ▸ .shifted (.of_marked_passed hg hl hd) hx⟩

theorem IsLink.isRef (h : IsLink ctx source target) :
    (∃ k, IsRef ctx source k) ∧ ∃ d, IsRef ctx target d :=
  have ⟨c, d, _, hc, _, _, _, href⟩ := h.passes
  ⟨⟨c, hc⟩, ⟨d.advance, href⟩⟩

-- What comes of passing lookaheads on. If nothing has grown, nothing was left to pass on.
structure IsPassed (ctx : Context) (a : Automaton) (satisfied : Prop)
    (p : Automaton × List KernelRef) : Prop where
  sound     : IsSound ctx p.1
  advances  : Advances a p.1
  effects   : p.1.effects = a.effects
  unchanged : p.2 = [] → p.1 = a ∧ satisfied
  outgrows  : p.2 ≠ [] → Outgrows p.1 a

theorem Outgrows.of_advances {c : Automaton} (h : Outgrows b a) (h' : Advances b c) :
    Outgrows c a :=
  have ⟨q, k, t, hb, ha⟩ := h
  ⟨q, k, t, h'.covers _ _ _ hb, ha⟩

theorem passOn_spec (hg : ctx.grammar.WellFormed) (h : IsSound ctx a)
    (hk : IsRef ctx source k) (hl : ∀ t ∈ lookaheads, IsLookahead ctx source.state k t)
    (hlinks : ∀ target ∈ targets, IsLink ctx source target) :
    IsPassed ctx a (∀ target ∈ targets, lookaheads ⊆ a.kernelLookaheads target)
      (passOn lookaheads a targets) := by
  induction targets generalizing a
  case nil => exact ⟨h, .refl, rfl, fun _ => ⟨rfl, by simp⟩, fun h => absurd rfl h⟩
  case cons target targets hi =>
    obtain ⟨hlink, hlinks⟩ := List.forall_mem_cons.mp hlinks
    rw [passOn]
    split
    case isTrue hsub =>
      have p := hi h hlinks
      refine ⟨p.sound, p.advances, p.effects, fun hnil => ?_, p.outgrows⟩
      exact ⟨(p.unchanged hnil).left, List.forall_mem_cons.mpr ⟨hsub, (p.unchanged hnil).right⟩⟩
    case isFalse hsub =>
      obtain ⟨d, href⟩ := hlink.isRef.right
      have hgain : ∀ t ∈ lookaheads, IsLookahead ctx target.state d t := by
        intro t ht
        obtain ⟨d', href', hl'⟩ := hlink.isLookahead hg hk (hl t ht)
        cases href.symm.trans href'
        exact hl'
      have p := hi (h.gain href hgain) hlinks
      have hstep : Advances a (a.gain target lookaheads) := .gain h href
      refine ⟨p.sound, hstep.trans p.advances, p.effects, fun hnil => by simp at hnil, fun _ => ?_⟩
      obtain ⟨t, ht, hnew⟩ : ∃ t ∈ lookaheads, t ∉ a.kernelLookaheads target := by
        simpa [TerminalSet.subset_iff] using hsub
      refine Outgrows.of_advances ⟨target.state, d, t, ?_, ?_⟩ p.advances
      · exact (h.covers_gain href).mpr <| .inr ⟨rfl, rfl, ht⟩
      · exact mt (mem_kernelLookaheads hg h.toIsShaped href).mpr hnew

-- One after the other, the second of them works with what the first one leaves.
theorem IsPassed.append {p p' : Automaton × List KernelRef} {P Q : Prop} (h : IsPassed ctx a P p)
    (h' : IsPassed ctx p.1 Q p') : IsPassed ctx a (P ∧ Q) (p'.1, p.2 ++ p'.2) where
  sound     := h'.sound
  advances  := h.advances.trans h'.advances
  effects   := h'.effects.trans h.effects
  unchanged := by
    intro hnil
    obtain ⟨hnil, hnil'⟩ := List.append_eq_nil_iff.mp hnil
    obtain ⟨ha, hp⟩ := h.unchanged hnil
    obtain ⟨ha', hq⟩ := h'.unchanged hnil'
    exact ⟨ha'.trans ha, hp, hq⟩
  outgrows  := by
    intro hne
    by_cases hnil : p.2 = []
    case neg => exact (h.outgrows hnil).of_advances h'.advances
    case pos =>
      have hne' : p'.2 ≠ [] := fun hnil' => hne <| List.append_eq_nil_iff.mpr ⟨hnil, hnil'⟩
      exact (h.unchanged hnil).left ▸ h'.outgrows hne'

theorem passAllOn_spec (hg : ctx.grammar.WellFormed) (h : IsSound ctx a)
    (hlinks : ∀ s t, HasLink effects s t → IsLink ctx s t) :
    IsPassed ctx a (∀ s t, HasLink effects s t → a.kernelLookaheads s ⊆ a.kernelLookaheads t)
      (passAllOn a effects) := by
  induction effects generalizing a
  case nil => exact ⟨h, .refl, rfl, fun _ => ⟨rfl, by simp [HasLink]⟩, fun h => absurd rfl h⟩
  case cons e effects hi =>
    obtain ⟨source, targets⟩ := e
    have hsource : ∀ target ∈ targets, IsLink ctx source target :=
      fun t ht => hlinks _ _ <| hasLink_cons.mpr <| .inl ⟨rfl, ht⟩
    have p : IsPassed ctx a (∀ target ∈ targets, a.kernelLookaheads source ⊆
        a.kernelLookaheads target) (passOn (a.kernelLookaheads source) a targets) := by
      cases targets
      case nil => exact ⟨h, .refl, rfl, fun _ => ⟨rfl, by simp⟩, fun h => absurd rfl h⟩
      case cons target targets =>
        obtain ⟨k, hk⟩ := (hsource target <| .head _).isRef.left
        refine passOn_spec hg h hk (fun t ht => ?_) hsource
        exact h.lookaheads _ _ _ <| (mem_kernelLookaheads hg h.toIsShaped hk).mp ht
    have p' := hi p.sound fun s t hst => hlinks s t <| hasLink_cons.mpr <| .inr hst
    refine { p.append p' with unchanged := fun hnil => ?_ }
    obtain ⟨hsame, hall, hall'⟩ := (p.append p').unchanged hnil
    have hfirst := (p.unchanged (List.append_eq_nil_iff.mp hnil).left).left
    refine ⟨hsame, fun s t hst => ?_⟩
    cases hasLink_cons.mp hst
    case inl hst => exact hst.left ▸ hall t hst.right
    case inr hst => exact hfirst ▸ hall' s t hst

-- How much is known of the kernels.
def known (ctx : Context) (a : Automaton) : Finset (Nat × Core × Option Terminal) :=
  (Finset.range (collection ctx .lr0).length ×ˢ kernelMarks ctx.grammar).filter
    fun m => Has (a.kernelItems ⟨m.1⟩) m.2

theorem mem_known {m : Nat × Core × Option Terminal} : m ∈ known ctx a ↔
    (m.1 < (collection ctx .lr0).length ∧ m.2 ∈ kernelMarks ctx.grammar) ∧
      Has (a.kernelItems ⟨m.1⟩) m.2 := by
  rw [known, Finset.mem_filter, Finset.mem_product, Finset.mem_range]

-- A pass that lets some kernel item grow adds to what is known, so that this bounds the number of
-- passes.
theorem known_card_le (ctx : Context) (a : Automaton) :
    (known ctx a).card ≤ (collection ctx .lr0).length * (kernelMarks ctx.grammar).card := by
  refine (Finset.card_filter_le ..).trans ?_
  rw [Finset.card_product, Finset.card_range]

theorem isKernel_kernelItems (hg : ctx.grammar.WellFormed) (h : IsSound ctx a)
    (hq : q.number < (collection ctx .lr0).length) :
    IsKernel ctx.grammar .lr1 (a.kernelItems q) := by
  have hcores := h.cores q
  have k : IsKernel ctx.grammar .lr0 _ := isKernel_kernelIn hg hq
  have hmem {i : Item} (hi : i ∈ a.kernelItems q) : ∃ j ∈ kernelIn ctx .lr0 q, j.core = i.core :=
    List.mem_map.mp <| hcores ▸ List.mem_map_of_mem hi
  constructor
  case ne_nil =>
    intro hnil
    have := k.ne_nil
    simp_all
  case nodup =>
    rw [hcores]
    exact k.nodup
  case kinds => exact h.kinds q
  case rules =>
    intro i hi
    obtain ⟨j, hj, hji⟩ := hmem hi
    simpa [Item.rule, hji] using k.rules j hj
  case dots =>
    intro i hi
    obtain ⟨j, hj, hji⟩ := hmem hi
    simpa [Item.rule, hji] using k.dots j hj
  case free =>
    intro i hi
    obtain ⟨j, hj, hji⟩ := hmem hi
    simpa [Item.rule, hji] using k.free j hj
  case terminals => exact fun c t hc => (h.lookaheads q c t hc).mem_inputTerminals hg

theorem known_card_lt (hg : ctx.grammar.WellFormed) (h : IsSound ctx b) (ha : Advances a b)
    (ho : Outgrows b a) (hs : IsShaped ctx a) : (known ctx a).card < (known ctx b).card := by
  obtain ⟨q, c, t, hb, hn⟩ := ho
  refine Finset.card_lt_card <| Finset.ssubset_iff_of_subset ?_ |>.mpr
    ⟨(q.number, c, some t), ?_, ?_⟩
  · rintro ⟨j, c, t⟩ hm
    rw [mem_known] at hm ⊢
    obtain ⟨hm, hhas⟩ := hm
    refine ⟨hm, ?_⟩
    cases t
    case none =>
      have hhas : c ∈ (a.kernelItems ⟨j⟩).map Item.core := hhas
      show c ∈ (b.kernelItems ⟨j⟩).map Item.core
      rwa [h.cores, ← hs.cores]
    case some t => exact ha.covers _ _ _ hhas
  · have hq := ((h.lookaheads q c t hb).mem_closure hg).left
    rw [mem_known]
    refine ⟨⟨hq, ?_⟩, hb⟩
    exact (isKernel_kernelItems hg h hq).mem_kernelMarks (m := (c, some t)) hb
  · rw [mem_known]
    exact fun hm => hn hm.right

end ShiftReduce
