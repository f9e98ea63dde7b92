import Mathlib.Data.List.Chain
import Mathlib.Data.List.Perm.Lattice
import ShiftReduce.Proofs.Construction.Coherence
import ShiftReduce.Proofs.Table.Entries

namespace ShiftReduce

open Exploration Automaton

namespace Entry

def IsShift (e : Entry) : Prop :=
  ∃ q, e.action = .shift q

def Outranks (g : Grammar) (a b : Entry) : Prop :=
  rank g a b = .lt

-- The tie-breaks that do not look at the left side: shifts first, then the lower rule.
def Precedes (g : Grammar) (a b : Entry) : Prop :=
  (TieBreak.shiftOverReduce.compare g a b).then (TieBreak.lowestRule.compare g a b) = .lt

end Entry

-- The policy is not transitive, since the order of declaration counts only between rules for one
-- nonterminal. A knot is made of two entries for one nonterminal, the later declared of which comes
-- first, and of an entry for another nonterminal that the rest of the policy puts between them, the
-- other way round.
structure IsKnot (g : Grammar) (a b c : Entry) : Prop where
  priority_eq : (g.rule a.rule).priority = (g.rule b.rule).priority
  priority_eq' : (g.rule b.rule).priority = (g.rule c.rule).priority
  left_eq : (g.rule a.rule).left = (g.rule b.rule).left
  left_ne : (g.rule c.rule).left ≠ (g.rule a.rule).left
  order_lt : (g.rule b.rule).order < (g.rule a.rule).order
  precedes : b.Precedes g c
  precedes' : c.Precedes g a

def HasKnot (g : Grammar) (cell : List Entry) : Prop :=
  ∃ a ∈ cell, ∃ b ∈ cell, ∃ c ∈ cell, IsKnot g a b c

-- Entries that can stand in one cell.
structure Compatible (entries : List Entry) : Prop where
  shifts : ∀ e ∈ entries, ∀ e' ∈ entries, e.IsShift → e'.IsShift → e = e'
  rules  : ∀ e ∈ entries, ¬ e.IsShift →
    e = ⟨.accept, .accept⟩ ∨ e.action = .reduce e.rule ∧ e.rule ≠ .accept
  alone  : ∀ e ∈ entries, ∀ e' ∈ entries, e.IsShift → e'.action ≠ .accept

variable {g : Grammar} {entries entries' cell : List Entry} {a b c e entry : Entry}

section Policy

theorem outranks_iff : a.Outranks g b ↔
    (g.rule b.rule).priority < (g.rule a.rule).priority ∨
    (g.rule b.rule).priority = (g.rule a.rule).priority ∧
      ((g.rule a.rule).left = (g.rule b.rule).left ∧
          (g.rule b.rule).order < (g.rule a.rule).order ∨
        ((g.rule a.rule).left = (g.rule b.rule).left →
          (g.rule b.rule).order = (g.rule a.rule).order) ∧ a.Precedes g b) := by
  have hrank : rank g a b = (TieBreak.priority.compare g a b).then
      ((TieBreak.order.compare g a b).then ((TieBreak.shiftOverReduce.compare g a b).then
        (TieBreak.lowestRule.compare g a b))) := by
    simp [rank, policy]
  rw [Entry.Outranks, hrank, Ordering.then_eq_lt, Ordering.then_eq_lt, ← Entry.Precedes]
  simp only [TieBreak.compare, compare_lt_iff_lt, compare_eq_iff_eq]
  refine or_congr_right <| and_congr_right fun hp => ?_
  by_cases hl : (g.rule a.rule).left = (g.rule b.rule).left
  case pos => simp [hl, hp, compare_lt_iff_lt]
  case neg => simp [hl]

-- The place of an entry among the shifts and the completions.
def Entry.weight (e : Entry) : Nat :=
  match e.action with
  | .shift _ => 0
  | _        => 1

theorem Entry.weight_of_isShift (h : e.IsShift) : e.weight = 0 := by
  obtain ⟨_, hq⟩ := h
  simp [weight, hq]

namespace Compatible

theorem cases (h : Compatible entries) (he : e ∈ entries) : (e.IsShift ∧ e.weight = 0) ∨
    (e.weight = 1 ∧ (e = ⟨.accept, .accept⟩ ∨ e.action = .reduce e.rule ∧ e.rule ≠ .accept)) := by
  by_cases hs : e.IsShift
  case pos => exact .inl ⟨hs, Entry.weight_of_isShift hs⟩
  case neg =>
    have hrule := h.rules e he hs
    refine .inr ⟨?_, hrule⟩
    cases hrule
    case inl hr => rw [hr, Entry.weight]
    case inr hr => rw [Entry.weight, hr.left]

theorem precedes_iff (h : Compatible entries) (ha : a ∈ entries) (hb : b ∈ entries) :
    a.Precedes g b ↔ a.weight < b.weight ∨ a.weight = b.weight ∧ a.rule.number < b.rule.number := by
  have hcompare : TieBreak.shiftOverReduce.compare g a b = compare a.weight b.weight := by
    cases h.cases ha
    case inl hsa =>
      obtain ⟨⟨p, hp⟩, hwa⟩ := hsa
      cases h.cases hb
      case inl hsb =>
        obtain ⟨⟨q, hq⟩, hwb⟩ := hsb
        simp [TieBreak.compare, hp, hq, hwa, hwb]
      case inr hsb =>
        obtain ⟨hwb, hrule⟩ := hsb
        have hne := h.alone a ha b hb ⟨p, hp⟩
        have hq := hrule.resolve_left fun he => hne <| he ▸ rfl
        simp only [TieBreak.compare, hp, hq.left, hwa, hwb]
        rfl
    case inr hsa =>
      obtain ⟨hwa, hrule⟩ := hsa
      cases h.cases hb
      case inl hsb =>
        obtain ⟨⟨q, hq⟩, hwb⟩ := hsb
        have hne := h.alone b hb a ha ⟨q, hq⟩
        have hp := hrule.resolve_left fun he => hne <| he ▸ rfl
        simp only [TieBreak.compare, hp.left, hq, hwa, hwb]
        rfl
      case inr hsb =>
        obtain ⟨hwb, hrule'⟩ := hsb
        cases hrule <;> cases hrule' <;> simp_all [TieBreak.compare]
  rw [Entry.Precedes, hcompare, Ordering.then_eq_lt, compare_lt_iff_lt, compare_eq_iff_eq,
    TieBreak.compare, compare_lt_iff_lt]

theorem eq_of_weight_eq (h : Compatible entries) (ha : a ∈ entries) (hb : b ∈ entries)
    (hw : a.weight = b.weight) (hr : a.rule = b.rule) : a = b := by
  cases h.cases ha
  case inl hsa =>
    cases h.cases hb
    case inl hsb => exact h.shifts a ha b hb hsa.left hsb.left
    case inr hsb => simp [hsa.right, hsb.left] at hw
  case inr hsa =>
    cases h.cases hb
    case inl hsb => simp [hsa.left, hsb.right] at hw
    case inr hsb =>
      obtain ⟨_, _⟩ := a
      obtain ⟨_, _⟩ := b
      cases hsa.right <;> cases hsb.right <;> simp_all

-- An entry is told by its action.
theorem eq_of_action_eq (h : Compatible entries) (ha : a ∈ entries) (hb : b ∈ entries)
    (hact : a.action = b.action) : a = b := by
  have hw : a.weight = b.weight := by rw [Entry.weight, hact, Entry.weight]
  cases h.cases ha
  case inl hsa =>
    obtain ⟨q, hq⟩ := hsa.left
    exact h.shifts a ha b hb hsa.left ⟨q, hact ▸ hq⟩
  case inr hsa =>
    cases h.cases hb
    case inl hsb => simp [hsa.left, hsb.right] at hw
    case inr hsb =>
      obtain ⟨_, _⟩ := a
      obtain ⟨_, _⟩ := b
      cases hsa.right <;> cases hsb.right <;> simp_all

theorem trichotomy (h : Compatible entries) (ha : a ∈ entries) (hb : b ∈ entries) :
    a.Outranks g b ∨ b.Outranks g a ∨ a = b := by
  by_cases he : a.weight = b.weight ∧ a.rule.number = b.rule.number
  case pos => exact .inr <| .inr <| h.eq_of_weight_eq ha hb he.left <| congrArg RuleId.mk he.right
  case neg =>
    rw [outranks_iff, outranks_iff, h.precedes_iff ha hb, h.precedes_iff hb ha]
    have hl : (g.rule a.rule).left = (g.rule b.rule).left ↔
        (g.rule b.rule).left = (g.rule a.rule).left := eq_comm
    grind

theorem asymm (h : Compatible entries) (ha : a ∈ entries) (hb : b ∈ entries)
    (hab : a.Outranks g b) : ¬ b.Outranks g a := by
  rw [outranks_iff, h.precedes_iff ha hb] at hab
  rw [outranks_iff, h.precedes_iff hb ha]
  grind

-- Three entries that outrank each other in a circle are a knot.
theorem isKnot_of_circle (h : Compatible entries) (ha : a ∈ entries) (hb : b ∈ entries)
    (hc : c ∈ entries) (hab : a.Outranks g b) (hbc : b.Outranks g c) (hca : c.Outranks g a) :
    HasKnot g entries := by
  suffices hknot : IsKnot g a b c ∨ IsKnot g b c a ∨ IsKnot g c a b by
    cases hknot
    case inl hk => exact ⟨a, ha, b, hb, c, hc, hk⟩
    case inr hk =>
      cases hk
      case inl hk => exact ⟨b, hb, c, hc, a, ha, hk⟩
      case inr hk => exact ⟨c, hc, a, ha, b, hb, hk⟩
  rw [outranks_iff] at hab hbc hca
  have hpab := h.precedes_iff (g := g) ha hb
  have hpbc := h.precedes_iff (g := g) hb hc
  have hpca := h.precedes_iff (g := g) hc ha
  have hpriority : (g.rule a.rule).priority = (g.rule b.rule).priority ∧
      (g.rule b.rule).priority = (g.rule c.rule).priority := by
    clear hpab hpbc hpca
    omega
  -- Were the left sides all equal or all different, the remaining tie-breaks would be transitive.
  by_cases hl : (g.rule a.rule).left = (g.rule b.rule).left
  case pos => exact .inl (by grind [IsKnot])
  case neg =>
    refine .inr ?_
    by_cases hl' : (g.rule b.rule).left = (g.rule c.rule).left
    case pos => exact .inl (by grind [IsKnot])
    case neg => exact .inr (by grind [IsKnot])

theorem outranks_trans (h : Compatible entries) (hk : ¬ HasKnot g entries) (ha : a ∈ entries)
    (hb : b ∈ entries) (hc : c ∈ entries) (hab : a.Outranks g b) (hbc : b.Outranks g c) :
    a.Outranks g c := by
  cases h.trichotomy (g := g) ha hc
  case inl hac => exact hac
  case inr h' =>
    cases h'
    case inl hca => exact absurd (h.isKnot_of_circle ha hb hc hab hbc hca) hk
    case inr he  => exact absurd (he ▸ hbc) (h.asymm ha hb hab)

end Compatible

theorem IsKnot.circle (h : IsKnot g a b c) :
    a.Outranks g b ∧ b.Outranks g c ∧ c.Outranks g a := by
  refine ⟨outranks_iff.mpr ?_, outranks_iff.mpr ?_, outranks_iff.mpr ?_⟩
  · exact .inr ⟨h.priority_eq.symm, .inl ⟨h.left_eq, h.order_lt⟩⟩
  · refine .inr ⟨h.priority_eq'.symm, .inr ⟨fun hl => ?_, h.precedes⟩⟩
    exact absurd (hl.symm.trans h.left_eq.symm) h.left_ne
  · refine .inr ⟨h.priority_eq.trans h.priority_eq', .inr ⟨fun hl => ?_, h.precedes'⟩⟩
    exact absurd hl h.left_ne

end Policy

section Cells

theorem head?_placeEntry (h : e ∈ (placeEntry g entry cell).head?) :
    e = entry ∨ e ∈ cell.head? := by
  cases cell
  case nil => exact .inl (by simpa [placeEntry, eq_comm] using h)
  case cons d rest =>
    rw [placeEntry] at h
    split at h
    case isTrue  => exact .inl (by simpa [eq_comm] using h)
    case isFalse => exact .inr h

-- Insertion keeps up the order of neighbours, also where the policy is not transitive.
theorem isChain_placeEntry (hc : cell.IsChain (Entry.Outranks g))
    (ht : ∀ e ∈ cell, ¬ entry.Outranks g e → e.Outranks g entry) :
    (placeEntry g entry cell).IsChain (Entry.Outranks g) := by
  induction cell
  case nil => exact .singleton _
  case cons d rest hi =>
    obtain ⟨hd, hrest⟩ := List.forall_mem_cons.mp ht
    rw [placeEntry]
    split
    case isTrue hlt => exact hc.cons fun y hy => Option.some.inj hy ▸ hlt
    case isFalse hlt =>
      obtain ⟨hhead, htail⟩ := List.isChain_cons.mp hc
      refine List.isChain_cons.mpr ⟨fun y hy => ?_, hi htail hrest⟩
      cases head?_placeEntry hy
      case inl he => exact he ▸ hd hlt
      case inr hy => exact hhead y hy

theorem isChain_cellFrom (h : Compatible entries) (hcell : cell ⊆ entries)
    (hsub : entries' ⊆ entries) (hc : cell.IsChain (Entry.Outranks g)) :
    (cellFrom g cell entries').IsChain (Entry.Outranks g) := by
  induction entries' generalizing cell
  case nil => exact hc
  case cons entry rest hi =>
    obtain ⟨hentry, hrest⟩ := List.cons_subset.mp hsub
    refine @hi (insertEntry g cell entry).1 (fun e he => ?_) hrest ?_
    · cases mem_insertEntry he
      case inl he => exact hcell he
      case inr he => exact he ▸ hentry
    · by_cases hm : entry.action ∈ cell.map (·.action)
      case pos => rwa [insertEntry_of_mem hm]
      case neg =>
        rw [insertEntry_of_not_mem hm]
        refine isChain_placeEntry hc fun e he hlt => ?_
        cases (h.trichotomy hentry (hcell he)).resolve_left hlt
        case inl hlt => exact hlt
        case inr hee => exact absurd (List.mem_map_of_mem (hee ▸ he)) hm

theorem pairwise_of_isChain (h : Compatible entries) (hk : ¬ HasKnot g entries)
    (hsub : cell ⊆ entries) (hc : cell.IsChain (Entry.Outranks g)) :
    cell.Pairwise (Entry.Outranks g) := by
  induction cell
  case nil => exact .nil
  case cons d rest hi =>
    obtain ⟨hd, hrest⟩ := List.cons_subset.mp hsub
    obtain ⟨hhead, htail⟩ := List.isChain_cons.mp hc
    have hpairs := hi hrest htail
    refine List.pairwise_cons.mpr ⟨fun e he => ?_, hpairs⟩
    cases rest
    case nil => contradiction
    case cons f rest =>
      have hdf := hhead f rfl
      cases List.mem_cons.mp he
      case inl hef => exact hef ▸ hdf
      case inr he =>
        have hfe := (List.pairwise_cons.mp hpairs).left e he
        exact h.outranks_trans hk hd (hrest <| .head _) (hrest <| .tail _ he) hdf hfe

theorem not_hasKnot_of_pairwise (h : Compatible entries) (hsub : cell ⊆ entries)
    (hp : cell.Pairwise (Entry.Outranks g)) : ¬ HasKnot g cell := by
  -- Who outranks another entry stands before it.
  have hlt {i j : Nat} {a b : Entry} (ha : cell[i]? = some a) (hb : cell[j]? = some b)
      (hab : a.Outranks g b) : i < j := by
    obtain ⟨hi, hia⟩ := List.getElem?_eq_some_iff.mp ha
    obtain ⟨hj, hjb⟩ := List.getElem?_eq_some_iff.mp hb
    have hasymm := h.asymm (hsub <| List.mem_of_getElem? ha) (hsub <| List.mem_of_getElem? hb) hab
    by_contra hge
    cases Nat.lt_or_eq_of_le (Nat.le_of_not_lt hge)
    case inl hji =>
      have := List.pairwise_iff_getElem.mp hp j i hj hi hji
      exact hasymm <| by rwa [hia, hjb] at this
    case inr hji =>
      subst hji
      cases ha.symm.trans hb
      exact hasymm hab
  rintro ⟨a, ha, b, hb, c, hc, hknot⟩
  obtain ⟨hab, hbc, hca⟩ := hknot.circle
  obtain ⟨i, hi⟩ := List.mem_iff_getElem?.mp ha
  obtain ⟨j, hj⟩ := List.mem_iff_getElem?.mp hb
  obtain ⟨k, hk⟩ := List.mem_iff_getElem?.mp hc
  have := hlt hi hj hab
  have := hlt hj hk hbc
  have := hlt hk hi hca
  omega

theorem mem_cellFrom_iff (h : Compatible entries) : e ∈ cellFrom g [] entries ↔ e ∈ entries := by
  constructor
  case mp => exact fun he => (mem_cellFrom he).resolve_left List.not_mem_nil
  case mpr =>
    intro he
    have hact : e.action ∈ (cellFrom g [] entries).map (·.action) :=
      mem_actions_cellFrom.mpr <| .inr <| List.mem_map_of_mem he
    obtain ⟨d, hd, hde⟩ := List.mem_map.mp hact
    have hmem := (mem_cellFrom hd).resolve_left List.not_mem_nil
    exact h.eq_of_action_eq hmem he hde ▸ hd

theorem hasKnot_cellFrom_iff (h : Compatible entries) :
    HasKnot g (cellFrom g [] entries) ↔ HasKnot g entries := by
  simp only [HasKnot, mem_cellFrom_iff h]

theorem pairwise_cellFrom_iff (h : Compatible entries) :
    (cellFrom g [] entries).Pairwise (Entry.Outranks g) ↔ ¬ HasKnot g entries := by
  have hsub : cellFrom g [] entries ⊆ entries := fun _ => (mem_cellFrom_iff h).mp
  constructor
  case mp  =>
    intro hp
    rw [← hasKnot_cellFrom_iff h]
    exact not_hasKnot_of_pairwise h hsub hp
  case mpr =>
    intro hk
    refine pairwise_of_isChain h hk hsub ?_
    exact isChain_cellFrom h (List.nil_subset _) (List.Subset.refl _) .nil

theorem Compatible.of_subset (h : Compatible entries) (hs : entries' ⊆ entries) :
    Compatible entries' where
  shifts e he e' he' := h.shifts e (hs he) e' (hs he')
  rules e he         := h.rules e (hs he)
  alone e he e' he'  := h.alone e (hs he) e' (hs he')

-- A ranked cell does not depend on the order of insertion.
theorem cellFrom_eq_of_perm (h : Compatible entries) (hk : ¬ HasKnot g entries)
    (hp : entries'.Perm entries) : cellFrom g [] entries' = cellFrom g [] entries := by
  have h' := h.of_subset hp.subset
  have hk' : ¬ HasKnot g entries' := by simpa only [HasKnot, hp.mem_iff] using hk
  have hnodup (xs : List Entry) : (cellFrom g [] xs).Nodup :=
    List.Nodup.of_map _ <| nodup_cellFrom (by simp)
  have hperm : (cellFrom g [] entries').Perm (cellFrom g [] entries) := by
    refine (List.perm_ext_iff_of_nodup (hnodup _) (hnodup _)).mpr fun e => ?_
    rw [mem_cellFrom_iff h', mem_cellFrom_iff h, hp.mem_iff]
  refine hperm.eq_of_pairwise (fun a b ha hb hab hba => ?_)
    ((pairwise_cellFrom_iff h').mpr hk') ((pairwise_cellFrom_iff h).mpr hk)
  have ha := hp.subset <| (mem_cellFrom_iff h').mp ha
  exact absurd hba <| h.asymm ha ((mem_cellFrom_iff h).mp hb) hab

end Cells

section Tables

variable {ctx : Context} {alg : Algorithm} {automaton : Automaton} {q : StateId} {x : Terminal}

-- The entries that are inserted under one key.
def entriesAt (g : Grammar) (a : Automaton) (q : StateId) (x : Terminal) : List Entry :=
  ((a.shiftEntries ++ a.reduceEntries g).filter (·.1 = (q, x))).map (·.2)

theorem mem_entriesAt : e ∈ entriesAt g automaton q x ↔
    ((q, x), e) ∈ automaton.shiftEntries ∨ ((q, x), e) ∈ automaton.reduceEntries g := by
  simp [entriesAt]

theorem completed_of_mem_reduceEntries (hg : ctx.grammar.WellFormed) (hc : automaton.Coherent ctx)
    (he : ((q, x), e) ∈ automaton.reduceEntries ctx.grammar) :
    e = ⟨.accept, .accept⟩ ∧ x = .endOfInput ∨ e.action = .reduce e.rule ∧ e.rule ≠ .accept := by
  obtain ⟨n, hn, i, hi, _, hx, rfl⟩ := mem_reduceEntries.mp he
  obtain ⟨hrule, _⟩ := hc.valid hn i.core <| List.mem_map_of_mem hi
  have haccept := hg.left_eq_accept_iff hrule
  by_cases hl : ctx.grammar.left i.rule = .accept
  case pos =>
    have hr : i.rule = .accept := haccept.mp hl
    rw [completesOn, if_pos hl] at hx
    exact .inl ⟨by simp [completion, hr, hg.left_accept], List.mem_singleton.mp hx⟩
  case neg => exact .inr ⟨if_neg hl, fun hr => hl <| haccept.mpr hr⟩

theorem exists_edge_of_isShift (hc : automaton.Coherent ctx)
    (he : e ∈ entriesAt ctx.grammar automaton q x) (hs : e.IsShift) : ∃ n edge,
      automaton.node? q = some n ∧ edge ∈ n.edges ∧ edge.symbol = .terminal x ∧
        e = ⟨.shift edge.target, edge.rule⟩ := by
  refine (mem_shiftEntries_iff hc.cut).mp <| (mem_entriesAt.mp he).resolve_right fun he => ?_
  obtain ⟨p, hp⟩ := hs
  obtain ⟨_, _, _, _, _, _, rfl⟩ := mem_reduceEntries.mp he
  exact completion_ne_shift hp

theorem compatible_entriesAt (hg : ctx.grammar.WellFormed) (hc : automaton.Coherent ctx) :
    Compatible (entriesAt ctx.grammar automaton q x) := by
  constructor
  case shifts =>
    intro e he e' he' hs hs'
    obtain ⟨n, edge, hn, hedge, hx, heq⟩ := exists_edge_of_isShift hc he hs
    obtain ⟨n', edge', hn', hedge', hx', heq'⟩ := exists_edge_of_isShift hc he' hs'
    cases hn.symm.trans hn'
    rw [heq, heq', hc.eq_of_symbol_eq hn hedge hedge' (hx.trans hx'.symm)]
  case rules =>
    intro e he hs
    cases mem_entriesAt.mp he
    case inl he =>
      obtain ⟨edge, _, _, heq⟩ := mem_shiftEntries.mp he
      exact absurd ⟨edge.target, by rw [heq]⟩ hs
    case inr he => exact (completed_of_mem_reduceEntries hg hc he).imp_left And.left
  case alone =>
    intro e he e' he' hs hact
    obtain ⟨n, edge, hn, hedge, hx, _⟩ := exists_edge_of_isShift hc he hs
    have hsymbol : edge.symbol ∈ n.edges.map (·.symbol) := List.mem_map_of_mem hedge
    rw [hc.symbols hn, mem_nextSymbols, hx] at hsymbol
    obtain ⟨c, _, hnext⟩ := hsymbol
    cases mem_entriesAt.mp he'
    case inl he' =>
      obtain ⟨_, _, _, heq⟩ := mem_shiftEntries.mp he'
      simp [heq] at hact
    case inr he' =>
      cases completed_of_mem_reduceEntries hg hc he'
      case inl hr =>
        refine hg.not_reserved_of_mem_right (List.mem_of_getElem? hnext) ?_
        rw [hr.right]
        exact Terminal.isReserved_iff.mpr <| .inl rfl
      case inr hr => simp [hr.left] at hact

-- An ACTION cell of any table is ranked if and only if it has no knot. Then the action taken is
-- outranked by no other one, and the cell does not depend on the order of insertion.
theorem action_cells_ranked_iff (h : ctx.grammar.IsDefined) :
    ∃ a t, Automaton.build ctx alg = .ok a ∧ ParseTable.build a ctx = .ok t ∧ ∀ q x,
      ((t.actionCell q x).Pairwise (rank ctx.grammar · · = .lt) ↔
        ¬ HasKnot ctx.grammar (t.actionCell q x)) ∧
      (¬ HasKnot ctx.grammar (t.actionCell q x) →
        (∀ e ∈ (t.actionCell q x).head?, t.action? q x = some e.action ∧
          ∀ e' ∈ t.actionCell q x, rank ctx.grammar e' e ≠ .lt) ∧
        ∀ entries, entries.Perm (a.shiftEntries ++ a.reduceEntries ctx.grammar) →
          (Cells.empty.insertAll ctx.grammar entries).1.cell (q, x) = t.actionCell q x) := by
  have hg := h.wellFormed
  obtain ⟨a, hbuild, houtcome, hdone⟩ := exists_build hg alg
  obtain ⟨t, ht, htable⟩ := exists_table ctx hdone
  refine ⟨a, t, hbuild, ht, fun q x => ?_⟩
  have hcompatible := compatible_entriesAt (q := q) (x := x) hg (houtcome.coherent hg)
  have hcell : t.actionCell q x = cellFrom ctx.grammar [] (entriesAt ctx.grammar a q x) := by
    rw [ParseTable.actionCell, htable.actions, Cells.cell_insertAll, Cells.cell_empty, entriesAt]
  rw [hcell, hasKnot_cellFrom_iff hcompatible]
  refine ⟨pairwise_cellFrom_iff hcompatible, fun hk => ⟨fun e he => ⟨?_, fun e' he' => ?_⟩, ?_⟩⟩
  · rw [ParseTable.action?, hcell, he]
    rfl
  · have hpairs := (pairwise_cellFrom_iff hcompatible).mpr hk
    have hmem {d} := (mem_cellFrom_iff (g := ctx.grammar) (e := d) hcompatible).mp
    generalize cellFrom ctx.grammar [] _ = cell at hpairs hmem he he'
    cases cell
    case nil => contradiction
    case cons d rest =>
      cases Option.some.inj he
      cases List.mem_cons.mp he'
      case inl hed =>
        subst hed
        exact fun hlt => hcompatible.asymm (hmem he') (hmem he') hlt hlt
      case inr hrest =>
        have hlt := (List.pairwise_cons.mp hpairs).left e' hrest
        exact hcompatible.asymm (hmem <| .head _) (hmem he') hlt
  · intro entries hp
    rw [Cells.cell_insertAll, Cells.cell_empty]
    exact cellFrom_eq_of_perm hcompatible hk <| (hp.filter _).map _

-- The grammar `L → x | ε`, `M → x`, `S → L | M | x L`, in which the rules for `L` are declared
-- before and after the one for `M`.
def knottedCalls : List Draft.Call :=
  [.terminal "x", .nonterminal "L", .nonterminal "M", .nonterminal "S",
    .rule ⟨1⟩ [.terminal ⟨2⟩] none, .rule ⟨2⟩ [.terminal ⟨2⟩] none, .rule ⟨1⟩ [] none,
    .rule ⟨3⟩ [.nonterminal ⟨1⟩] none, .rule ⟨3⟩ [.nonterminal ⟨2⟩] none,
    .rule ⟨3⟩ [.terminal ⟨2⟩, .nonterminal ⟨1⟩] none, .startSymbol ⟨3⟩]

def knotted : Grammar where
  vocabulary := (Draft.afterCalls knottedCalls).vocabulary
  rules      := #[⟨.accept, [.nonterminal ⟨3⟩], 0, 0⟩] ++ (Draft.afterCalls knottedCalls).rules
  start      := ⟨3⟩

theorem knotted_isDefined : knotted.IsDefined :=
  ⟨knottedCalls, by cbv⟩

theorem action_cells_ranked_iff_on_knotted : knotted.IsDefined ∧
    ∃ a t, Automaton.build (.ofGrammar knotted) .lalrByPropagation = .ok a ∧
      ParseTable.build a (.ofGrammar knotted) = .ok t ∧
      ((t.actionCell ⟨4⟩ .endOfInput).Pairwise (rank knotted · · = .lt) ↔
        ¬ HasKnot knotted (t.actionCell ⟨4⟩ .endOfInput)) := by
  obtain ⟨a, t, ha, ht, hcells⟩ :=
    @action_cells_ranked_iff (.ofGrammar knotted) .lalrByPropagation knotted_isDefined
  exact ⟨knotted_isDefined, a, t, ha, ht, (hcells ⟨4⟩ .endOfInput).left⟩

-- After an `x` at the end of the input the third rule is chosen, although the second one outranks
-- it.
theorem action_cell_not_ranked_on_knotted :
    ∃ a t, Automaton.build (.ofGrammar knotted) .lalrByPropagation = .ok a ∧
      ParseTable.build a (.ofGrammar knotted) = .ok t ∧
      t.action? ⟨4⟩ .endOfInput = some (.reduce ⟨3⟩) ∧
      ⟨.reduce ⟨2⟩, ⟨2⟩⟩ ∈ t.actionCell ⟨4⟩ .endOfInput ∧
      rank knotted ⟨.reduce ⟨2⟩, ⟨2⟩⟩ ⟨.reduce ⟨3⟩, ⟨3⟩⟩ = .lt ∧
      ¬ (t.actionCell ⟨4⟩ .endOfInput).Pairwise (rank knotted · · = .lt) := by
  have hg : (Context.ofGrammar knotted).grammar.WellFormed := knotted_isDefined.wellFormed
  obtain ⟨a, ha, _, hdone⟩ := exists_build hg .lalrByPropagation
  obtain ⟨t, ht, _⟩ := exists_table (.ofGrammar knotted) hdone
  have hcell : t.actionCell ⟨4⟩ .endOfInput =
      [⟨.reduce ⟨3⟩, ⟨3⟩⟩, ⟨.reduce ⟨1⟩, ⟨1⟩⟩, ⟨.reduce ⟨2⟩, ⟨2⟩⟩] := by
    have h : ((Automaton.build (.ofGrammar knotted) .lalrByPropagation).bind fun a =>
        (ParseTable.build a (.ofGrammar knotted)).map (·.actionCell ⟨4⟩ .endOfInput)) =
          .ok [⟨.reduce ⟨3⟩, ⟨3⟩⟩, ⟨.reduce ⟨1⟩, ⟨1⟩⟩, ⟨.reduce ⟨2⟩, ⟨2⟩⟩] := by
      decide +kernel
    rw [ha] at h
    simpa [Except.bind, ht, Except.map] using h
  refine ⟨a, t, ha, ht, ?_⟩
  rw [ParseTable.action?, hcell]
  decide +kernel

end Tables
end ShiftReduce
