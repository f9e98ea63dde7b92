import Mathlib.Data.Finset.Card
import ShiftReduce.Proofs.Closure.Prediction
import ShiftReduce.Proofs.Exploration

namespace ShiftReduce

open Exploration

variable {xs ys : List Item} {item i : Item} {c : Core} {t : Terminal} {kind : ItemKind}

theorem coveredLookaheads?_spec :
    ((coveredLookaheads? xs c).isSome ↔ c ∈ xs.map Item.core) ∧
      (t ∈ (coveredLookaheads? xs c).getD ∅ ↔ Covers xs c t) := by
  suffices h : ∀ s : Option TerminalSet,
      let s' := xs.foldl (fun s i => if i.core = c then some (s.getD ∅ ∪ i.lookaheadSet) else s) s
      (s'.isSome ↔ s.isSome ∨ c ∈ xs.map Item.core) ∧
        (t ∈ s'.getD ∅ ↔ t ∈ s.getD ∅ ∨ Covers xs c t) by
    simpa [coveredLookaheads?] using h none
  induction xs
  case nil => simp
  case cons i xs hi =>
    intro s
    by_cases hc : i.core = c
    case pos => simp [hc, hi, covers_cons, or_assoc]
    case neg => simp [hc, hi, covers_cons, Ne.symm hc]

-- An item is not added if its core and its lookaheads are there.
structure IsPresent (closure : List Item) (item : Item) : Prop where
  core   : item.core ∈ closure.map Item.core
  covers : ∀ t ∈ item.lookaheadSet, Covers closure item.core t

-- Otherwise it is trimmed to what is new. If its core is not, then some lookahead is.
structure IsTrimmed (closure : List Item) (item trimmed : Item) : Prop where
  core  : trimmed.core = item.core
  kind  : trimmed.kind = item.kind
  mem   : ∀ t, t ∈ trimmed.lookaheadSet ↔ t ∈ item.lookaheadSet ∧ ¬ Covers closure item.core t
  fresh : item.core ∈ closure.map Item.core → ∃ t, t ∈ trimmed.lookaheadSet

theorem isTrimmed_self (h : item.core ∉ xs.map Item.core) : IsTrimmed xs item item where
  core  := rfl
  kind  := rfl
  mem   := fun _ => ⟨fun ht => ⟨ht, mt Covers.mem_map_core h⟩, And.left⟩
  fresh := fun hm => absurd hm h

theorem discover_cases (xs : List Item) (item : Item) :
    ((discover xs item).1 = xs ∧ IsPresent xs item) ∨
      ∃ trimmed, (discover xs item).1 = xs ++ [trimmed] ∧ IsTrimmed xs item trimmed := by
  obtain ⟨c, lookaheads⟩ := item
  cases lookaheads
  case none =>
    simp only [discover]
    split
    case isTrue h =>
      exact .inl ⟨rfl, by simpa using h, by simp [Item.lookaheadSet]⟩
    case isFalse h =>
      exact .inr ⟨_, rfl, isTrimmed_self <| by simpa using h⟩
  case some lookaheads =>
    have hspec (t : Terminal) : _ ∧ (t ∈ (coveredLookaheads? xs c).getD ∅ ↔ _) :=
      coveredLookaheads?_spec
    simp only [discover]
    split
    case h_1 hnone =>
      refine .inr ⟨_, rfl, isTrimmed_self ?_⟩
      simp [← (hspec .marker).left, hnone]
    case h_2 covered hsome =>
      simp only [hsome, Option.isSome_some, true_iff, Option.getD_some] at hspec
      split
      case isTrue hempty =>
        refine .inl ⟨rfl, (hspec .marker).left, fun t ht => ?_⟩
        by_contra hn
        have : t ∈ lookaheads \ covered := TerminalSet.mem_sdiff.mpr ⟨ht, mt (hspec t).right.mp hn⟩
        simp [hempty] at this
      case isFalse hne =>
        refine .inr ⟨_, rfl, rfl, rfl, fun t => ?_, fun _ => ?_⟩
        · simp [Item.lookaheadSet, (hspec t).right]
        · by_contra hall
          refine hne <| TerminalSet.ext_mem fun t => ?_
          simpa [Item.lookaheadSet] using mt (Exists.intro t) hall

theorem lookaheadSet_eq_empty (h : i.kind = .lr0) : i.lookaheadSet = ∅ := by
  obtain ⟨_, lookaheads⟩ := i
  cases lookaheads <;> simp_all [Item.kind, Item.lookaheadSet]

-- What a closure has to show for itself: a core, or a lookahead of a core.
def Has (closure : List Item) : Core × Option Terminal → Prop
  | (c, none)   => c ∈ closure.map Item.core
  | (c, some t) => Covers closure c t

theorem Has.subset (h : xs ⊆ ys) : ∀ {m}, Has xs m → Has ys m
  | (_, none),   hm => List.map_subset _ h hm
  | (_, some _), hm => Covers.subset h hm

instance : DecidablePred (Has xs)
  | (c, none)   => inferInstanceAs (Decidable (c ∈ xs.map Item.core))
  | (c, some t) => inferInstanceAs (Decidable (∃ i ∈ xs, i.core = c ∧ t ∈ i.lookaheadSet))

def marks (marked : Finset (Core × Option Terminal)) (closure : List Item) : Nat :=
  (marked.filter (Has closure)).card

-- The closure `ys` is what `xs` becomes when `items` are discovered.
structure Extends (xs items ys : List Item) : Prop where
  parts  : ∃ added, ys = xs ++ added ∧
    ∀ i ∈ added, ∃ j ∈ items, i.core = j.core ∧ i.kind = j.kind
  cores  : ∀ c, c ∈ ys.map Item.core ↔ c ∈ xs.map Item.core ∨ c ∈ items.map Item.core
  covers : ∀ c t, Covers ys c t ↔ Covers xs c t ∨ Covers items c t
  firsts : firsts id (ys.map Item.core) =
    insertAllNew id (firsts id (xs.map Item.core)) (items.map Item.core)
  nodup  : (∀ i ∈ items, i.kind = .lr0) → (xs.map Item.core).Nodup → (ys.map Item.core).Nodup
  -- Every item that is added has a core or a lookahead that was not there.
  length : ∀ marked : Finset (Core × Option Terminal), (∀ m, Has items m → m ∈ marked) →
    ys.length + marks marked xs ≤ xs.length + marks marked ys

namespace Extends

variable {zs as bs : List Item}

theorem subset (h : Extends xs as ys) : xs <+: ys := by
  obtain ⟨added, he, _⟩ := h.parts
  exact ⟨added, he.symm⟩

theorem mem (h : Extends xs as ys) (hi : i ∈ ys) :
    i ∈ xs ∨ ∃ j ∈ as, i.core = j.core ∧ i.kind = j.kind := by
  obtain ⟨added, he, hadded⟩ := h.parts
  exact List.mem_append.mp (he ▸ hi) |>.imp_right (hadded i)

theorem refl : Extends xs [] xs where
  parts        := ⟨[], by simp, by simp⟩
  cores        := by simp
  covers       := by simp
  firsts       := rfl
  nodup _      := id
  length _ _   := Nat.le_refl _

theorem trans (h : Extends xs as ys) (h' : Extends ys bs zs) : Extends xs (as ++ bs) zs where
  parts       := by
    obtain ⟨added, he, hadded⟩ := h.parts
    obtain ⟨added', he', hadded'⟩ := h'.parts
    refine ⟨added ++ added', by rw [he', he, List.append_assoc], fun i hi => ?_⟩
    cases List.mem_append.mp hi
    case inl hi =>
      obtain ⟨j, hj, heq⟩ := hadded i hi
      exact ⟨j, List.mem_append_left _ hj, heq⟩
    case inr hi =>
      obtain ⟨j, hj, heq⟩ := hadded' i hi
      exact ⟨j, List.mem_append_right _ hj, heq⟩
  cores c     := by rw [h'.cores, h.cores, List.map_append, List.mem_append, or_assoc]
  covers c t  := by rw [h'.covers, h.covers, covers_append, or_assoc]
  firsts      := by rw [h'.firsts, h.firsts, List.map_append, insertAllNew_append]
  nodup hk hn := h'.nodup (fun i hi => hk i <| List.mem_append_right _ hi) <|
    h.nodup (fun i hi => hk i <| List.mem_append_left _ hi) hn
  length marked hm := by
    have h₁ := h.length marked fun m hs => hm m <| hs.subset <| List.subset_append_left ..
    have h₂ := h'.length marked fun m hs => hm m <| hs.subset <| List.subset_append_right ..
    omega

theorem of_isPresent (h : IsPresent xs item) : Extends xs [item] xs where
  parts      := ⟨[], by simp, by simp⟩
  cores c    := by
    have := h.core
    grind
  covers c t := by
    simp only [covers_singleton]
    refine ⟨.inl, fun hc => hc.elim id ?_⟩
    exact fun ⟨he, ht⟩ => he ▸ h.covers t ht
  firsts     := by
    refine (insertAllNew_eq_self ?_).symm
    simpa [mem_firsts_id] using h.core
  nodup _    := id
  length _ _ := Nat.le_refl _

theorem of_isTrimmed {trimmed : Item} (h : IsTrimmed xs item trimmed) :
    Extends xs [item] (xs ++ [trimmed]) where
  parts       := ⟨[trimmed], rfl, by simp [h.core, h.kind]⟩
  cores c     := by simp [h.core]
  covers c t  := by
    simp only [covers_append, covers_singleton, h.core, h.mem]
    grind
  firsts      := by
    rw [List.map_append, firsts_append]
    simp [h.core]
  nodup hk hn := by
    have hempty : trimmed.lookaheadSet = ∅ :=
      lookaheadSet_eq_empty <| h.kind.trans <| hk item <| .head _
    have hnew : item.core ∉ xs.map Item.core := by
      intro hm
      obtain ⟨t, ht⟩ := h.fresh hm
      simp [hempty] at ht
    simp only [List.map_append, List.map_cons, List.map_nil, h.core]
    exact hn.append (List.nodup_singleton _) (by simpa using hnew)
  length marked hm := by
    have hnew : ∃ m, Has (xs ++ [trimmed]) m ∧ ¬ Has xs m ∧ m ∈ marked := by
      by_cases hc : item.core ∈ xs.map Item.core
      case pos =>
        obtain ⟨t, ht⟩ := h.fresh hc
        have hmem := (h.mem t).mp ht
        refine ⟨(item.core, some t), ?_, hmem.right, hm _ <| covers_singleton.mpr ⟨rfl, hmem.left⟩⟩
        exact covers_append.mpr <| .inr <| covers_singleton.mpr ⟨h.core, ht⟩
      case neg =>
        refine ⟨(item.core, none), ?_, hc, hm _ <| .head _⟩
        simp [Has, h.core]
    obtain ⟨m, hm₁, hm₂, hm₃⟩ := hnew
    have hlt : marks marked xs < marks marked (xs ++ [trimmed]) := by
      refine Finset.card_lt_card <| Finset.ssubset_iff_of_subset ?_ |>.mpr ⟨m, ?_, ?_⟩
      · exact Finset.monotone_filter_right _ fun _ _ => Has.subset <| List.subset_append_left ..
      · exact Finset.mem_filter.mpr ⟨hm₃, hm₁⟩
      · exact fun hmem => hm₂ (Finset.mem_filter.mp hmem).right
    simp only [List.length_append, List.length_singleton]
    omega

end Extends

theorem discover_extends : Extends xs [item] (discover xs item).1 := by
  cases discover_cases xs item
  case inl h =>
    rw [h.left]
    exact .of_isPresent h.right
  case inr h =>
    obtain ⟨_, he, ht⟩ := h
    rw [he]
    exact .of_isTrimmed ht

theorem discoverAll_extends {items : List Item} : Extends xs items (discoverAll xs items).1 := by
  induction items generalizing xs
  case nil             => exact .refl
  case cons item items hi => exact discover_extends.trans hi

end ShiftReduce
