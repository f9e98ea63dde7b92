import ShiftReduce.Proofs.Closure.Steps

namespace ShiftReduce

open Exploration

variable {xs ys : List Item} {item i j : Item} {c : Core} {t : Terminal}

theorem lookaheads_eq_some (h : i.kind = .lr1) : i.lookaheads = some i.lookaheadSet := by
  obtain ⟨c, lookaheads⟩ := i
  cases lookaheads
  case none   => simp [Item.kind] at h
  case some s => rfl

theorem lookaheads_eq_none (h : i.kind = .lr0) : i.lookaheads = none := by
  obtain ⟨c, lookaheads⟩ := i
  cases lookaheads
  case none   => rfl
  case some s => simp [Item.kind] at h

@[simp]
theorem kind_join : (i.join j).kind = i.kind := by
  obtain ⟨_, a⟩ := i
  obtain ⟨_, b⟩ := j
  cases a <;> cases b <;> rfl

theorem mem_or_mem_of_mem_join (h : t ∈ (i.join j).lookaheadSet) :
    t ∈ i.lookaheadSet ∨ t ∈ j.lookaheadSet := by
  obtain ⟨_, a⟩ := i
  obtain ⟨_, b⟩ := j
  cases a <;> cases b <;> simp_all [Item.join, Item.lookaheadSet]

theorem mem_lookaheadSet_join (hi : i.kind = .lr1) (hj : j.kind = .lr1) :
    t ∈ (i.join j).lookaheadSet ↔ t ∈ i.lookaheadSet ∨ t ∈ j.lookaheadSet := by
  obtain ⟨a, hia⟩ : ∃ a, i.lookaheads = some a := ⟨_, lookaheads_eq_some hi⟩
  obtain ⟨b, hjb⟩ : ∃ b, j.lookaheads = some b := ⟨_, lookaheads_eq_some hj⟩
  simp [Item.join, hia, hjb, Item.lookaheadSet]

theorem forall_mem_modify {P : Item → Prop} {k : Nat} {f : Item → Item} (h : ∀ i ∈ xs, P i)
    (hf : ∀ i, P i → P (f i)) : ∀ i ∈ xs.modify k f, P i := by
  intro i hi
  obtain ⟨m, hm⟩ := List.mem_iff_getElem?.mp hi
  rw [List.getElem?_modify] at hm
  obtain ⟨i', hi', he⟩ := Option.map_eq_some_iff.mp hm
  have hp := h i' <| List.mem_of_getElem? hi'
  split at he
  case isTrue  => exact he ▸ hf i' hp
  case isFalse => exact he ▸ hp

section JoinFirst

@[simp]
theorem map_core_joinFirst : (joinFirst xs item).map Item.core = xs.map Item.core := by
  induction xs
  case nil => rfl
  case cons x xs hi =>
    unfold joinFirst
    split <;> simp [hi]

-- What holds of some items and is kept by joining holds of what they are joined to.
theorem forall_mem_joinFirst {P : Item → Prop} (h : ∀ i ∈ xs, P i)
    (hjoin : ∀ i, P i → P (i.join item)) : ∀ i ∈ joinFirst xs item, P i := by
  induction xs
  case nil => simp [joinFirst]
  case cons x xs hi =>
    obtain ⟨hx, hxs⟩ := List.forall_mem_cons.mp h
    unfold joinFirst
    split
    case isTrue  => exact List.forall_mem_cons.mpr ⟨hjoin x hx, hxs⟩
    case isFalse => exact List.forall_mem_cons.mpr ⟨hx, hi hxs⟩

theorem kind_of_mem_joinFirst {kind : ItemKind} (h : ∀ i ∈ xs, i.kind = kind) :
    ∀ i ∈ joinFirst xs item, i.kind = kind :=
  forall_mem_joinFirst h fun _ => kind_join.trans

theorem covers_joinFirst (hx : ∀ i ∈ xs, i.kind = .lr1) (hi : item.kind = .lr1) :
    Covers (joinFirst xs item) c t ↔
      Covers xs c t ∨ (c ∈ xs.map Item.core ∧ item.core = c ∧ t ∈ item.lookaheadSet) := by
  induction xs
  case nil => simp [joinFirst]
  case cons x xs hind =>
    obtain ⟨hx₁, hx₂⟩ := List.forall_mem_cons.mp hx
    have hind := hind hx₂
    unfold joinFirst
    split
    case isTrue heq =>
      simp only [covers_cons, Item.core_join, mem_lookaheadSet_join hx₁ hi, List.map_cons,
        List.mem_cons]
      grind
    case isFalse hne =>
      simp only [covers_cons, hind, List.map_cons, List.mem_cons]
      grind

@[simp]
theorem map_core_foldl_joinFirst : (ys.foldl joinFirst xs).map Item.core = xs.map Item.core := by
  induction ys generalizing xs
  case nil          => rfl
  case cons y ys hi => rw [List.foldl_cons, hi, map_core_joinFirst]

theorem forall_mem_foldl_joinFirst {P : Item → Prop} (h : ∀ i ∈ xs, P i)
    (hjoin : ∀ i, P i → ∀ j ∈ ys, P (i.join j)) : ∀ i ∈ ys.foldl joinFirst xs, P i := by
  induction ys generalizing xs
  case nil => exact h
  case cons y ys hi =>
    refine hi (forall_mem_joinFirst h fun i hp => hjoin i hp y <| .head _) ?_
    exact fun i hp j hj => hjoin i hp j <| .tail _ hj

theorem kind_of_mem_foldl_joinFirst {kind : ItemKind} (h : ∀ i ∈ xs, i.kind = kind) :
    ∀ i ∈ ys.foldl joinFirst xs, i.kind = kind :=
  forall_mem_foldl_joinFirst h fun _ hi _ _ => kind_join.trans hi

theorem covers_foldl_joinFirst (hx : ∀ i ∈ xs, i.kind = .lr1) (hy : ∀ i ∈ ys, i.kind = .lr1) :
    Covers (ys.foldl joinFirst xs) c t ↔
      Covers xs c t ∨ (c ∈ xs.map Item.core ∧ Covers ys c t) := by
  induction ys generalizing xs
  case nil => simp
  case cons y ys hi =>
    obtain ⟨hy₁, hy₂⟩ := List.forall_mem_cons.mp hy
    rw [List.foldl_cons, hi (kind_of_mem_joinFirst hx) hy₂, covers_joinFirst hx hy₁,
      map_core_joinFirst, covers_cons]
    grind

end JoinFirst

section JoinByCore

-- What joining makes of the items so far and one more.
def joinNext (joined : List Item) (item : Item) : List Item :=
  if joined.any (·.core = item.core) then joinFirst joined item else joined ++ [item]

theorem any_core_iff : xs.any (·.core = c) = true ↔ c ∈ xs.map Item.core := by
  simp

theorem forall_mem_joinByCore {P : Item → Prop} (h : ∀ i ∈ xs, P i)
    (hjoin : ∀ i j, P i → P j → P (i.join j)) : ∀ i ∈ joinByCore xs, P i := by
  suffices hall : ∀ joined : List Item, (∀ i ∈ joined, P i) →
      ∀ i ∈ xs.foldl joinNext joined, P i from hall [] (by simp)
  induction xs
  case nil => exact fun joined hj => hj
  case cons x xs hi =>
    intro joined hj
    obtain ⟨hx, hxs⟩ := List.forall_mem_cons.mp h
    refine hi hxs _ ?_
    rw [joinNext]
    split
    case isTrue  => exact forall_mem_joinFirst hj fun i hp => hjoin i x hp hx
    case isFalse => simpa [or_imp, forall_and, hx] using hj

theorem joinNext_spec {joined : List Item} (hx : ∀ i ∈ joined, i.kind = .lr1)
    (hi : item.kind = .lr1) :
    (joinNext joined item).map Item.core = insertNew id (joined.map Item.core) item.core ∧
      (∀ i ∈ joinNext joined item, i.kind = .lr1) ∧
      ∀ c t, Covers (joinNext joined item) c t ↔ Covers joined c t ∨ Covers [item] c t := by
  simp only [joinNext, any_core_iff, insertNew, List.map_id, id]
  split
  case isTrue hm =>
    refine ⟨map_core_joinFirst, kind_of_mem_joinFirst hx, fun c t => ?_⟩
    rw [covers_joinFirst hx hi, covers_singleton]
    grind
  case isFalse hm =>
    refine ⟨by simp, ?_, fun c t => covers_append⟩
    simpa [or_imp, forall_and, hi] using hx

-- Joining keeps the first occurrence of every core, with all lookaheads of the core.
theorem joinByCore_spec (hx : ∀ i ∈ xs, i.kind = .lr1) :
    (joinByCore xs).map Item.core = firsts id (xs.map Item.core) ∧
      (∀ i ∈ joinByCore xs, i.kind = .lr1) ∧
      ∀ c t, Covers (joinByCore xs) c t ↔ Covers xs c t := by
  suffices h : ∀ joined : List Item, (∀ i ∈ joined, i.kind = .lr1) →
      (xs.foldl joinNext joined).map Item.core =
          insertAllNew id (joined.map Item.core) (xs.map Item.core) ∧
        (∀ i ∈ xs.foldl joinNext joined, i.kind = .lr1) ∧
        ∀ c t, Covers (xs.foldl joinNext joined) c t ↔ Covers joined c t ∨ Covers xs c t by
    have h := h [] (by simp)
    simp only [not_covers_nil, false_or] at h
    exact h
  induction xs
  case nil => exact fun joined hj => ⟨rfl, hj, by simp⟩
  case cons x xs hi =>
    intro joined hj
    obtain ⟨hx₁, hx₂⟩ := List.forall_mem_cons.mp hx
    obtain ⟨hcores, hkinds, hcovers⟩ := joinNext_spec hj hx₁
    obtain ⟨hcores', hkinds', hcovers'⟩ := hi hx₂ _ hkinds
    refine ⟨?_, hkinds', fun c t => ?_⟩
    · rw [List.foldl_cons, hcores', hcores]
      rfl
    · rw [List.foldl_cons, hcovers', hcovers, covers_singleton, covers_cons, or_assoc]

theorem nodup_map_core_joinByCore (hx : ∀ i ∈ xs, i.kind = .lr1) :
    ((joinByCore xs).map Item.core).Nodup := by
  rw [(joinByCore_spec hx).left, ← List.map_id (firsts id _)]
  exact nodup_firsts

theorem mem_map_core_joinByCore (hx : ∀ i ∈ xs, i.kind = .lr1) :
    c ∈ (joinByCore xs).map Item.core ↔ c ∈ xs.map Item.core := by
  rw [(joinByCore_spec hx).left, mem_firsts_id]

-- Joining spares the items of the kernel.
theorem mergeLookaheads_closure_eq {s : ItemSet} {kernel rest : List Item}
    (hkernel : s.kernel = kernel) (hrest : s.closure = kernel ++ rest) :
    s.mergeLookaheads.1.closure = kernel ++ joinByCore rest := by
  simp [ItemSet.mergeLookaheads, hkernel, hrest]

end JoinByCore

section Determination

theorem covers_iff_mem (hn : (xs.map Item.core).Nodup) (hi : i ∈ xs) :
    Covers xs i.core t ↔ t ∈ i.lookaheadSet := by
  constructor
  case mp =>
    rintro ⟨j, hj, hc, ht⟩
    exact List.inj_on_of_nodup_map hn hj hi hc ▸ ht
  case mpr => exact fun ht => ⟨i, hi, rfl, ht⟩

-- Where no core is repeated, a part has all lookaheads of its cores.
theorem covers_iff_of_subset (h : ys ⊆ xs) (hn : (xs.map Item.core).Nodup) :
    Covers ys c t ↔ c ∈ ys.map Item.core ∧ Covers xs c t := by
  constructor
  case mp => exact fun hc => ⟨hc.mem_map_core, hc.subset h⟩
  case mpr =>
    rintro ⟨hc, hcovers⟩
    obtain ⟨i, hi, hic⟩ := List.mem_map.mp hc
    exact ⟨i, hi, hic, (covers_iff_mem hn (h hi)).mp <| hic ▸ hcovers⟩

theorem eq_of_core_eq_of_mem_iff (hi : i.kind = .lr1) (hj : j.kind = .lr1) (hc : i.core = j.core)
    (h : ∀ t, t ∈ i.lookaheadSet ↔ t ∈ j.lookaheadSet) : i = j := by
  have hl : i.lookaheads = j.lookaheads := by
    rw [lookaheads_eq_some hi, lookaheads_eq_some hj, TerminalSet.ext_mem h]
  cases i
  cases j
  simp_all

theorem core_getElem_eq {k : Nat} {hx : k < xs.length} {hy : k < ys.length}
    (h : xs.map Item.core = ys.map Item.core) : xs[k].core = ys[k].core := by
  rw [← List.getElem_map Item.core (h := by simpa using hx),
    ← List.getElem_map Item.core (h := by simpa using hy)]
  simp only [h]

-- The cores and what is covered determine a list of LR(1) items.
theorem eq_of_covers (hx : ∀ i ∈ xs, i.kind = .lr1) (hy : ∀ i ∈ ys, i.kind = .lr1)
    (hcores : xs.map Item.core = ys.map Item.core) (hn : (xs.map Item.core).Nodup)
    (hcovers : ∀ c t, Covers xs c t ↔ Covers ys c t) : xs = ys := by
  refine List.ext_getElem (by simpa using congrArg List.length hcores) fun k hk hk' => ?_
  have hxk := List.getElem_mem hk
  have hyk := List.getElem_mem hk'
  have hcore : xs[k].core = ys[k].core := core_getElem_eq hcores
  refine eq_of_core_eq_of_mem_iff (hx _ hxk) (hy _ hyk) hcore fun t => ?_
  rw [← covers_iff_mem hn hxk, ← covers_iff_mem (hcores ▸ hn) hyk, hcovers, hcore]

-- The cores alone determine a list of LR(0) items.
theorem eq_of_cores (hx : ∀ i ∈ xs, i.kind = .lr0) (hy : ∀ i ∈ ys, i.kind = .lr0)
    (hcores : xs.map Item.core = ys.map Item.core) : xs = ys := by
  refine List.ext_getElem (by simpa using congrArg List.length hcores) fun k hk hk' => ?_
  have hcore : xs[k].core = ys[k].core := core_getElem_eq hcores
  have hl : xs[k].lookaheads = ys[k].lookaheads := by
    rw [lookaheads_eq_none <| hx _ <| List.getElem_mem hk,
      lookaheads_eq_none <| hy _ <| List.getElem_mem hk']
  generalize xs[k] = i at hcore hl
  generalize ys[k] = j at hcore hl
  cases i
  cases j
  simp_all

end Determination
end ShiftReduce
