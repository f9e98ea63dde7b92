import Mathlib.Data.List.Basic
import ShiftReduce.Table.Basic

namespace ShiftReduce

-- The cell that comes from the insertion of these entries, in order.
def cellFrom (g : Grammar) (cell entries : List Entry) : List Entry :=
  entries.foldl (fun cell entry => (insertEntry g cell entry).1) cell

variable {σ : Type} [Numbered σ] {g : Grammar} {cell entries rest : List Entry} {e entry : Entry}
  {α : Action}

section Entries

theorem placeEntry_perm : (placeEntry g entry cell).Perm (entry :: cell) := by
  induction cell
  case nil => exact .refl _
  case cons e rest hi =>
    rw [placeEntry]
    split
    · exact .refl _
    · exact (hi.cons e).trans <| .swap ..

theorem mem_placeEntry : e ∈ placeEntry g entry cell ↔ e = entry ∨ e ∈ cell := by
  rw [placeEntry_perm.mem_iff, List.mem_cons]

theorem any_action_iff : cell.any (·.action = α) = true ↔ α ∈ cell.map (·.action) := by
  simp only [List.any_eq_true, decide_eq_true_iff, List.mem_map]

theorem insertEntry_of_mem (h : entry.action ∈ cell.map (·.action)) :
    insertEntry g cell entry = (cell, false) :=
  if_pos <| any_action_iff.mpr h

theorem insertEntry_of_not_mem (h : entry.action ∉ cell.map (·.action)) :
    insertEntry g cell entry = (placeEntry g entry cell, !cell.isEmpty) :=
  if_neg <| mt any_action_iff.mp h

theorem mem_insertEntry (h : e ∈ (insertEntry g cell entry).1) : e ∈ cell ∨ e = entry := by
  by_cases hm : entry.action ∈ cell.map (·.action)
  case pos =>
    rw [insertEntry_of_mem hm] at h
    exact .inl h
  case neg =>
    rw [insertEntry_of_not_mem hm] at h
    exact (mem_placeEntry.mp h).symm

theorem mem_actions_insertEntry :
    α ∈ (insertEntry g cell entry).1.map (·.action) ↔
      α ∈ cell.map (·.action) ∨ α = entry.action := by
  by_cases hm : entry.action ∈ cell.map (·.action)
  case pos =>
    rw [insertEntry_of_mem hm]
    refine (or_iff_left_of_imp ?_).symm
    exact fun h => h ▸ hm
  case neg =>
    rw [insertEntry_of_not_mem hm, (placeEntry_perm.map _).mem_iff, List.map_cons, List.mem_cons,
      or_comm]

theorem nodup_insertEntry (h : (cell.map (·.action)).Nodup) :
    ((insertEntry g cell entry).1.map (·.action)).Nodup := by
  by_cases hm : entry.action ∈ cell.map (·.action)
  case pos => rwa [insertEntry_of_mem hm]
  case neg =>
    rw [insertEntry_of_not_mem hm, (placeEntry_perm.map _).nodup_iff]
    exact List.nodup_cons.mpr ⟨hm, h⟩

theorem length_insertEntry_le (hc : cell.length ≤ 1) (h : (insertEntry g cell entry).2 = false) :
    (insertEntry g cell entry).1.length ≤ 1 := by
  by_cases hm : entry.action ∈ cell.map (·.action)
  case pos => rwa [insertEntry_of_mem hm]
  case neg =>
    rw [insertEntry_of_not_mem hm] at h ⊢
    have hnil : cell = [] := by simpa using h
    simp [hnil, placeEntry]

theorem length_le_insertEntry : cell.length ≤ (insertEntry g cell entry).1.length := by
  by_cases hm : entry.action ∈ cell.map (·.action)
  case pos => exact insertEntry_of_mem hm ▸ Nat.le_refl _
  case neg =>
    rw [insertEntry_of_not_mem hm, placeEntry_perm.length_eq]
    exact Nat.le_succ _

theorem two_le_length_insertEntry (h : (insertEntry g cell entry).2 = true) :
    2 ≤ (insertEntry g cell entry).1.length := by
  by_cases hm : entry.action ∈ cell.map (·.action)
  case pos => simp [insertEntry_of_mem hm] at h
  case neg =>
    rw [insertEntry_of_not_mem hm] at h ⊢
    rw [placeEntry_perm.length_eq, List.length_cons]
    have hpos : 0 < cell.length := by simpa [List.length_pos_iff] using h
    omega

end Entries

section From

theorem mem_cellFrom (h : e ∈ cellFrom g cell entries) : e ∈ cell ∨ e ∈ entries := by
  induction entries generalizing cell
  case nil => exact .inl h
  case cons entry rest hi =>
    cases hi h
    case inl hm => exact (mem_insertEntry hm).imp_right fun he : e = entry => he ▸ .head _
    case inr hm => exact .inr <| .tail _ hm

theorem mem_actions_cellFrom : α ∈ (cellFrom g cell entries).map (·.action) ↔
    α ∈ cell.map (·.action) ∨ α ∈ entries.map (·.action) := by
  induction entries generalizing cell
  case nil => simp [cellFrom]
  case cons entry rest hi =>
    have hcons : cellFrom g cell (entry :: rest) =
        cellFrom g (insertEntry g cell entry).1 rest := rfl
    rw [hcons, hi, mem_actions_insertEntry, or_assoc, List.map_cons, List.mem_cons]

theorem nodup_cellFrom (h : (cell.map (·.action)).Nodup) :
    ((cellFrom g cell entries).map (·.action)).Nodup := by
  induction entries generalizing cell
  case nil             => exact h
  case cons entry _ hi => exact hi <| nodup_insertEntry h

end From

namespace Cells

variable {c : Cells σ} {key other : StateId × σ} {keyed : List ((StateId × σ) × Entry)}

theorem mem_insert :
    other ∈ (c.insert g key entry).1.entries ↔ other = key ∨ other ∈ c.entries := by
  simp only [insert, Std.TreeMap.mem_insert, Std.LawfulEqCmp.compare_eq_iff_eq]
  rw [eq_comm]

theorem mem_cell_insert (h : e ∈ (c.insert g key entry).1.cell other) :
    e ∈ c.cell other ∨ (other = key ∧ e = entry) := by
  by_cases ho : other = key
  case pos =>
    subst ho
    rw [cell_insert_self] at h
    exact (mem_insertEntry h).imp_right fun he => ⟨rfl, he⟩
  case neg =>
    rw [cell_insert_of_ne ho] at h
    exact .inl h

-- A key is put in front unless it has an entry.
theorem mem_keys_insert (h : key ∈ c.keys ↔ key ∈ c.entries) :
    other ∈ (c.insert g key entry).1.keys ↔ other = key ∨ other ∈ c.keys := by
  simp only [insert]
  split
  case isFalse     => exact List.mem_cons
  case isTrue hold =>
    refine (or_iff_right_of_imp fun ho => ?_).symm
    exact ho ▸ h.mpr hold

theorem nodup_keys_insert (h : key ∈ c.keys ↔ key ∈ c.entries) (hc : c.keys.Nodup) :
    (c.insert g key entry).1.keys.Nodup := by
  simp only [insert]
  split
  case isTrue       => exact hc
  case isFalse hnew => exact List.nodup_cons.mpr ⟨mt h.mp hnew, hc⟩

theorem insertAll_cons : c.insertAll g ((key, entry) :: keyed) =
    (((c.insert g key entry).1.insertAll g keyed).1,
      (c.insert g key entry).2 || ((c.insert g key entry).1.insertAll g keyed).2) :=
  rfl

theorem insert_snd : (c.insert g key entry).2 = (insertEntry g (c.cell key) entry).2 :=
  rfl

theorem cell_insertAll [DecidableEq σ] : (c.insertAll g keyed).1.cell key =
    cellFrom g (c.cell key) ((keyed.filter (·.1 = key)).map (·.2)) := by
  induction keyed generalizing c
  case nil => rfl
  case cons e keyed hi =>
    obtain ⟨other, entry⟩ := e
    rw [insertAll_cons, hi, List.filter_cons]
    by_cases hk : other = key
    case pos =>
      subst hk
      rw [cell_insert_self]
      simp [cellFrom]
    case neg =>
      rw [cell_insert_of_ne (Ne.symm hk)]
      simp [hk]

theorem mem_cell_insertAll (h : e ∈ ((empty : Cells σ).insertAll g keyed).1.cell key) :
    (key, e) ∈ keyed := by
  classical
  rw [cell_insertAll, cell_empty] at h
  have := (mem_cellFrom h).resolve_left List.not_mem_nil
  obtain ⟨⟨k, e'⟩, hk, he⟩ := List.mem_map.mp this
  obtain ⟨hm, hkey⟩ := List.mem_filter.mp hk
  have hkey : k = key := by simpa using hkey
  exact hkey ▸ (show e' = e from he) ▸ hm

theorem exists_action_cell_insertAll (h : (key, e) ∈ keyed) :
    ∃ e' ∈ ((empty : Cells σ).insertAll g keyed).1.cell key, e'.action = e.action := by
  classical
  refine List.mem_map.mp ?_
  rw [cell_insertAll, mem_actions_cellFrom]
  refine .inr <| List.mem_map.mpr ⟨e, List.mem_map.mpr ⟨(key, e), ?_, rfl⟩, rfl⟩
  exact List.mem_filter.mpr ⟨h, by simp⟩

theorem mem_actions_cell_insertAll :
    α ∈ (((empty : Cells σ).insertAll g keyed).1.cell key).map (·.action) ↔
      ∃ e, (key, e) ∈ keyed ∧ e.action = α := by
  constructor
  case mp =>
    intro h
    obtain ⟨e, he, hα⟩ := List.mem_map.mp h
    exact ⟨e, mem_cell_insertAll he, hα⟩
  case mpr =>
    rintro ⟨e, he, hα⟩
    obtain ⟨e', he', heq⟩ := exists_action_cell_insertAll (g := g) he
    exact List.mem_map.mpr ⟨e', he', heq.trans hα⟩

theorem nodup_cell_insertAll :
    ((((empty : Cells σ).insertAll g keyed).1.cell key).map (·.action)).Nodup := by
  classical
  rw [cell_insertAll, cell_empty]
  exact nodup_cellFrom List.nodup_nil

-- Without a conflict no cell gets a second entry.
theorem length_cell_insertAll_le (hc : ∀ key, (c.cell key).length ≤ 1)
    (h : (c.insertAll g keyed).2 = false) (key : StateId × σ) :
    ((c.insertAll g keyed).1.cell key).length ≤ 1 := by
  induction keyed generalizing c
  case nil => exact hc key
  case cons e keyed hi =>
    obtain ⟨k, entry⟩ := e
    rw [insertAll_cons, Bool.or_eq_false_iff, insert_snd] at h
    refine hi (c := (c.insert g k entry).1) (fun other => ?_) h.right
    by_cases ho : other = k
    case pos =>
      subst ho
      rw [cell_insert_self]
      exact length_insertEntry_le (hc other) h.left
    case neg =>
      rw [cell_insert_of_ne ho]
      exact hc other

theorem length_cell_le_insertAll {key : StateId × σ} :
    (c.cell key).length ≤ ((c.insertAll g keyed).1.cell key).length := by
  induction keyed generalizing c
  case nil => exact Nat.le_refl _
  case cons e keyed hi =>
    obtain ⟨k, entry⟩ := e
    rw [insertAll_cons]
    refine Nat.le_trans ?_ hi
    by_cases ho : key = k
    case pos =>
      rw [ho, cell_insert_self]
      exact length_le_insertEntry
    case neg => exact Nat.le_of_eq (congrArg _ (cell_insert_of_ne ho).symm)

-- A conflict stays to be seen in its cell.
theorem exists_two_le_length_of_conflict (h : (c.insertAll g keyed).2 = true) :
    ∃ key, 2 ≤ ((c.insertAll g keyed).1.cell key).length := by
  induction keyed generalizing c
  case nil => simp [insertAll] at h
  case cons e keyed hi =>
    obtain ⟨k, entry⟩ := e
    rw [insertAll_cons, Bool.or_eq_true, insert_snd] at h
    rw [insertAll_cons]
    cases h
    case inl h =>
      refine ⟨k, Nat.le_trans (two_le_length_insertEntry h) ?_⟩
      rw [← cell_insert_self]
      exact length_cell_le_insertAll
    case inr h => exact hi h

theorem conflict_insertAll_iff : ((empty : Cells σ).insertAll g keyed).2 = true ↔
    ∃ key, 2 ≤ ((empty.insertAll g keyed).1.cell key).length := by
  refine ⟨exists_two_le_length_of_conflict, fun ⟨key, hkey⟩ => ?_⟩
  by_contra hc
  have := length_cell_insertAll_le (by simp) (Bool.not_eq_true _ ▸ hc) key
  omega

end Cells
end ShiftReduce
