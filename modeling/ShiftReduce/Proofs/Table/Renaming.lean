import Mathlib.Data.Set.Function
import ShiftReduce.Proofs.Table.Cells

namespace ShiftReduce

def Entry.rename (φ : StateId → StateId) (e : Entry) : Entry where
  action := e.action.relabel φ
  rule   := e.rule

-- The states that an action leads to.
def Action.LeadsInto (S : Set StateId) : Action → Prop
  | .shift q | .goto q => q ∈ S
  | _                  => True

variable {σ : Type} [Numbered σ] {φ : StateId → StateId} {S : Set StateId} {g : Grammar}
  {cell : List Entry} {entry e e' : Entry} {α β : Action}

section Entries

theorem Action.relabel_injOn (hφ : Set.InjOn φ S) (hα : α.LeadsInto S) (hβ : β.LeadsInto S)
    (h : α.relabel φ = β.relabel φ) : α = β := by
  cases α <;> cases β <;> simp only [relabel, reduceCtorEq, shift.injEq, goto.injEq] at h ⊢
  case shift.shift => exact hφ hα hβ h
  case goto.goto   => exact hφ hα hβ h
  case reduce.reduce => exact h

theorem rank_rename : rank g (e.rename φ) (e'.rename φ) = rank g e e' := by
  obtain ⟨α, r⟩ := e
  obtain ⟨β, r'⟩ := e'
  cases α <;> cases β <;> rfl

theorem placeEntry_rename : placeEntry g (entry.rename φ) (cell.map (Entry.rename φ)) =
    (placeEntry g entry cell).map (Entry.rename φ) := by
  induction cell
  case nil => rfl
  case cons e rest hi =>
    rw [List.map_cons, placeEntry, placeEntry, rank_rename, hi]
    split <;> rfl

theorem insertEntry_rename (hφ : Set.InjOn φ S) (hc : ∀ e ∈ cell, e.action.LeadsInto S)
    (he : entry.action.LeadsInto S) :
    insertEntry g (cell.map (Entry.rename φ)) (entry.rename φ) =
      ((insertEntry g cell entry).1.map (Entry.rename φ), (insertEntry g cell entry).2) := by
  by_cases hm : entry.action ∈ cell.map (·.action)
  case pos =>
    obtain ⟨e, hmem, hact⟩ := List.mem_map.mp hm
    have hm' : (entry.rename φ).action ∈ (cell.map (Entry.rename φ)).map (·.action) := by
      refine List.mem_map.mpr ⟨e.rename φ, List.mem_map_of_mem hmem, ?_⟩
      exact congrArg (Action.relabel φ) hact
    rw [insertEntry_of_mem hm, insertEntry_of_mem hm']
  case neg =>
    have hm' : (entry.rename φ).action ∉ (cell.map (Entry.rename φ)).map (·.action) := by
      intro h
      obtain ⟨_, hmem, hact⟩ := List.mem_map.mp h
      obtain ⟨e, he', hr⟩ := List.mem_map.mp hmem
      subst hr
      exact hm <| List.mem_map.mpr ⟨e, he', Action.relabel_injOn hφ (hc e he') he hact⟩
    rw [insertEntry_of_not_mem hm, insertEntry_of_not_mem hm', placeEntry_rename, List.isEmpty_map]

end Entries

-- An entry with its key.
def renameKeyed (φ : StateId → StateId) (k : (StateId × σ) × Entry) : (StateId × σ) × Entry :=
  ((φ k.1.1, k.1.2), k.2.rename φ)

def IsWithin (S : Set StateId) (k : (StateId × σ) × Entry) : Prop :=
  k.1.1 ∈ S ∧ k.2.action.LeadsInto S

namespace Cells

-- The cells of `d` are those of `c`, renamed.
structure Renamed (φ : StateId → StateId) (S : Set StateId) (c d : Cells σ) : Prop where
  keys : d.keys = c.keys.map fun k => (φ k.1, k.2)
  mem  : ∀ {q x}, q ∈ S → ((φ q, x) ∈ d.entries ↔ (q, x) ∈ c.entries)
  cell : ∀ {q x}, q ∈ S → d.cell (φ q, x) = (c.cell (q, x)).map (Entry.rename φ)
  into : ∀ {q x e}, q ∈ S → e ∈ c.cell (q, x) → e.action.LeadsInto S

variable {c d : Cells σ} {k : (StateId × σ) × Entry} {keyed : List ((StateId × σ) × Entry)}
  {q : StateId} {x : σ}

namespace Renamed

theorem empty : Renamed φ S (Cells.empty : Cells σ) Cells.empty where
  keys     := rfl
  mem _    := by simp [Cells.empty]
  cell _   := by simp
  into _ h := by simp at h

theorem key_eq_iff {σ : Type} {x y : σ} {p : StateId} (hφ : Set.InjOn φ S) (hp : p ∈ S)
    (hq : q ∈ S) : (φ p, y) = (φ q, x) ↔ (p, y) = (q, x) := by
  simp only [Prod.mk.injEq]
  exact and_congr_left fun _ => hφ.eq_iff hp hq

theorem insert (hφ : Set.InjOn φ S) (h : Renamed φ S c d) (hq : q ∈ S)
    (he : e.action.LeadsInto S) :
    Renamed φ S (c.insert g (q, x) e).1 (d.insert g (φ q, x) (e.rename φ)).1 ∧
      (d.insert g (φ q, x) (e.rename φ)).2 = (c.insert g (q, x) e).2 := by
  have hentry : insertEntry g (d.cell (φ q, x)) (e.rename φ) =
      ((insertEntry g (c.cell (q, x)) e).1.map (Entry.rename φ),
        (insertEntry g (c.cell (q, x)) e).2) := by
    rw [h.cell hq]
    exact insertEntry_rename hφ (fun _ => h.into hq) he
  refine ⟨?_, by rw [insert_snd, insert_snd, hentry]⟩
  constructor
  case keys =>
    simp only [Cells.insert, h.mem hq]
    split
    · exact h.keys
    · simp [h.keys]
  case mem =>
    intro p y hp
    rw [mem_insert, mem_insert, key_eq_iff hφ hp hq, h.mem hp]
  case cell =>
    intro p y hp
    by_cases hk : (p, y) = (q, x)
    case pos =>
      obtain ⟨hpq, hyx⟩ := Prod.mk.inj hk
      rw [hpq, hyx, cell_insert_self, cell_insert_self, hentry]
    case neg =>
      rw [cell_insert_of_ne hk, cell_insert_of_ne (mt (key_eq_iff hφ hp hq).mp hk), h.cell hp]
  case into =>
    intro p y e' hp hm
    cases mem_cell_insert hm
    case inl hm => exact h.into hp hm
    case inr hm => exact hm.right ▸ he

theorem insertAll (hφ : Set.InjOn φ S) (h : Renamed φ S c d) (hk : ∀ k ∈ keyed, IsWithin S k) :
    Renamed φ S (c.insertAll g keyed).1 (d.insertAll g (keyed.map (renameKeyed φ))).1 ∧
      (d.insertAll g (keyed.map (renameKeyed φ))).2 = (c.insertAll g keyed).2 := by
  induction keyed generalizing c d
  case nil => exact ⟨h, rfl⟩
  case cons k keyed hi =>
    obtain ⟨⟨q, x⟩, e⟩ := k
    obtain ⟨hkey, hrest⟩ := List.forall_mem_cons.mp hk
    obtain ⟨hinsert, hconflict⟩ := h.insert (g := g) (x := x) hφ hkey.left hkey.right
    obtain ⟨hall, hconflicts⟩ := hi hinsert hrest
    have hcons : (((q, x), e) :: keyed).map (renameKeyed φ) =
        ((φ q, x), e.rename φ) :: keyed.map (renameKeyed φ) := rfl
    rw [hcons, insertAll_cons, insertAll_cons, hconflict, hconflicts]
    exact ⟨hall, rfl⟩

end Renamed
end Cells
end ShiftReduce
