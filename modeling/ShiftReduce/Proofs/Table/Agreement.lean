import ShiftReduce.Proofs.Construction.Renaming
import ShiftReduce.Proofs.Table.Entries
import ShiftReduce.Proofs.Table.Renaming

namespace ShiftReduce

-- Equal conflicts, equal cells, and the cells got their first entries in the same order.
structure ParseTable.Renamed (φ : StateId → StateId) (t u : ParseTable) : Prop where
  states     : u.states = t.states.map φ
  conflict   : u.conflict = t.conflict
  actions    : ∀ q ∈ t.states, ∀ x, u.actionCell (φ q) x = (t.actionCell q x).map (Entry.rename φ)
  gotos      : ∀ q ∈ t.states, ∀ n, u.gotoCell (φ q) n = (t.gotoCell q n).map (Entry.rename φ)
  actionKeys : u.actions.inOrder = t.actions.inOrder.map fun k => (φ k.1, k.2)
  gotoKeys   : u.gotos.inOrder = t.gotos.inOrder.map fun k => (φ k.1, k.2)

namespace Automaton

variable {ctx : Context} {g : Grammar} {a b : Automaton} {t u : ParseTable} {q : StateId} {i : Item}
  {alg alg' : Algorithm} {φ : StateId → StateId} {σ : Type} {ofKind? : Symbol → Option σ}
  {action : StateId → Action}

-- Every transition leads to a live state.
def IsConnected (a : Automaton) : Prop :=
  ∀ q n, a.node? q = some n → ∀ e ∈ n.edges, e.target ∈ a.liveStates

theorem live_of_mem_transitions {e : Edge} (hcut : a.IsCut) (hconn : a.IsConnected)
    (h : (q, e) ∈ a.transitions) : q ∈ a.liveStates ∧ e.target ∈ a.liveStates := by
  obtain ⟨n, hn, he⟩ := (mem_transitions_iff hcut).mp h
  exact ⟨mem_liveStates.mpr ⟨n, hn⟩, hconn q n hn e he⟩

theorem isWithin_entriesOn (hcut : a.IsCut) (hconn : a.IsConnected)
    (haction : ∀ p ∈ a.liveStates, (action p).LeadsInto a.liveStates) :
    ∀ k ∈ a.entriesOn ofKind? action, IsWithin a.liveStates k := by
  rintro ⟨⟨q, z⟩, e⟩ hk
  obtain ⟨edge, hedge, _, he⟩ := mem_entriesOn.mp hk
  obtain ⟨hq, htarget⟩ := live_of_mem_transitions hcut hconn hedge
  exact he ▸ ⟨hq, haction _ htarget⟩

theorem isWithin_shiftEntries (hcut : a.IsCut) (hconn : a.IsConnected) :
    ∀ k ∈ a.shiftEntries, IsWithin a.liveStates k :=
  shiftEntries_eq ▸ isWithin_entriesOn hcut hconn fun _ => id

theorem isWithin_gotoEntries (hcut : a.IsCut) (hconn : a.IsConnected) :
    ∀ k ∈ a.gotoEntries, IsWithin a.liveStates k :=
  gotoEntries_eq ▸ isWithin_entriesOn hcut hconn fun _ => id

theorem isWithin_reduceEntries : ∀ k ∈ a.reduceEntries g, IsWithin a.liveStates k := by
  rintro ⟨⟨q, x⟩, e⟩ hk
  obtain ⟨n, hn, i, _, _, _, he⟩ := mem_reduceEntries.mp hk
  subst he
  refine ⟨mem_liveStates.mpr ⟨n, hn⟩, ?_⟩
  rw [completion]
  split <;> trivial

theorem completeEntries_rename (h : alg ≠ .lr0) (h' : alg' ≠ .lr0) :
    completeEntries g alg (φ q) i = (completeEntries g alg' q i).map (renameKeyed φ) := by
  rw [completeEntries, completeEntries]
  split
  case isFalse => rfl
  case isTrue =>
    split
    case isTrue  => rfl
    case isFalse => simp [reduceOn_eq h, reduceOn_eq h', renameKeyed, Entry.rename, Action.relabel]

namespace Renamed

theorem entriesOn (h : Renamed φ a b) (ha : a.IsCut) (hb : b.IsCut)
    (haction : ∀ p, (action p).relabel φ = action (φ p)) :
    b.entriesOn ofKind? action = (a.entriesOn ofKind? action).map (renameKeyed φ) := by
  rw [Automaton.entriesOn, Automaton.entriesOn, h.transitions ha hb, List.filterMap_map,
    List.map_filterMap]
  congr 1
  funext s
  obtain ⟨q, e⟩ := s
  simp only [Function.comp_apply, Edge.rename]
  cases ofKind? e.symbol <;> simp [renameKeyed, Entry.rename, haction]

theorem shiftEntries (h : Renamed φ a b) (ha : a.IsCut) (hb : b.IsCut) :
    b.shiftEntries = a.shiftEntries.map (renameKeyed φ) := by
  rw [shiftEntries_eq, shiftEntries_eq, h.entriesOn ha hb fun _ => rfl]

theorem gotoEntries (h : Renamed φ a b) (ha : a.IsCut) (hb : b.IsCut) :
    b.gotoEntries = a.gotoEntries.map (renameKeyed φ) := by
  rw [gotoEntries_eq, gotoEntries_eq, h.entriesOn ha hb fun _ => rfl]

theorem reduceEntries (h : Renamed φ a b) (ha : a.algorithm ≠ .lr0) (hb : b.algorithm ≠ .lr0) :
    b.reduceEntries g = (a.reduceEntries g).map (renameKeyed φ) := by
  have hmap := h.map_states
    (f := fun s => (s.2.items.closure.flatMap (completeEntries g a.algorithm s.1)).map
      (renameKeyed φ))
    (g := fun s => s.2.items.closure.flatMap (completeEntries g b.algorithm s.1))
    fun q n m _ hclosure _ => by
      simp only [hclosure, List.map_flatMap]
      exact congrArg (n.items.closure.flatMap ·) <| funext fun i => completeEntries_rename hb ha
  rw [Automaton.reduceEntries, Automaton.reduceEntries, List.flatMap_def, List.flatMap_def, hmap,
    List.map_flatten, List.map_map]
  rfl

theorem table (h : Renamed φ a b) (ha : a.IsCut) (hb : b.IsCut) (hconn : a.IsConnected)
    (halg : a.algorithm ≠ .lr0) (halg' : b.algorithm ≠ .lr0) (ht : IsTableOf ctx a t)
    (hu : IsTableOf ctx b u) : t.Renamed φ u := by
  have hactionEntries : b.shiftEntries ++ b.reduceEntries ctx.grammar =
      (a.shiftEntries ++ a.reduceEntries ctx.grammar).map (renameKeyed φ) := by
    rw [h.shiftEntries ha hb, h.reduceEntries halg halg', List.map_append]
  have hwithin : ∀ k ∈ a.shiftEntries ++ a.reduceEntries ctx.grammar, IsWithin a.liveStates k := by
    intro k hk
    exact (List.mem_append.mp hk).elim (isWithin_shiftEntries ha hconn k) (isWithin_reduceEntries k)
  obtain ⟨hactions, hconflict⟩ :=
    Cells.Renamed.empty.insertAll (g := ctx.grammar) h.injOn hwithin
  obtain ⟨hgotos, hconflict'⟩ :=
    Cells.Renamed.empty.insertAll (g := ctx.grammar) h.injOn (isWithin_gotoEntries ha hconn)
  rw [← hactionEntries, ← ht.actions, ← hu.actions] at hactions
  rw [← h.gotoEntries ha hb, ← ht.gotos, ← hu.gotos] at hgotos
  rw [← hactionEntries] at hconflict
  rw [← h.gotoEntries ha hb] at hconflict'
  have hlive : ∀ q ∈ t.states, q ∈ a.liveStates := by
    intro q hq
    rw [ht.states] at hq
    obtain ⟨s, hs, hsq⟩ := List.mem_map.mp hq
    exact hsq ▸ mem_liveStates_of_mem_states hs
  constructor
  case states     => rw [hu.states, ht.states, h.states, List.map_map]; rfl
  case conflict   => rw [hu.conflict, ht.conflict, hconflict, hconflict']
  case actions    => exact fun q hq x => hactions.cell (hlive q hq)
  case gotos      => exact fun q hq n => hgotos.cell (hlive q hq)
  case actionKeys => rw [Cells.inOrder, Cells.inOrder, hactions.keys, List.map_reverse]
  case gotoKeys   => rw [Cells.inOrder, Cells.inOrder, hgotos.keys, List.map_reverse]

end Renamed
end Automaton
end ShiftReduce
