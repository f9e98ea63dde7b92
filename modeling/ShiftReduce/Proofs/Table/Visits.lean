import Mathlib.Data.List.Sort
import ShiftReduce.Proofs.Parser.Actions
import ShiftReduce.Proofs.Table.Actions
import ShiftReduce.Proofs.Table.Agreement
import ShiftReduce.Proofs.Worklist
import ShiftReduce.Table.Normal

namespace ShiftReduce

open Relation

-- The state that a list of actions leads to, if its best one is a shift or a goto.
def bestTarget? (actions : List Action) : Option StateId :=
  match actions.head? with
  | some (.shift q) | some (.goto q) => some q
  | _                                => none

namespace Cells

variable {σ : Type} [Numbered σ] {c d : Cells σ} {S : Set StateId} {φ : StateId → StateId}
  {g : Grammar} {key other : StateId × σ} {keyed : List ((StateId × σ) × Entry)} {entry : Entry}
  {q p : StateId} {x : σ} {actions : List Action}

def actionsAt (c : Cells σ) (q : StateId) (x : σ) : List Action :=
  (c.cell (q, x)).map (·.action)

-- What the cells hold is about the states of `S`, and every cell with a key has an entry.
structure IsClosed (S : Set StateId) (c : Cells σ) : Prop where
  nodup   : c.keys.Nodup
  keys    : ∀ key, key ∈ c.keys ↔ c.cell key ≠ []
  entries : ∀ key, key ∈ c.entries ↔ c.cell key ≠ []
  within  : ∀ {q x e}, e ∈ c.cell (q, x) → q ∈ S ∧ e.action.LeadsInto S

theorem insertEntry_ne_nil {cell : List Entry} : (insertEntry g cell entry).1 ≠ [] := by
  intro hnil
  have : entry.action ∈ (insertEntry g cell entry).1.map (·.action) :=
    mem_actions_insertEntry.mpr <| .inr rfl
  simp [hnil] at this

namespace IsClosed

theorem empty : IsClosed S (Cells.empty : Cells σ) where
  nodup    := .nil
  keys     := by simp [Cells.empty, cell]
  entries  := by simp [Cells.empty, cell]
  within h := by simp at h

theorem insert (h : IsClosed S c) (hk : IsWithin S (key, entry)) :
    IsClosed S (c.insert g key entry).1 := by
  have hcell {other} : other = key ∨ c.cell other ≠ [] ↔
      (c.insert g key entry).1.cell other ≠ [] := by
    by_cases ho : other = key
    case pos => simp [ho, cell_insert_self, insertEntry_ne_nil]
    case neg => simp [ho, cell_insert_of_ne ho]
  have hkey : key ∈ c.keys ↔ key ∈ c.entries := (h.keys key).trans (h.entries key).symm
  constructor
  case nodup   => exact nodup_keys_insert hkey h.nodup
  case keys    => exact fun other => by rw [mem_keys_insert hkey, h.keys, hcell]
  case entries => exact fun other => by rw [mem_insert, h.entries, hcell]
  case within  =>
    intro q x e he
    cases mem_cell_insert he
    case inl he => exact h.within he
    case inr he =>
      obtain ⟨rfl, rfl⟩ := he
      exact hk

theorem insertAll (h : IsClosed S c) (hk : ∀ k ∈ keyed, IsWithin S k) :
    IsClosed S (c.insertAll g keyed).1 := by
  induction keyed generalizing c
  case nil => exact h
  case cons k keyed hi =>
    obtain ⟨hkey, hrest⟩ := List.forall_mem_cons.mp hk
    exact hi (h.insert hkey) hrest

theorem mem_keys (h : IsClosed S c) : (q, x) ∈ c.keys ↔ c.actionsAt q x ≠ [] := by
  rw [h.keys, actionsAt, ne_eq, ne_eq, List.map_eq_nil_iff]

theorem mem_of_mem_keys (h : IsClosed S c) (hk : key ∈ c.keys) : key.1 ∈ S := by
  obtain ⟨e, he⟩ := List.exists_mem_of_ne_nil _ <| (h.keys key).mp hk
  exact (h.within he).left

theorem mem_symbolsOf (h : IsClosed S c) : x ∈ c.symbolsOf q ↔ c.actionsAt q x ≠ [] := by
  rw [← h.mem_keys]
  simp [symbolsOf, inOrder]

theorem nodup_symbolsOf (h : IsClosed S c) : (c.symbolsOf q).Nodup := by
  refine ((List.nodup_reverse.mpr h.nodup).filter _).map_on fun a ha b hb hab => ?_
  have ha : a.1 = q := by simpa using (List.mem_filter.mp ha).right
  have hb : b.1 = q := by simpa using (List.mem_filter.mp hb).right
  exact Prod.ext (ha.trans hb.symm) hab

theorem leadsInto {α : Action} (h : IsClosed S c) (hα : α ∈ c.actionsAt q x) : α.LeadsInto S := by
  obtain ⟨e, he, hα⟩ := List.mem_map.mp hα
  exact hα ▸ (h.within he).right

theorem getElem?_entries (h : IsClosed S c) {cell : List Entry} :
    c.entries[key]? = some cell ↔ c.cell key ≠ [] ∧ cell = c.cell key := by
  rw [← h.entries, Cells.cell, Std.TreeMap.getD_eq_getD_getElem?,
    Std.TreeMap.mem_iff_isSome_getElem?]
  cases c.entries[key]? <;> simp [eq_comm]

end IsClosed

-- The cells of one state, by symbol.
def actionRow (c : Cells σ) (q : StateId) : List (σ × List Action) :=
  (c.rowOf q).map fun k => (k.1.2, k.2.map (·.action))

theorem IsClosed.mem_actionRow (h : c.IsClosed S) :
    (x, actions) ∈ c.actionRow q ↔ c.actionsAt q x ≠ [] ∧ actions = c.actionsAt q x := by
  simp only [actionRow, rowOf, List.mem_map, List.mem_filter, Prod.exists, Prod.mk.injEq,
    Std.TreeMap.mem_toList_iff_getElem?_eq_some, h.getElem?_entries, decide_eq_true_eq]
  rw [actionsAt, ne_eq, List.map_eq_nil_iff]
  constructor
  case mp =>
    rintro ⟨p, y, cell, ⟨⟨hne, hcell⟩, hp⟩, hy, ha⟩
    subst hp hy hcell
    exact ⟨hne, ha.symm⟩
  case mpr =>
    rintro ⟨hne, ha⟩
    exact ⟨q, x, _, ⟨⟨hne, rfl⟩, rfl⟩, rfl, ha.symm⟩

theorem pairwise_actionRow :
    (c.actionRow q).Pairwise fun a b => Numbered.number a.1 < Numbered.number b.1 := by
  refine List.pairwise_map.mpr ?_
  refine (Std.TreeMap.ordered_keys_toList.filter _).imp_of_mem fun {a b} ha hb hlt => ?_
  have ha : a.1.1 = q := by simpa using (List.mem_filter.mp ha).right
  have hb : b.1.1 = q := by simpa using (List.mem_filter.mp hb).right
  rw [compareKeys, ha, hb, Nat.compare_eq_eq.mpr rfl] at hlt
  exact Nat.compare_eq_lt.mp hlt

-- The actions at the state `φ q` of `d` are those at `q` in `c`, renamed.
def Matches (φ : StateId → StateId) (S : Set StateId) (c d : Cells σ) : Prop :=
  ∀ q ∈ S, ∀ x, d.actionsAt (φ q) x = (c.actionsAt q x).map (·.relabel φ)

theorem Matches.actionRow_eq {T : Set StateId} (h : Matches φ S c d) (hc : c.IsClosed S)
    (hd : d.IsClosed T) (hq : q ∈ S) :
    d.actionRow (φ q) = (c.actionRow q).map fun a => (a.1, a.2.map (·.relabel φ)) := by
  have : Std.Irrefl fun a b : σ × List Action => Numbered.number a.1 < Numbered.number b.1 :=
    ⟨fun _ => Nat.lt_irrefl _⟩
  have : Std.Antisymm fun a b : σ × List Action => Numbered.number a.1 < Numbered.number b.1 :=
    ⟨fun _ _ h h' => absurd h' h.not_gt⟩
  refine pairwise_actionRow.eq_of_mem_iff (List.pairwise_map.mpr pairwise_actionRow) fun a => ?_
  obtain ⟨x, actions⟩ := a
  rw [hd.mem_actionRow, h q hq]
  simp only [List.mem_map, Prod.exists, Prod.mk.injEq, hc.mem_actionRow]
  constructor
  case mp =>
    rintro ⟨hne, ha⟩
    exact ⟨x, _, ⟨by simpa using hne, rfl⟩, rfl, ha.symm⟩
  case mpr =>
    rintro ⟨y, _, ⟨hne, hactions⟩, hy, ha⟩
    subst hy hactions
    exact ⟨by simpa using hne, ha.symm⟩

theorem filterMap_leadsTo? : (c.rowOf q).filterMap (ParseTable.leadsTo? ·.2) =
    (c.actionRow q).filterMap (bestTarget? ·.2) := by
  rw [actionRow, List.filterMap_map]
  congr 1
  funext k
  simp only [ParseTable.leadsTo?, Function.comp_apply, bestTarget?, List.head?_map]
  cases k.2.head?
  case none   => rfl
  case some e =>
    obtain ⟨α, r⟩ := e
    cases α <;> rfl

theorem bestTarget?_relabel :
    bestTarget? (actions.map (·.relabel φ)) = (bestTarget? actions).map φ := by
  cases actions
  case nil      => rfl
  case cons α _ => cases α <;> rfl

theorem Matches.filterMap_bestTarget? {T : Set StateId} (h : Matches φ S c d) (hc : c.IsClosed S)
    (hd : d.IsClosed T) (hq : q ∈ S) : (d.actionRow (φ q)).filterMap (bestTarget? ·.2) =
      ((c.actionRow q).filterMap (bestTarget? ·.2)).map φ := by
  rw [h.actionRow_eq hc hd hq, List.filterMap_map, List.map_filterMap]
  simp only [Function.comp_def, bestTarget?_relabel]

theorem mem_filterMap_bestTarget? (h : c.IsClosed S) :
    p ∈ (c.actionRow q).filterMap (bestTarget? ·.2) ↔
      ∃ x, bestTarget? (c.actionsAt q x) = some p := by
  simp only [List.mem_filterMap, Prod.exists, h.mem_actionRow]
  constructor
  case mp  => exact fun ⟨x, _, ⟨_, ha⟩, hp⟩ => ⟨x, ha ▸ hp⟩
  case mpr =>
    rintro ⟨x, hp⟩
    refine ⟨x, _, ⟨fun hnil => ?_, rfl⟩, hp⟩
    rw [hnil] at hp
    contradiction

theorem IsClosed.of_bestTarget? (h : c.IsClosed S) (hp : bestTarget? (c.actionsAt q x) = some p) :
    (q, x) ∈ c.keys ∧ p ∈ S := by
  rw [h.mem_keys]
  have hinto := fun α => h.leadsInto (q := q) (x := x) (α := α)
  cases hactions : c.actionsAt q x
  case nil =>
    rw [hactions] at hp
    contradiction
  case cons α _ =>
    have hinto := hinto α (hactions ▸ List.mem_cons_self)
    rw [hactions] at hp
    refine ⟨nofun, ?_⟩
    cases α <;> cases hp <;> exact hinto

-- As many keys are enough for all targets.
theorem IsClosed.exists_targets (h : c.IsClosed S) : ∃ all : List StateId,
    all.length ≤ c.size ∧ ∀ q x p, bestTarget? (c.actionsAt q x) = some p → p ∈ all := by
  refine ⟨c.keys.filterMap fun k => bestTarget? (c.actionsAt k.1 k.2), ?_, fun q x p hp => ?_⟩
  · exact List.length_filterMap_le ..
  · exact List.mem_filterMap.mpr ⟨(q, x), (h.of_bestTarget? hp).left, hp⟩

theorem Matches.size_eq {T : Set StateId} (h : Matches φ S c d) (hφ : Set.InjOn φ S)
    (hT : ∀ p ∈ T, ∃ q ∈ S, φ q = p) (hc : c.IsClosed S) (hd : d.IsClosed T) :
    d.size = c.size := by
  have hnodup : (c.keys.map fun k => (φ k.1, k.2)).Nodup := by
    refine hc.nodup.map_on fun k hk k' hk' he => ?_
    obtain ⟨hq, hx⟩ := Prod.mk.inj he
    exact Prod.ext (hφ (hc.mem_of_mem_keys hk) (hc.mem_of_mem_keys hk') hq) hx
  have hperm : d.keys.Perm (c.keys.map fun k => (φ k.1, k.2)) := by
    refine (List.perm_ext_iff_of_nodup hd.nodup hnodup).mpr fun k => ?_
    obtain ⟨p, x⟩ := k
    simp only [List.mem_map, Prod.exists, Prod.mk.injEq]
    constructor
    case mp =>
      intro hk
      obtain ⟨q, hq, hqp⟩ := hT p <| hd.mem_of_mem_keys hk
      subst hqp
      rw [hd.mem_keys, h q hq, ne_eq, List.map_eq_nil_iff] at hk
      exact ⟨q, x, hc.mem_keys.mpr hk, rfl, rfl⟩
    case mpr =>
      rintro ⟨q, y, hk, hqp, hy⟩
      subst hqp hy
      rw [hd.mem_keys, h q <| hc.mem_of_mem_keys hk, ne_eq, List.map_eq_nil_iff]
      exact hc.mem_keys.mp hk
  rw [size, size, hperm.length_eq, List.length_map]

end Cells

namespace ParseTable

def gotosAt (t : ParseTable) (q : StateId) (y : Nonterminal) : List Action :=
  (t.gotoCell q y).map (·.action)

-- A best action leads from one state to the other.
def LeadsTo (t : ParseTable) (p q : StateId) : Prop :=
  (∃ x, t.action? p x = some (.shift q)) ∨ ∃ y, t.goto? p y = some q

def IsFound (t : ParseTable) : StateId → Prop :=
  ReflTransGen t.LeadsTo .start

structure IsClosed (t : ParseTable) : Prop where
  start   : .start ∈ t.states
  actions : t.actions.IsClosed {q | q ∈ t.states}
  gotos   : t.gotos.IsClosed {q | q ∈ t.states}
  shifts  : ∀ {q x p}, t.action? q x ≠ some (.goto p)
  targets : ∀ {q y p}, bestTarget? (t.gotosAt q y) = some p → t.goto? q y = some p

variable {t u : ParseTable} {p q : StateId} {φ : StateId → StateId}

theorem goto?_eq_some_of {y : Nonterminal} (h : t.goto? p y = some q) :
    bestTarget? (t.gotosAt p y) = some q := by
  rw [goto?] at h
  split at h
  case h_1 he =>
    rw [bestTarget?, gotosAt, List.head?_map, he]
    exact h
  case h_2 => contradiction

theorem IsClosed.mem_successors (h : t.IsClosed) : q ∈ t.successors p ↔ t.LeadsTo p q := by
  rw [successors, List.mem_append, Cells.filterMap_leadsTo?, Cells.filterMap_leadsTo?,
    Cells.mem_filterMap_bestTarget? h.actions, Cells.mem_filterMap_bestTarget? h.gotos]
  have hhead {x} : (t.actions.actionsAt p x).head? = t.action? p x := List.head?_map
  refine or_congr (exists_congr fun x => ?_) (exists_congr fun y => ⟨h.targets, goto?_eq_some_of⟩)
  rw [bestTarget?, hhead]
  cases ha : t.action? p x
  case none => simp
  case some α =>
    cases α
    case goto p' => exact absurd ha h.shifts
    all_goals simp

theorem IsClosed.mem_visitOrder_iff (h : t.IsClosed) : q ∈ t.visitOrder ↔ t.IsFound q := by
  obtain ⟨all, hall, hmem⟩ := h.actions.exists_targets
  obtain ⟨all', hall', hmem'⟩ := h.gotos.exists_targets
  have hstart : t.initialState ∈ .start :: (all ++ all') := .head _
  rw [visitOrder_eq, Worklist.mem_traverse_iff hstart]
  · simp only [h.mem_successors]
    rfl
  · intro p q hq
    rw [successors, List.mem_append, Cells.filterMap_leadsTo?, Cells.filterMap_leadsTo?,
      Cells.mem_filterMap_bestTarget? h.actions, Cells.mem_filterMap_bestTarget? h.gotos] at hq
    refine .tail _ <| List.mem_append.mpr <| hq.imp ?_ ?_
    · exact fun ⟨x, hx⟩ => hmem p x q hx
    · exact fun ⟨y, hy⟩ => hmem' p y q hy
  · simp only [List.length_cons, List.length_append]
    omega

-- One table with the states of another under new names. The start state keeps its name.
structure Matches (φ : StateId → StateId) (t u : ParseTable) : Prop where
  start   : φ .start = .start
  injOn   : Set.InjOn φ {q | q ∈ t.states}
  states  : ∀ p, p ∈ u.states ↔ ∃ q ∈ t.states, φ q = p
  actions : ∀ q ∈ t.states, ∀ x, u.actionsAt (φ q) x = (t.actionsAt q x).map (·.relabel φ)
  gotos   : ∀ q ∈ t.states, ∀ y, u.gotosAt (φ q) y = (t.gotosAt q y).map (·.relabel φ)

theorem IsClosed.mem_states_of_mem_successors (h : t.IsClosed) (hq : q ∈ t.successors p) :
    q ∈ t.states := by
  rw [successors, List.mem_append, Cells.filterMap_leadsTo?, Cells.filterMap_leadsTo?,
    Cells.mem_filterMap_bestTarget? h.actions, Cells.mem_filterMap_bestTarget? h.gotos] at hq
  cases hq
  case inl hx => exact (h.actions.of_bestTarget? hx.choose_spec).right
  case inr hy => exact (h.gotos.of_bestTarget? hy.choose_spec).right

-- The states are visited in the same order.
theorem Matches.visitOrder_eq (h : t.Matches φ u) (ht : t.IsClosed) (hu : u.IsClosed) :
    u.visitOrder = t.visitOrder.map φ := by
  have honto : ∀ p ∈ {p | p ∈ u.states}, ∃ q ∈ {q | q ∈ t.states}, φ q = p :=
    fun p hp => (h.states p).mp hp
  have hactions : t.actions.Matches φ {q | q ∈ t.states} u.actions := h.actions
  have hgotos : t.gotos.Matches φ {q | q ∈ t.states} u.gotos := h.gotos
  have hstart : (Worklist.ofList [t.initialState]).map φ = .ofList [u.initialState] := by
    have : (Worklist.ofList [StateId.start]).map φ = .ofList [φ .start] := rfl
    rwa [h.start] at this
  rw [ParseTable.visitOrder_eq, ParseTable.visitOrder_eq,
    hactions.size_eq h.injOn honto ht.actions hu.actions,
    hgotos.size_eq h.injOn honto ht.gotos hu.gotos, ← hstart]
  refine Worklist.traverse_map h.injOn ?_ ?_ (fun _ _ _ => ht.mem_states_of_mem_successors) ?_
  · exact fun q hq => List.mem_singleton.mp hq ▸ ht.start
  · exact fun q hq => List.mem_singleton.mp hq ▸ ht.start
  · intro q hq
    rw [successors, successors, List.map_append, Cells.filterMap_leadsTo?,
      Cells.filterMap_leadsTo?, Cells.filterMap_leadsTo?, Cells.filterMap_leadsTo?,
      hactions.filterMap_bestTarget? ht.actions hu.actions hq,
      hgotos.filterMap_bestTarget? ht.gotos hu.gotos hq]

theorem IsClosed.mem_expected (h : t.IsClosed) {x : Terminal} :
    x ∈ t.expected p ↔ ∃ α, t.action? p x = some α := by
  rw [expected, h.actions.mem_symbolsOf, action?, actionCell, Cells.actionsAt]
  cases t.actions.cell (p, x) <;> simp

end ParseTable

theorem IsTableOf.mem_states_iff {ctx : Context} {a : Automaton} {t : ParseTable} {q : StateId}
    (h : IsTableOf ctx a t) : q ∈ t.states ↔ q ∈ a.liveStates := by
  simp [h.states, Automaton.mem_states, Automaton.mem_liveStates]

theorem IsTableOf.isClosed {ctx : Context} {a : Automaton} {t : ParseTable} (h : IsTableOf ctx a t)
    (hg : ctx.grammar.WellFormed) (hc : a.Coherent ctx) : t.IsClosed := by
  have hstates : {q | q ∈ t.states} = a.liveStates := Set.ext fun q => h.mem_states_iff
  have hconn : a.IsConnected := by
    intro q n hn e he
    obtain ⟨m, hm, _⟩ := hc.targets hn he
    exact Automaton.mem_liveStates.mpr ⟨m, hm⟩
  constructor
  case start =>
    obtain ⟨n, hn, _⟩ := hc.start
    exact h.mem_states_iff.mpr <| Automaton.mem_liveStates.mpr ⟨n, hn⟩
  case actions =>
    rw [hstates, h.actions]
    refine Cells.IsClosed.empty.insertAll fun k hk => (List.mem_append.mp hk).elim ?_ ?_
    · exact Automaton.isWithin_shiftEntries hc.cut hconn k
    · exact Automaton.isWithin_reduceEntries k
  case gotos =>
    rw [hstates, h.gotos]
    exact Cells.IsClosed.empty.insertAll <| Automaton.isWithin_gotoEntries hc.cut hconn
  case shifts  => exact h.action?_ne_goto hg hc
  case targets =>
    intro q y p hp
    have hgoto : ∀ e ∈ t.gotoCell q y, ∃ p, e.action = .goto p := by
      intro e he
      obtain ⟨edge, _, _, he⟩ := mem_gotoEntries.mp <| h.mem_gotoCell he
      exact ⟨edge.target, by rw [he]⟩
    rw [ParseTable.gotosAt] at hp
    rw [ParseTable.goto?]
    generalize t.gotoCell q y = cell at hp hgoto
    cases cell
    case nil => contradiction
    case cons e _ =>
      obtain ⟨p', hp'⟩ := hgoto e (.head _)
      obtain ⟨α, r⟩ := e
      cases hp'
      exact hp

end ShiftReduce
