import ShiftReduce.Proofs.Collection.Connection
import ShiftReduce.Proofs.Lalr.Agreement
import ShiftReduce.Proofs.Parser.Completeness
import ShiftReduce.Proofs.Table.Visits

namespace ShiftReduce

namespace ParseTable

section Numbers

variable {order : List StateId} {S : Set StateId} {φ : StateId → StateId} {p q : StateId}

theorem exists_findIdx? (h : q ∈ order) :
    ∃ i, order.findIdx? (· = q) = some i ∧ order[i]? = some q := by
  obtain ⟨i, hi⟩ : ∃ i, order.findIdx? (· = q) = some i := by
    rw [← Option.isSome_iff_exists, List.findIdx?_isSome]
    simpa using h
  obtain ⟨hlt, hq, _⟩ := List.findIdx?_eq_some_iff_getElem.mp hi
  exact ⟨i, hi, by rw [List.getElem?_eq_getElem hlt, of_decide_eq_true hq]⟩

theorem renumber_of_mem (h : q ∈ order) : order[(renumber order q).number]? = some q := by
  obtain ⟨i, hi, hq⟩ := exists_findIdx? h
  rwa [renumber, hi]

theorem renumber_of_not_mem (h : q ∉ order) : renumber order q = q := by
  have hnone : order.findIdx? (· = q) = none := by
    refine List.findIdx?_eq_none_iff.mpr fun p hp => ?_
    have hne : p ≠ q := fun he => h <| he ▸ hp
    simpa using hne
  rw [renumber, hnone]

theorem renumber_map (hφ : Set.InjOn φ S) (ho : ∀ q ∈ order, q ∈ S) (h : q ∈ order) :
    renumber (order.map φ) (φ q) = renumber order q := by
  have hfind : (order.map φ).findIdx? (· = φ q) = order.findIdx? (· = q) := by
    rw [List.findIdx?_map]
    refine findIdx?_congr fun p hp => ?_
    simpa using hφ.eq_iff (ho p hp) (ho q h)
  obtain ⟨i, hi, _⟩ := exists_findIdx? h
  rw [renumber, renumber, hfind, hi]

-- The numbers are different, unless one that was kept has been handed out again.
theorem injOn_renumber_iff (hnodup : order.Nodup) (ho : ∀ q ∈ order, q ∈ S) :
    Set.InjOn (renumber order) S ↔ ∀ q ∈ S, q ∉ order → order.length ≤ q.number := by
  constructor
  case mp =>
    intro hinj q hq hmem
    by_contra hlt
    have hget : order[q.number]? = some order[q.number] :=
      List.getElem?_eq_getElem <| Nat.lt_of_not_le hlt
    have hfound := List.mem_of_getElem? hget
    have hnumber := (List.getElem?_inj (Nat.lt_of_not_le hlt) hnodup).mp <|
      hget.trans (renumber_of_mem hfound).symm
    have he : renumber order order[q.number] = renumber order q := by
      rw [renumber_of_not_mem hmem]
      exact congrArg StateId.mk hnumber.symm
    exact hmem <| hinj (ho _ hfound) hq he ▸ hfound
  case mpr =>
    intro hkept p hp q hq he
    have hclash {p q : StateId} (hp : p ∈ order) (hq : q ∈ S) (hmem : q ∉ order)
        (he : renumber order p = q) : False := by
      have hlt := (List.getElem?_eq_some_iff.mp <| renumber_of_mem hp).choose
      rw [he] at hlt
      exact absurd (hkept q hq hmem) (Nat.not_le.mpr hlt)
    by_cases hpo : p ∈ order <;> by_cases hqo : q ∈ order
    case pos =>
      have hp := renumber_of_mem hpo
      rw [he, renumber_of_mem hqo] at hp
      exact (Option.some.inj hp).symm
    case neg => exact (hclash hpo hq hqo <| he.trans <| renumber_of_not_mem hqo).elim
    case pos => exact (hclash hqo hp hpo <| he.symm.trans <| renumber_of_not_mem hpo).elim
    case neg => rwa [renumber_of_not_mem hpo, renumber_of_not_mem hqo] at he

end Numbers

section Cells

variable {σ : Type} [Numbered σ] {β : Type} {c d : Cells σ} {S T : Set StateId}
  {order : List StateId} {φ : StateId → StateId} {p q : StateId} {x : σ} {actions : List Action}

-- Cells with different keys do not overwrite each other.
theorem getElem?_foldl_insert {cells : List ((StateId × σ) × β)} {key : StateId × σ} {b : β}
    {m : Std.TreeMap (StateId × σ) β compareKeys} (hnodup : (cells.map Prod.fst).Nodup) :
    (cells.foldl (fun m c => m.insert c.1 c.2) m)[key]? = some b ↔
      (key, b) ∈ cells ∨ (key ∉ cells.map Prod.fst ∧ m[key]? = some b) := by
  induction cells generalizing m
  case nil => simp
  case cons cell cells hi =>
    obtain ⟨k, b'⟩ := cell
    obtain ⟨(hnew : k ∉ cells.map Prod.fst), hnodup⟩ := List.nodup_cons.mp hnodup
    rw [List.foldl_cons, hi hnodup, Std.TreeMap.getElem?_insert]
    simp only [Std.LawfulEqCmp.compare_eq_iff_eq]
    by_cases hk : k = key
    case pos =>
      subst hk
      have hmem : (k, b) ∉ cells := fun h => hnew <| List.mem_map_of_mem h
      simpa [hmem, hnew] using eq_comm
    case neg => simp [hk, Ne.symm hk]

theorem normalCells_eq_foldl : normalCells order c = ((c.inOrder.map fun key =>
    ((renumber order key.1, key.2),
      (c.actionsAt key.1 key.2).map (·.relabel (renumber order)))).foldl
        (fun m c => m.insert c.1 c.2)
        (∅ : Std.TreeMap (StateId × σ) (List Action) compareKeys)).toList := by
  simp [normalCells, Cells.actionsAt, Function.comp_def]

theorem mem_normalCells (hc : c.IsClosed S) (hinj : Set.InjOn (renumber order) S) :
    ((p, x), actions) ∈ normalCells order c ↔ ∃ q ∈ S, renumber order q = p ∧
      c.actionsAt q x ≠ [] ∧ actions = (c.actionsAt q x).map (·.relabel (renumber order)) := by
  have hmem {key} : key ∈ c.inOrder ↔ key ∈ c.keys := List.mem_reverse
  rw [normalCells_eq_foldl, Std.TreeMap.mem_toList_iff_getElem?_eq_some, getElem?_foldl_insert]
  · simp only [List.mem_map, Prod.exists, Prod.mk.injEq, hmem, hc.mem_keys]
    constructor
    case mp =>
      intro h
      obtain ⟨q, y, hne, ⟨hq, hy⟩, ha⟩ := h.resolve_right (by simp)
      subst hy
      exact ⟨q, hc.mem_of_mem_keys (hc.mem_keys.mpr hne), hq, hne, ha.symm⟩
    case mpr =>
      rintro ⟨q, _, hq, hne, ha⟩
      exact .inl ⟨q, x, hne, ⟨hq, rfl⟩, ha.symm⟩
  · rw [List.map_map]
    refine (List.nodup_reverse.mpr hc.nodup).map_on fun k hk k' hk' he => ?_
    obtain ⟨hq, hx⟩ := Prod.mk.inj he
    refine Prod.ext (hinj ?_ ?_ hq) hx
    · exact hc.mem_of_mem_keys <| hmem.mp hk
    · exact hc.mem_of_mem_keys <| hmem.mp hk'

theorem pairwise_normalCells :
    (normalCells order c).Pairwise fun a b => compareKeys a.1 b.1 = .lt :=
  Std.TreeMap.ordered_keys_toList

theorem relabel_relabel {ψ ρ : StateId → StateId} {α : Action} (hα : α.LeadsInto S)
    (h : ∀ q ∈ S, ρ (φ q) = ψ q) : (α.relabel φ).relabel ρ = α.relabel ψ := by
  cases α
  case shift q | goto q => simp [Action.relabel, h q hα]
  case reduce | accept  => rfl

-- If what is kept is the same number, then so is every number.
theorem normalCells_map (h : c.Matches φ S d) (hc : c.IsClosed S) (hd : d.IsClosed T)
    (hT : ∀ p, p ∈ T ↔ ∃ q ∈ S, φ q = p) (hinj : Set.InjOn (renumber order) S)
    (hnumber : ∀ q ∈ S, renumber (order.map φ) (φ q) = renumber order q) :
    normalCells (order.map φ) d = normalCells order c := by
  have : Std.Irrefl fun a b : (StateId × σ) × List Action => compareKeys a.1 b.1 = .lt :=
    ⟨fun a h => by simp [Std.ReflCmp.compare_self] at h⟩
  have : Std.Antisymm fun a b : (StateId × σ) × List Action => compareKeys a.1 b.1 = .lt :=
    ⟨fun a b h h' => absurd h' <| Std.OrientedCmp.not_lt_of_lt h⟩
  have hinj' : Set.InjOn (renumber (order.map φ)) T := by
    intro p hp q hq he
    obtain ⟨p', hp', hpp⟩ := (hT p).mp hp
    obtain ⟨q', hq', hqq⟩ := (hT q).mp hq
    subst hpp hqq
    rw [hnumber p' hp', hnumber q' hq'] at he
    rw [hinj hp' hq' he]
  refine pairwise_normalCells.eq_of_mem_iff pairwise_normalCells fun cell => ?_
  obtain ⟨⟨p, x⟩, actions⟩ := cell
  rw [mem_normalCells hd hinj', mem_normalCells hc hinj]
  have hrelabel {q} (hq : q ∈ S) : (d.actionsAt (φ q) x).map (·.relabel (renumber (order.map φ))) =
      (c.actionsAt q x).map (·.relabel (renumber order)) := by
    rw [h q hq, List.map_map]
    exact List.map_congr_left fun α hα => relabel_relabel (hc.leadsInto hα) hnumber
  have hne {q} (hq : q ∈ S) : d.actionsAt (φ q) x ≠ [] ↔ c.actionsAt q x ≠ [] := by
    rw [h q hq, ne_eq, List.map_eq_nil_iff]
  constructor
  case mp =>
    rintro ⟨q', hq', hp, hnil, ha⟩
    obtain ⟨q, hq, hqq⟩ := (hT q').mp hq'
    subst hqq
    exact ⟨q, hq, hnumber q hq ▸ hp, (hne hq).mp hnil, hrelabel hq ▸ ha⟩
  case mpr =>
    rintro ⟨q, hq, hp, hnil, ha⟩
    exact ⟨φ q, (hT _).mpr ⟨q, hq, rfl⟩, (hnumber q hq).trans hp, (hne hq).mpr hnil,
      (hrelabel hq).symm ▸ ha⟩

end Cells

section Tables

variable {t u : ParseTable} {φ : StateId → StateId} {p q : StateId}

def newNumber (t : ParseTable) : StateId → StateId :=
  renumber t.visitOrder

-- A state that only outranked shifts lead to is not found, and keeps its number. No such number is
-- one of those that are handed out.
def KeepsApart (t : ParseTable) : Prop :=
  ∀ q ∈ t.states, ¬ t.IsFound q → t.visitOrder.length ≤ q.number

-- No two states get one number, and the normal form has the cells of the table under the new
-- numbers of their states, with new numbers in their actions.
structure IsFaithful (t : ParseTable) : Prop where
  injOn   : Set.InjOn t.newNumber {q | q ∈ t.states}
  actions : ∀ p x actions, ((p, x), actions) ∈ t.normalized.actions ↔ ∃ q ∈ t.states,
    t.newNumber q = p ∧ t.actionsAt q x ≠ [] ∧
      actions = (t.actionsAt q x).map (·.relabel t.newNumber)
  gotos   : ∀ p y actions, ((p, y), actions) ∈ t.normalized.gotos ↔ ∃ q ∈ t.states,
    t.newNumber q = p ∧ t.gotosAt q y ≠ [] ∧
      actions = (t.gotosAt q y).map (·.relabel t.newNumber)

theorem IsClosed.mem_states_of_isFound (h : t.IsClosed) (hq : t.IsFound q) : q ∈ t.states := by
  cases hq
  case refl          => exact h.start
  case tail _ hleads => exact h.mem_states_of_mem_successors <| h.mem_successors.mpr hleads

theorem nodup_visitOrder : t.visitOrder.Nodup := by
  rw [visitOrder_eq]
  exact Worklist.nodup_traverse

theorem IsClosed.injOn_newNumber_iff (h : t.IsClosed) :
    Set.InjOn t.newNumber {q | q ∈ t.states} ↔ t.KeepsApart := by
  refine (injOn_renumber_iff nodup_visitOrder fun q hq => ?_).trans ?_
  · exact h.mem_states_of_isFound <| h.mem_visitOrder_iff.mp hq
  · simp only [h.mem_visitOrder_iff]
    rfl

theorem IsClosed.isFaithful_iff (h : t.IsClosed) : t.IsFaithful ↔ t.KeepsApart := by
  refine ⟨fun hf => h.injOn_newNumber_iff.mp hf.injOn, fun hk => ?_⟩
  have hinj := h.injOn_newNumber_iff.mpr hk
  exact ⟨hinj, fun _ _ _ => mem_normalCells h.actions hinj, fun _ _ _ =>
    mem_normalCells h.gotos hinj⟩

-- The normal form does not depend on the names of the states that are found.
theorem Matches.normalized_eq (h : t.Matches φ u) (ht : t.IsClosed) (hu : u.IsClosed)
    (hk : t.KeepsApart) (hφ : ∀ q ∈ t.states, ¬ t.IsFound q → φ q = q) :
    u.normalized = t.normalized := by
  have horder := h.visitOrder_eq ht hu
  have hvisited : ∀ q ∈ t.visitOrder, q ∈ {q | q ∈ t.states} :=
    fun q hq => ht.mem_states_of_isFound <| ht.mem_visitOrder_iff.mp hq
  have hnumber : ∀ q ∈ {q | q ∈ t.states},
      renumber (t.visitOrder.map φ) (φ q) = renumber t.visitOrder q := by
    intro q hq
    by_cases hmem : q ∈ t.visitOrder
    case pos => exact renumber_map h.injOn hvisited hmem
    case neg =>
      have hkept : φ q = q := hφ q hq <| mt ht.mem_visitOrder_iff.mpr hmem
      have hmem' : q ∉ t.visitOrder.map φ := by
        intro hm
        obtain ⟨p, hp, hpq⟩ := List.mem_map.mp hm
        exact hmem <| h.injOn (hvisited p hp) hq (hpq.trans hkept.symm) ▸ hp
      rw [hkept, renumber_of_not_mem hmem, renumber_of_not_mem hmem']
  have hinj : Set.InjOn (renumber t.visitOrder) {q | q ∈ t.states} :=
    ht.injOn_newNumber_iff.mpr hk
  simp only [normalized, horder]
  congr 1
  · exact normalCells_map h.actions ht.actions hu.actions h.states hinj hnumber
  · exact normalCells_map h.gotos ht.gotos hu.gotos h.states hinj hnumber

end Tables
end ParseTable

variable {ctx : Context} {alg : Algorithm} {a : Automaton} {t : ParseTable} {q : StateId}

-- A state that is not found follows only on shifts that are outranked.
theorem IsTableOf.isFound (hg : ctx.grammar.WellFormed) (ha : IsOutcome ctx alg a)
    (h : IsTableOf ctx a t)
    (hshift : ∀ q x p, .shift p ∈ t.actionsAt q x → t.action? q x = some (.shift p))
    (hq : q ∈ t.states) : t.IsFound q := by
  have hc := ha.coherent hg
  refine (ha.isReachable hg <| h.mem_states_iff.mp hq).lift id fun p q hpq => ?_
  obtain ⟨s, hs⟩ := hpq
  cases s
  case terminal x =>
    exact .inl ⟨x, hshift p x q <| (h.mem_actionsAt hc).mpr <| .inl ⟨q, hs, rfl⟩⟩
  case nonterminal y => exact .inr ⟨y, h.goto?_eq_of_transition? hc hs⟩

-- The two LALR(1) tables have the same states under different names.
theorem matches_project {b : Automaton} {u : ParseTable} (hg : ctx.grammar.WellFormed)
    (ha : IsOutcome ctx .lalrByPropagation a) (hb : IsOutcome ctx .lalrByMerging b)
    (ht : IsTableOf ctx a t) (hu : IsTableOf ctx b u) : u.Matches (project ctx) t := by
  have ha : Propagated ctx a := ha
  have hb : Merged ctx b := hb
  have hrenamed := renamed_project hg ha hb
  have htables := hrenamed.table hb.cut ha.isCut (hb.isConnected hg) (by simp [hb.algorithm])
    (by simp [ha.algorithm]) hu ht
  constructor
  case start   => exact project_start hg
  case injOn   => exact hrenamed.injOn.mono fun q hq => hu.mem_states_iff.mp hq
  case states  => exact fun p => by simp [htables.states]
  case actions =>
    intro q hq x
    rw [ParseTable.actionsAt, ParseTable.actionsAt, htables.actions q hq x, List.map_map,
      List.map_map]
    rfl
  case gotos   =>
    intro q hq y
    rw [ParseTable.gotosAt, ParseTable.gotosAt, htables.gotos q hq y, List.map_map, List.map_map]
    rfl

-- The normal forms of the two are the same if no shift is outranked.
theorem lalr_normalized_eq {b : Automaton} {u : ParseTable} (hg : ctx.grammar.WellFormed)
    (ha : IsOutcome ctx .lalrByPropagation a) (hb : IsOutcome ctx .lalrByMerging b)
    (ht : IsTableOf ctx a t) (hu : IsTableOf ctx b u)
    (hshift : ∀ q x p, .shift p ∈ u.actionsAt q x → u.action? q x = some (.shift p)) :
    t.normalized = u.normalized := by
  have hfound {q} (hq : q ∈ u.states) (hq' : ¬ u.IsFound q) : False :=
    hq' <| hu.isFound hg hb hshift hq
  refine (matches_project hg ha hb ht hu).normalized_eq (hu.isClosed hg <| hb.coherent hg)
    (ht.isClosed hg <| ha.coherent hg) ?_ ?_
  · exact fun q hq hq' => (hfound hq hq').elim
  · exact fun q hq hq' => (hfound hq hq').elim

-- The normal form of every table. It is faithful if and only if the numbers that are kept are apart
-- from the new ones. Then it does not change with the names of the states, apart from those that
-- are not found; and all states are found if no shift is outranked.
theorem normalized_canonical (h : ctx.grammar.IsDefined) :
    ∃ a t, Automaton.build ctx alg = .ok a ∧ ParseTable.build a ctx = .ok t ∧
      (t.IsFaithful ↔ t.KeepsApart) ∧
      (t.KeepsApart → ∀ alg' b u φ, Automaton.build ctx alg' = .ok b →
        ParseTable.build b ctx = .ok u → t.Matches φ u →
        (∀ q ∈ t.states, ¬ t.IsFound q → φ q = q) → u.normalized = t.normalized) ∧
      ((∀ q x p, .shift p ∈ t.actionsAt q x → t.action? q x = some (.shift p)) →
        ∀ q ∈ t.states, t.IsFound q) := by
  have hg := h.wellFormed
  obtain ⟨a, hbuild, houtcome, hdone⟩ := exists_build hg alg
  obtain ⟨t, ht, htable⟩ := exists_table ctx hdone
  have hclosed := htable.isClosed hg <| houtcome.coherent hg
  refine ⟨a, t, hbuild, ht, hclosed.isFaithful_iff, fun hk alg' b u φ hb hu hmatches hφ => ?_,
    fun hshift q => htable.isFound hg houtcome hshift⟩
  obtain ⟨b', hb', houtcome', _⟩ := exists_build hg alg'
  cases hb.symm.trans hb'
  have hclosed' := (isTableOf_of_build hu).isClosed hg <| houtcome'.coherent hg
  exact hmatches.normalized_eq hclosed hclosed' hk hφ

theorem normalized_canonical_on_repetition : Grammar.repetition.IsDefined ∧
    ∃ a t, Automaton.build (.ofGrammar .repetition) .lalrByMerging = .ok a ∧
      ParseTable.build a (.ofGrammar .repetition) = .ok t ∧ t.IsFaithful ∧
      ∀ alg' b u φ, Automaton.build (.ofGrammar .repetition) alg' = .ok b →
        ParseTable.build b (.ofGrammar .repetition) = .ok u → t.Matches φ u →
        u.normalized = t.normalized := by
  obtain ⟨a, t, ha, ht, hfaithful, hcanonical, hfound⟩ :=
    @normalized_canonical (.ofGrammar .repetition) .lalrByMerging Grammar.repetition_isDefined
  have hconflict := conflict_repetition ha ht
  have hfound := hfound fun _ _ _ => (isTableOf_of_build ht).action?_of_mem hconflict
  have hkeeps : t.KeepsApart := fun q hq hq' => absurd (hfound q hq) hq'
  exact ⟨Grammar.repetition_isDefined, a, t, ha, ht, hfaithful.mpr hkeeps,
    fun alg' b u φ hb hu hmatches => hcanonical hkeeps alg' b u φ hb hu hmatches
      fun q hq hq' => absurd (hfound q hq) hq'⟩

-- The grammar `S → a S b | S S | ε`. The last rule outranks the shift of a `b`, so that the state
-- behind it is not found.
def balancedCalls : List Draft.Call :=
  [.nonterminal "S", .terminal "a", .terminal "b",
    .rule ⟨1⟩ [.terminal ⟨2⟩, .nonterminal ⟨1⟩, .terminal ⟨3⟩] none,
    .rule ⟨1⟩ [.nonterminal ⟨1⟩, .nonterminal ⟨1⟩] none, .rule ⟨1⟩ [] none, .startSymbol ⟨1⟩]

def balanced : Grammar where
  vocabulary := (Draft.afterCalls balancedCalls).vocabulary
  rules      := #[⟨.accept, [.nonterminal ⟨1⟩], 0, 0⟩] ++ (Draft.afterCalls balancedCalls).rules
  start      := ⟨1⟩

theorem balanced_isDefined : balanced.IsDefined :=
  ⟨balancedCalls, by cbv⟩

-- The tables of the two constructions differ in the names of their states, but so do their normal
-- forms. The states 2 and 3 get one number, under which a cell of the state 2 is lost.
theorem normalized_not_canonical_on_balanced :
    ∃ a b t u φ, Automaton.build (.ofGrammar balanced) .lalrByPropagation = .ok a ∧
      Automaton.build (.ofGrammar balanced) .lalrByMerging = .ok b ∧
      ParseTable.build a (.ofGrammar balanced) = .ok t ∧
      ParseTable.build b (.ofGrammar balanced) = .ok u ∧
      u.Matches φ t ∧ u.normalized ≠ t.normalized ∧
      t.newNumber ⟨2⟩ = t.newNumber ⟨3⟩ ∧ t.actionsAt ⟨2⟩ ⟨2⟩ ≠ [] ∧
      ((t.newNumber ⟨2⟩, ⟨2⟩), (t.actionsAt ⟨2⟩ ⟨2⟩).map (·.relabel t.newNumber)) ∉
        t.normalized.actions := by
  have hg : (Context.ofGrammar balanced).grammar.WellFormed := balanced_isDefined.wellFormed
  obtain ⟨a, ha, houtcome, hdone⟩ := exists_build hg .lalrByPropagation
  obtain ⟨b, hb, houtcome', hdone'⟩ := exists_build hg .lalrByMerging
  obtain ⟨t, ht, htable⟩ := exists_table (.ofGrammar balanced) hdone
  obtain ⟨u, hu, htable'⟩ := exists_table (.ofGrammar balanced) hdone'
  refine ⟨a, b, t, u, project (.ofGrammar balanced), ha, hb, ht, hu, ?_, ?_⟩
  · exact matches_project hg houtcome houtcome' htable htable'
  · have h : ((Automaton.build (.ofGrammar balanced) .lalrByPropagation).bind fun a =>
        (Automaton.build (.ofGrammar balanced) .lalrByMerging).bind fun b =>
        (ParseTable.build a (.ofGrammar balanced)).bind fun t =>
        (ParseTable.build b (.ofGrammar balanced)).map fun u =>
          decide (u.normalized ≠ t.normalized ∧ t.newNumber ⟨2⟩ = t.newNumber ⟨3⟩ ∧
            t.actionsAt ⟨2⟩ ⟨2⟩ ≠ [] ∧ ((t.newNumber ⟨2⟩, ⟨2⟩),
              (t.actionsAt ⟨2⟩ ⟨2⟩).map (·.relabel t.newNumber)) ∉ t.normalized.actions)) =
          .ok true := by
      decide +kernel
    rw [ha, hb] at h
    simpa [Except.bind, ht, hu, Except.map] using h

end ShiftReduce
