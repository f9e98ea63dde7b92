import Mathlib.Data.Finset.Card
import ShiftReduce.Grammar.Record
import ShiftReduce.Proofs.Grammar.History

namespace ShiftReduce

-- The record of a symbol with this name.
def Symbol.recordAs (name : String) : Symbol → SymbolRecord
  | .terminal _    => .terminal name
  | .nonterminal _ => .nonterminal name

theorem Symbol.name_recordAs {s : Symbol} {name : String} : (s.recordAs name).name = name := by
  cases s <;> rfl

namespace SymbolRecord

def terminalName? : SymbolRecord → Option String
  | .terminal name  => some name
  | .nonterminal _  => none

def nonterminalName? : SymbolRecord → Option String
  | .terminal _       => none
  | .nonterminal name => some name

variable {r : SymbolRecord} {symbols : List SymbolRecord} {x : String}

theorem terminalName?_eq_some_iff : r.terminalName? = some x ↔ r = .terminal x := by
  cases r <;> simp [terminalName?]

theorem nonterminalName?_eq_some_iff : r.nonterminalName? = some x ↔ r = .nonterminal x := by
  cases r <;> simp [nonterminalName?]

theorem mem_filterMap_terminalName? :
    x ∈ symbols.filterMap (·.terminalName?) ↔ .terminal x ∈ symbols := by
  simp [List.mem_filterMap, terminalName?_eq_some_iff]

theorem mem_filterMap_nonterminalName? :
    x ∈ symbols.filterMap (·.nonterminalName?) ↔ .nonterminal x ∈ symbols := by
  simp [List.mem_filterMap, nonterminalName?_eq_some_iff]

end SymbolRecord

-- Names that can be declared together: none is reserved, none is of two kinds, and there are
-- numbers for all of them.
structure AreDeclarable (symbols : List SymbolRecord) : Prop where
  not_reserved : ∀ r ∈ symbols, r.name ≠ "$END" ∧ r.name ≠ "$accept"
  one_kind     : ∀ name, .terminal name ∈ symbols → .nonterminal name ∉ symbols
  terminals    : (symbols.filterMap (·.terminalName?)).toFinset.card ≤ 65533
  nonterminals : (symbols.filterMap (·.nonterminalName?)).toFinset.card ≤ 65534

theorem card_names_mono {xs ys : List SymbolRecord} (hs : xs ⊆ ys)
    (name? : SymbolRecord → Option String) :
    (xs.filterMap name?).toFinset.card ≤ (ys.filterMap name?).toFinset.card := by
  refine Finset.card_le_card fun x hx => ?_
  rw [List.mem_toFinset] at hx ⊢
  exact List.filterMap_subset _ hs hx

theorem AreDeclarable.mono {xs ys : List SymbolRecord} (h : AreDeclarable ys) (hs : xs ⊆ ys) :
    AreDeclarable xs where
  not_reserved r hr   := h.not_reserved r <| hs hr
  one_kind name ht hn := h.one_kind name (hs ht) (hs hn)
  terminals           := (card_names_mono hs _).trans h.terminals
  nonterminals        := (card_names_mono hs _).trans h.nonterminals

namespace Vocabulary

-- The record that a symbol reads back as.
def record (v : Vocabulary) (s : Symbol) : SymbolRecord :=
  s.recordAs (v.name s)

-- The record stands for the symbol.
structure Reads (v : Vocabulary) (r : SymbolRecord) (s : Symbol) : Prop where
  symbol?      : v.symbol? r.name = some s
  kind         : s.recordAs r.name = r
  not_reserved : ¬ s.IsReserved

-- The records stand for the declared symbols, and for all of them.
structure Holds (v : Vocabulary) (symbols : List SymbolRecord) : Prop where
  sound    : v.IsSound
  isWithin : v.IsWithin
  reserved : ∀ x s, s.IsReserved → (v.symbol? x = some s ↔ initial.symbol? x = some s)
  mem_iff  : ∀ r, r ∈ symbols ↔ ∃ s, v.Reads r s

-- All names keep their symbols.
def Extends (v v' : Vocabulary) : Prop :=
  ∀ x s, v.symbol? x = some s → v'.symbol? x = some s

variable {v v' : Vocabulary} {symbols : List SymbolRecord} {r : SymbolRecord} {s s' : Symbol}
  {x : String}

namespace Reads

theorem record_eq (h : v.Reads r s) (hv : v.IsSound) : v.record s = r := by
  have hname : v.name? s = some r.name := (hv.symbol?_iff.mp h.symbol?).left
  rw [record, name, hname]
  exact h.kind

theorem declares (h : v.Reads r s) (hv : v.IsSound) : v.Declares s := by
  refine name?_isSome_iff.mp ?_
  rw [(hv.symbol?_iff.mp h.symbol?).left]
  rfl

theorem unique (h : v.Reads r s) (h' : v.Reads r s') : s = s' :=
  Option.some.inj <| h.symbol?.symm.trans h'.symbol?

theorem mono (h : v.Reads r s) (he : v.Extends v') : v'.Reads r s :=
  ⟨he _ _ h.symbol?, h.kind, h.not_reserved⟩

theorem leftUnique (hv : v.IsSound) : Relator.LeftUnique v.Reads :=
  fun _ _ _ h h' => (h.record_eq hv).symm.trans (h'.record_eq hv)

theorem rightUnique : Relator.RightUnique v.Reads :=
  fun _ _ _ => unique

theorem of_symbol? (hx : v.symbol? x = some s) (hr : ¬ s.IsReserved) :
    v.Reads (s.recordAs x) s := by
  refine ⟨?_, ?_, hr⟩
  · rwa [Symbol.name_recordAs]
  · rw [Symbol.name_recordAs]

end Reads

theorem IsDeclared.extends (h : IsDeclared v v' x s) : v.Extends v' := by
  intro y s' hy
  rw [h.symbol?]
  split
  case isTrue hx  => rw [h.first s' (hx ▸ hy)]
  case isFalse    => exact hy

namespace Holds

theorem init : initial.Holds [] where
  sound    := initial_isSound
  isWithin := initial_isWithin
  reserved := fun _ _ _ => Iff.rfl
  mem_iff  := by
    intro r
    refine iff_of_false List.not_mem_nil ?_
    rintro ⟨s, hs⟩
    exact hs.not_reserved <| isReserved_of_symbol?_initial hs.symbol?

theorem declare (h : v.Holds symbols) (hd : IsDeclared v v' x s) (hv : v'.IsSound) :
    v'.Holds (symbols ++ [s.recordAs x]) ∧ v'.Reads (s.recordAs x) s := by
  have hnew : ¬ s.IsReserved := hd.not_reserved h.sound
  have hreads : v'.Reads (s.recordAs x) s := .of_symbol? (by rw [hd.symbol?, if_pos rfl]) hnew
  refine ⟨⟨hv, hd.isWithin h.isWithin, fun y s' hs' => ?_, fun r => ?_⟩, hreads⟩
  case refine_1 =>
    have hold := h.reserved y s' hs'
    rw [← hold, hd.symbol?]
    split
    case isFalse => rfl
    case isTrue hy =>
      refine iff_of_false (fun he => hnew ?_) fun he => hnew ?_
      · rwa [Option.some.inj he]
      · rwa [← hd.first s' (hy ▸ he)]
  case refine_2 =>
    rw [List.mem_append, List.mem_singleton, h.mem_iff]
    constructor
    case mp =>
      intro hx
      cases hx
      case inl hx =>
        obtain ⟨s', hs'⟩ := hx
        exact ⟨s', hs'.mono hd.extends⟩
      case inr hx => exact ⟨s, hx ▸ hreads⟩
    case mpr =>
      rintro ⟨s', hs'⟩
      by_cases hr : x = r.name
      case pos =>
        subst hr
        have hs : s' = s := by
          have := hs'.symbol?
          rw [hd.symbol?, if_pos rfl] at this
          exact (Option.some.inj this).symm
        exact .inr <| hs ▸ hs'.kind.symm
      case neg =>
        have hold := hs'.symbol?
        rw [hd.symbol?, if_neg hr] at hold
        exact .inl ⟨s', hold, hs'.kind, hs'.not_reserved⟩

theorem not_reserved (h : v.Holds symbols) (hx : x ≠ "$END" ∧ x ≠ "$accept")
    (hs : v.symbol? x = some s) : ¬ s.IsReserved := by
  intro hr
  have hinitial := (h.reserved x s hr).mp hs
  rw [symbol?_initial] at hinitial
  simp [acceptName, endOfInputName, hx.left.symm, hx.right.symm] at hinitial

-- A list of names has each name once if each place stands for a symbol of its own.
theorem card_eq_length (names found : List String) (symbolAt : Nat → Symbol)
    (hinj : Function.Injective symbolAt)
    (hnames : ∀ k x, names[k]? = some x ↔ v.symbol? x = some (symbolAt k))
    (hfound : ∀ x, x ∈ found ↔ ∃ k, v.symbol? x = some (symbolAt k)) :
    found.toFinset.card = names.length := by
  have hnodup : names.Nodup := by
    rw [List.nodup_iff_injective_getElem]
    intro i j hij
    have hi := (hnames i _).mp <| List.getElem?_eq_getElem i.isLt
    have hj := (hnames j _).mp <| List.getElem?_eq_getElem j.isLt
    have hij : names[i.val] = names[j.val] := hij
    rw [hij, hj] at hi
    exact Fin.ext <| (hinj <| Option.some.inj hi).symm
  have hset : found.toFinset = names.toFinset := by
    ext x
    simp only [List.mem_toFinset, hfound, List.mem_iff_getElem?, hnames]
  rw [hset, List.toFinset_card_of_nodup hnodup]

theorem card_terminals (h : v.Holds symbols) :
    (symbols.filterMap (·.terminalName?)).toFinset.card + Terminal.firstFree =
      v.terminals.size := by
  have hsize := h.sound.terminals_size
  have hcard := card_eq_length (v := v) (v.terminals.toList.drop Terminal.firstFree)
    (symbols.filterMap (·.terminalName?)) (fun k => .terminal ⟨Terminal.firstFree + k⟩)
    (fun i j hij => by simpa using hij) ?_ ?_
  case refine_1 =>
    intro k x
    have hmarker : Symbol.terminal ⟨Terminal.firstFree + k⟩ ≠ .terminal .marker := by
      simp [Terminal.firstFree, Terminal.marker]
      omega
    rw [h.sound.symbol?_iff, and_iff_left hmarker]
    simp [name?]
  case refine_2 =>
    intro x
    rw [SymbolRecord.mem_filterMap_terminalName?, h.mem_iff]
    constructor
    case mp =>
      rintro ⟨s, hs⟩
      cases s
      case terminal t =>
        have hk : Terminal.firstFree ≤ t.number := Nat.le_of_not_lt hs.not_reserved
        exact ⟨t.number - Terminal.firstFree, by rw [Nat.add_sub_cancel' hk]; exact hs.symbol?⟩
      case nonterminal => cases hs.kind
    case mpr =>
      rintro ⟨k, hk⟩
      refine ⟨_, hk, rfl, Nat.not_lt_of_le <| Nat.le_add_right ..⟩
  rw [hcard, List.length_drop, Array.length_toList, Nat.sub_add_cancel hsize]

theorem card_nonterminals (h : v.Holds symbols) :
    (symbols.filterMap (·.nonterminalName?)).toFinset.card + Nonterminal.firstFree =
      v.nonterminals.size := by
  have hsize := h.sound.nonterminals_size
  have hcard := card_eq_length (v := v) (v.nonterminals.toList.drop Nonterminal.firstFree)
    (symbols.filterMap (·.nonterminalName?)) (fun k => .nonterminal ⟨Nonterminal.firstFree + k⟩)
    (fun i j hij => by simpa using hij) ?_ ?_
  case refine_1 =>
    intro k x
    rw [h.sound.symbol?_iff, and_iff_left (by simp)]
    simp [name?]
  case refine_2 =>
    intro x
    rw [SymbolRecord.mem_filterMap_nonterminalName?, h.mem_iff]
    constructor
    case mp =>
      rintro ⟨s, hs⟩
      cases s
      case terminal => cases hs.kind
      case nonterminal n =>
        have hk : Nonterminal.firstFree ≤ n.number :=
          Nat.one_le_iff_ne_zero.mpr fun hk => hs.not_reserved <| congrArg Nonterminal.mk hk
        exact ⟨n.number - Nonterminal.firstFree, by rw [Nat.add_sub_cancel' hk]; exact hs.symbol?⟩
    case mpr =>
      rintro ⟨k, hk⟩
      refine ⟨_, hk, rfl, fun he => ?_⟩
      have he : Nonterminal.firstFree + k = 0 := congrArg Nonterminal.number he
      simp [Nonterminal.firstFree] at he
  rw [hcard, List.length_drop, Array.length_toList, Nat.sub_add_cancel hsize]

theorem areDeclarable (h : v.Holds symbols) : AreDeclarable symbols where
  not_reserved := by
    intro r hr
    obtain ⟨s, hs⟩ := (h.mem_iff r).mp hr
    have hinitial (s' : Symbol) (hs' : initial.symbol? r.name = some s') : False := by
      have hr' := isReserved_of_symbol?_initial hs'
      have hs' := (h.reserved _ s' hr').mpr hs'
      cases hs.symbol?.symm.trans hs'
      exact hs.not_reserved hr'
    constructor
    case left =>
      intro hname
      exact hinitial (.terminal .endOfInput) (by rw [hname]; rfl)
    case right =>
      intro hname
      exact hinitial (.nonterminal .accept) (by rw [hname]; rfl)
  one_kind := by
    intro x ht hn
    obtain ⟨s, hs⟩ := (h.mem_iff _).mp ht
    obtain ⟨s', hs'⟩ := (h.mem_iff _).mp hn
    have hsame : s = s' := Option.some.inj <| hs.symbol?.symm.trans hs'.symbol?
    have hkind := hs.kind
    rw [hsame] at hkind
    cases hkind.symm.trans hs'.kind
  terminals := by
    have hcard := h.card_terminals
    have hwithin := h.isWithin.terminals
    simp only [Terminal.firstFree, capacity] at hcard hwithin
    omega
  nonterminals := by
    have hcard := h.card_nonterminals
    have hwithin := h.isWithin.nonterminals
    simp only [Nonterminal.firstFree, capacity] at hcard hwithin
    omega

theorem card_lt_of_not_mem {names : List String} (hx : x ∉ names) :
    names.toFinset.card < (names ++ [x]).toFinset.card := by
  have hinsert : (names ++ [x]).toFinset = insert x names.toFinset := by
    ext y
    simp
  rw [hinsert, Finset.card_insert_of_notMem <| by simpa using hx]
  exact Nat.lt_succ_self _

theorem mem_of_symbol? (h : v.Holds symbols) (hx : x ≠ "$END" ∧ x ≠ "$accept")
    (hs : v.symbol? x = some s) : s.recordAs x ∈ symbols :=
  (h.mem_iff _).mpr ⟨s, .of_symbol? hs <| h.not_reserved hx hs⟩

theorem not_mem_of_symbol?_eq_none (h : v.Holds symbols) (hr : v.symbol? r.name = none) :
    r ∉ symbols := by
  rw [h.mem_iff]
  rintro ⟨s, hs⟩
  cases hr.symm.trans hs.symbol?

-- There are numbers left for names that can be declared.
theorem terminals_lt_capacity (h : v.Holds symbols)
    (hd : AreDeclarable (symbols ++ [.terminal x])) (hnone : v.symbol? x = none) :
    v.terminals.size < capacity := by
  have hnew : x ∉ symbols.filterMap (·.terminalName?) :=
    mt SymbolRecord.mem_filterMap_terminalName?.mp <| h.not_mem_of_symbol?_eq_none hnone
  have hle := hd.terminals
  rw [List.filterMap_append] at hle
  have hlt := (card_lt_of_not_mem hnew).trans_le hle
  have hcard := h.card_terminals
  simp only [capacity, Terminal.firstFree] at hcard ⊢
  omega

theorem nonterminals_lt_capacity (h : v.Holds symbols)
    (hd : AreDeclarable (symbols ++ [.nonterminal x])) (hnone : v.symbol? x = none) :
    v.nonterminals.size < capacity := by
  have hnew : x ∉ symbols.filterMap (·.nonterminalName?) :=
    mt SymbolRecord.mem_filterMap_nonterminalName?.mp <| h.not_mem_of_symbol?_eq_none hnone
  have hle := hd.nonterminals
  rw [List.filterMap_append] at hle
  have hlt := (card_lt_of_not_mem hnew).trans_le hle
  have hcard := h.card_nonterminals
  simp only [capacity, Nonterminal.firstFree] at hcard ⊢
  omega

-- A name that can be declared is not refused.
theorem exists_declareTerminal (h : v.Holds symbols)
    (hd : AreDeclarable (symbols ++ [.terminal x])) :
    ∃ v' t, v.declareTerminal x = (v', .ok t) ∧ IsDeclared v v' x (.terminal t) := by
  obtain ⟨e, he⟩ | hok := v.declareTerminal_cases x
  case inr => exact hok
  case inl =>
    have hname := hd.not_reserved (.terminal x) (by simp)
    unfold declareTerminal at he
    split at he
    case h_1 t ht =>
      have hr : ¬ t.IsReserved := h.not_reserved hname ht
      simp [hr] at he
    case h_2 n hn =>
      have hmem : .nonterminal x ∈ symbols := h.mem_of_symbol? hname hn
      exact absurd (List.mem_append_left _ hmem) <| hd.one_kind x (by simp)
    case h_3 hnone => simp [h.terminals_lt_capacity hd hnone] at he

theorem exists_declareNonterminal (h : v.Holds symbols)
    (hd : AreDeclarable (symbols ++ [.nonterminal x])) :
    ∃ v' n, v.declareNonterminal x = (v', .ok n) ∧ IsDeclared v v' x (.nonterminal n) := by
  obtain ⟨e, he⟩ | hok := v.declareNonterminal_cases x
  case inr => exact hok
  case inl =>
    have hname := hd.not_reserved (.nonterminal x) (by simp)
    unfold declareNonterminal at he
    split at he
    case h_1 n hn =>
      have hr : n ≠ .accept := h.not_reserved hname hn
      simp [hr] at he
    case h_2 t ht =>
      have hmem : .terminal x ∈ symbols := h.mem_of_symbol? hname ht
      exact absurd (show _ ∈ symbols ++ _ by simp) <|
        hd.one_kind x <| List.mem_append_left _ hmem
    case h_3 hnone => simp [h.nonterminals_lt_capacity hd hnone] at he

end Holds
end Vocabulary

end ShiftReduce
