import ShiftReduce.Proofs.Collection.Collecting

namespace ShiftReduce

open Exploration

def kernelIn (ctx : Context) (kind : ItemKind) (q : StateId) : List Item :=
  (collection ctx kind).getD q.number []

def closureIn (ctx : Context) (kind : ItemKind) (q : StateId) : List Item :=
  closureOf ctx kind (kernelIn ctx kind q)

def targetIn (ctx : Context) (kind : ItemKind) (q : StateId) (x : Symbol) : StateId where
  number := placeOf (collection ctx kind) (kernelOver ctx.grammar x (closureIn ctx kind q))

variable {ctx : Context} {kind : ItemKind} {kernel : List Item} {q : StateId} {c : Core}
  {x : Symbol} {i : Item} {e : Edge}

theorem kernelIn_eq (h : (collection ctx kind)[q.number]? = some kernel) :
    kernelIn ctx kind q = kernel := by
  simp [kernelIn, h]

theorem getElem?_kernelIn (h : q.number < (collection ctx kind).length) :
    (collection ctx kind)[q.number]? = some (kernelIn ctx kind q) := by
  simp [kernelIn, h]

theorem kernelIn_mem (h : q.number < (collection ctx kind).length) :
    kernelIn ctx kind q ∈ collection ctx kind :=
  List.mem_of_getElem? <| getElem?_kernelIn h

theorem placeOf_kernelIn (h : q.number < (collection ctx kind).length) :
    placeOf (collection ctx kind) (kernelIn ctx kind q) = q.number :=
  placeOf_getElem nodup_collection <| getElem?_kernelIn h

theorem isKernel_kernelIn (hg : ctx.grammar.WellFormed)
    (h : q.number < (collection ctx kind).length) :
    IsKernel ctx.grammar kind (kernelIn ctx kind q) :=
  isKernel_of_mem_collection hg <| kernelIn_mem h

theorem completes_closureIn (hg : ctx.grammar.WellFormed)
    (h : q.number < (collection ctx kind).length) :
    Completes ctx kind (kernelIn ctx kind q) (closureIn ctx kind q) :=
  closureOf_completes hg <| isKernel_kernelIn hg h

theorem length_collection_pos (hg : ctx.grammar.WellFormed) :
    0 < (collection ctx kind).length :=
  (collection_isExplored hg).start_isPrefix.length_le

theorem kernelIn_start (hg : ctx.grammar.WellFormed) :
    kernelIn ctx kind .start = [.start kind] := by
  refine kernelIn_eq ?_
  rw [getElem?_of_isPrefix (collection_isExplored hg).start_isPrefix (by simp [StateId.start])]
  rfl

theorem mem_nextSymbols_closureIn (hc : c ∈ (closureIn ctx kind q).map Item.core)
    (hx : c.next? ctx.grammar = some x) :
    x ∈ nextSymbols ctx.grammar ((closureIn ctx kind q).map Item.core) :=
  mem_nextSymbols.mpr ⟨c, hc, hx⟩

theorem kernelOver_mem_nextKernels
    (hx : x ∈ nextSymbols ctx.grammar ((closureIn ctx kind q).map Item.core)) :
    kernelOver ctx.grammar x (closureIn ctx kind q) ∈
      nextKernels ctx kind (kernelIn ctx kind q) :=
  mem_nextKernels.mpr ⟨x, hx, rfl⟩

theorem targetIn_lt (hg : ctx.grammar.WellFormed) (h : q.number < (collection ctx kind).length)
    (hx : x ∈ nextSymbols ctx.grammar ((closureIn ctx kind q).map Item.core)) :
    (targetIn ctx kind q x).number < (collection ctx kind).length :=
  placeOf_lt_length_iff.mpr <| (collection_isExplored hg).next_mem (kernelIn_mem h) <|
    kernelOver_mem_nextKernels hx

-- Every state of the collection is the target of one before it, up to the start state.
theorem forall_of_targetIn {P : StateId → Prop} (hg : ctx.grammar.WellFormed) (hs : P .start)
    (hn : ∀ p : StateId, p.number < (collection ctx kind).length → P p →
      ∀ x ∈ nextSymbols ctx.grammar ((closureIn ctx kind p).map Item.core),
        P (targetIn ctx kind p x))
    (h : q.number < (collection ctx kind).length) : P q := by
  have hall : ∀ kernel ∈ collection ctx kind, P ⟨placeOf (collection ctx kind) kernel⟩ := by
    refine (collection_isExplored hg).forall (fun kernel hk => ?_) fun kernel hk hi _ _ hnext => ?_
    case refine_1 =>
      have hplace : placeOf (collection ctx kind) (kernelIn ctx kind .start) = 0 :=
        placeOf_kernelIn <| length_collection_pos hg
      rw [kernelIn_start hg] at hplace
      rw [List.mem_singleton.mp hk, hplace]
      exact hs
    case refine_2 =>
      obtain ⟨x, hx, hxk⟩ := mem_nextKernels.mp hnext
      obtain ⟨i, hlt, hik⟩ := List.mem_iff_getElem.mp hk
      have hp : (⟨i⟩ : StateId).number < (collection ctx kind).length := hlt
      have hkernel : kernelIn ctx kind ⟨i⟩ = kernel :=
        hik ▸ kernelIn_eq (List.getElem?_eq_getElem hlt)
      rw [← hkernel] at hi hx hxk
      rw [placeOf_kernelIn hp] at hi
      exact hxk ▸ hn _ hp hi x hx
  have hq := hall _ (kernelIn_mem h)
  rwa [placeOf_kernelIn h] at hq

-- The kernel of the target has the items of the source, advanced over the symbol.
theorem mem_kernelIn_targetIn (hg : ctx.grammar.WellFormed)
    (h : q.number < (collection ctx kind).length)
    (hx : x ∈ nextSymbols ctx.grammar ((closureIn ctx kind q).map Item.core)) :
    i ∈ kernelIn ctx kind (targetIn ctx kind q x) ↔
      i ∈ kernelOver ctx.grammar x (closureIn ctx kind q) := by
  have hlt := targetIn_lt hg h hx
  have hplace := toFinset_getElem_placeOf hlt
  rw [kernelIn_eq (List.getElem?_eq_getElem hlt), ← List.mem_toFinset, ← List.mem_toFinset]
  exact iff_of_eq <| congrArg (i ∈ ·) hplace

theorem advance_mem_kernelIn (hg : ctx.grammar.WellFormed)
    (h : q.number < (collection ctx kind).length) (hc : c ∈ (closureIn ctx kind q).map Item.core)
    (hx : c.next? ctx.grammar = some x) :
    c.advance ∈ (kernelIn ctx kind (targetIn ctx kind q x)).map Item.core := by
  obtain ⟨i, hi, hic⟩ := List.mem_map.mp hc
  subst hic
  refine List.mem_map.mpr ⟨i.advance, ?_, rfl⟩
  exact (mem_kernelIn_targetIn hg h <| mem_nextSymbols_closureIn hc hx).mpr <|
    mem_kernelOver.mpr ⟨i, hi, hx, rfl⟩

theorem mem_map_core_kernelIn_targetIn (hg : ctx.grammar.WellFormed)
    (h : q.number < (collection ctx kind).length)
    (hx : x ∈ nextSymbols ctx.grammar ((closureIn ctx kind q).map Item.core)) :
    c ∈ (kernelIn ctx kind (targetIn ctx kind q x)).map Item.core ↔
      ∃ d ∈ (closureIn ctx kind q).map Item.core,
        d.next? ctx.grammar = some x ∧ d.advance = c := by
  have hmem : c ∈ (kernelIn ctx kind (targetIn ctx kind q x)).map Item.core ↔
      c ∈ (kernelOver ctx.grammar x (closureIn ctx kind q)).map Item.core := by
    simp only [List.mem_map, mem_kernelIn_targetIn hg h hx]
  rw [hmem, map_core_kernelOver]
  simp only [List.mem_map, List.mem_filter, decide_eq_true_eq, and_assoc]

theorem edgesOf_eq : edgesOf ctx kind (kernelIn ctx kind q) =
    (nextSymbols ctx.grammar ((closureIn ctx kind q).map Item.core)).map fun x =>
      ⟨x, targetIn ctx kind q x,
        ruleOver ctx.grammar x ((closureIn ctx kind q).map Item.core)⟩ := by
  simp [edgesOf, successorsOf, ofClosure_eq, edgeTo, successorOver, targetIn, closureIn,
    Function.comp_def]

theorem find?_edgesOf (hx : x ∈ nextSymbols ctx.grammar ((closureIn ctx kind q).map Item.core)) :
    (edgesOf ctx kind (kernelIn ctx kind q)).find? (·.symbol = x) = some ⟨x, targetIn ctx kind q x,
      ruleOver ctx.grammar x ((closureIn ctx kind q).map Item.core)⟩ := by
  rw [edgesOf_eq, List.find?_map]
  generalize nextSymbols ctx.grammar _ = symbols at hx
  induction symbols
  case nil => contradiction
  case cons y symbols hi =>
    rw [List.find?_cons]
    by_cases hy : y = x
    case pos => simp [hy]
    case neg =>
      have hx := (List.mem_cons.mp hx).resolve_left (Ne.symm hy)
      simpa [hy] using hi hx

theorem find?_edgesOf_of_not_mem
    (hx : x ∉ nextSymbols ctx.grammar ((closureIn ctx kind q).map Item.core)) :
    (edgesOf ctx kind (kernelIn ctx kind q)).find? (·.symbol = x) = none := by
  rw [edgesOf_eq, List.find?_eq_none]
  intro e he
  obtain ⟨y, hy, hye⟩ := List.mem_map.mp he
  have hne : y ≠ x := fun heq => hx <| heq ▸ hy
  simpa [← hye] using hne

-- The edges of a state lead to states of the collection.
theorem target_lt_of_mem_edgesOf (hg : ctx.grammar.WellFormed)
    (h : q.number < (collection ctx kind).length)
    (he : e ∈ edgesOf ctx kind (kernelIn ctx kind q)) :
    e.target.number < (collection ctx kind).length := by
  rw [edgesOf_eq] at he
  obtain ⟨x, hx, hxe⟩ := List.mem_map.mp he
  exact hxe ▸ targetIn_lt hg h hx

end ShiftReduce
