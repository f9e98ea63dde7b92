import ShiftReduce.Proofs.Closure.Joining

namespace ShiftReduce

open Exploration

-- The items that a state begins with. None of them can be predicted.
structure IsKernel (g : Grammar) (kind : ItemKind) (kernel : List Item) : Prop where
  ne_nil    : kernel ≠ []
  nodup     : (kernel.map Item.core).Nodup
  kinds     : ∀ i ∈ kernel, i.kind = kind
  rules     : ∀ i ∈ kernel, (g.rule? i.rule).isSome
  dots      : ∀ i ∈ kernel, i.core.dot ≤ (g.right i.rule).length
  free      : ∀ i ∈ kernel, i.core.dot = 0 → i.rule = .accept
  terminals : ∀ c t, Covers kernel c t → t ∈ g.vocabulary.inputTerminals

-- The cores are explored from those of the kernel, and the lookaheads are those of `LooksAhead`.
structure Completes (ctx : Context) (kind : ItemKind) (kernel closure : List Item) : Prop where
  subset   : kernel <+: closure
  kinds    : ∀ i ∈ closure, i.kind = kind
  explored : IsExplored id (Core.predicted ctx.grammar) (kernel.map Item.core)
    (closure.map Item.core)
  covers   : kind = .lr1 → ∀ c t, Covers closure c t ↔ LooksAhead ctx kernel c t

variable {ctx : Context} {g : Grammar} {kind : ItemKind} {kernel xs ys closure : List Item}
  {s : ItemSet} {i : Item} {c d : Core} {t : Terminal}

namespace IsKernel

theorem start (h : g.WellFormed) : IsKernel g kind [.start kind] where
  ne_nil        := by simp
  nodup         := by simp
  kinds         := by cases kind <;> simp [Item.start, Item.kind]
  rules         := by cases kind <;> simp [Item.start, Item.rule, h.accept_rule]
  dots          := by cases kind <;> simp [Item.start]
  free          := by cases kind <;> simp [Item.start, Item.rule]
  terminals c t := by
    intro hc
    obtain ⟨_, ht⟩ := covers_singleton.mp hc
    cases kind
    case lr0 => simp [Item.start, Item.lookaheadSet] at ht
    case lr1 =>
      have ht : t = .endOfInput := by simpa [Item.start, Item.lookaheadSet] using ht
      exact ht ▸ h.endOfInput_mem_inputTerminals

-- Whether items make a kernel is a matter of their cores, but for the terminals.
theorem of_cores {kind' : ItemKind} (k : IsKernel g kind' kernel)
    (hcores : xs.map Item.core = kernel.map Item.core) (hkinds : ∀ i ∈ xs, i.kind = kind)
    (hterminals : ∀ c t, Covers xs c t → t ∈ g.vocabulary.inputTerminals) :
    IsKernel g kind xs := by
  have hall {P : Core → Prop} (hk : ∀ i ∈ kernel, P i.core) : ∀ i ∈ xs, P i.core := by
    rwa [← List.forall_mem_map, hcores, List.forall_mem_map]
  have hlength : xs.length = kernel.length := by simpa using congrArg List.length hcores
  constructor
  case ne_nil    => exact fun he => k.ne_nil <| by simpa [he] using hlength.symm
  case nodup     => exact hcores ▸ k.nodup
  case kinds     => exact hkinds
  case rules     => exact hall (P := fun c => (g.rule? c.rule).isSome) k.rules
  case dots      => exact hall (P := fun c => c.dot ≤ (g.right c.rule).length) k.dots
  case free      => exact hall (P := fun c => c.dot = 0 → c.rule = .accept) k.free
  case terminals => exact hterminals

theorem not_predicted (h : g.WellFormed) (k : IsKernel g kind kernel)
    (hd : d ∈ c.predicted g) : d ∉ kernel.map Item.core := by
  intro hm
  obtain ⟨i, hi, hid⟩ := List.mem_map.mp hm
  obtain ⟨hdot, hrule, hnext⟩ := mem_predicted.mp hd
  have haccept : g.left d.rule = .accept := by
    refine (h.left_eq_accept_iff hrule).mpr ?_
    rw [← hid] at hdot ⊢
    exact k.free i hi hdot
  rw [haccept] at hnext
  exact h.accept_not_mem_right <| List.mem_of_getElem? hnext

end IsKernel

namespace Completes

theorem mem_iff_predicted (h : Completes ctx kind kernel closure) :
    c ∈ closure.map Item.core ↔ Predicted ctx.grammar (kernel.map Item.core) c := by
  constructor
  case mp =>
    refine h.explored.forall (P := Predicted ctx.grammar _) ?_ ?_ c
    · exact fun d hd => .start hd
    · exact fun d _ hp e _ he => .step hp he
  case mpr =>
    intro p
    induction p
    case start hc => exact List.map_subset _ h.subset.subset hc
    case step hd hi => simpa using h.explored.next_mem hi hd

theorem nodup (h : Completes ctx kind kernel closure) (hn : (kernel.map Item.core).Nodup) :
    (closure.map Item.core).Nodup := by
  simpa using h.explored.nodup (by simpa using hn)

theorem unique (hx : Completes ctx kind kernel xs) (hy : Completes ctx kind kernel ys)
    (hn : (kernel.map Item.core).Nodup) : xs = ys := by
  have hcores := hx.explored.unique hy.explored
  cases kind
  case lr0 => exact eq_of_cores hx.kinds hy.kinds hcores
  case lr1 =>
    refine eq_of_covers hx.kinds hy.kinds hcores (hx.nodup hn) fun c t => ?_
    rw [hx.covers rfl, hy.covers rfl]

-- The cores of a closure depend on those of the kernel only.
theorem map_core_eq {kind' : ItemKind} (hx : Completes ctx kind kernel xs)
    (hy : Completes ctx kind' closure ys) (he : kernel.map Item.core = closure.map Item.core) :
    xs.map Item.core = ys.map Item.core :=
  hx.explored.unique <| he ▸ hy.explored

-- The closure has no more lookaheads for an item of the kernel than the kernel.
theorem covers_kernel_iff (h : Completes ctx kind kernel closure)
    (hn : (kernel.map Item.core).Nodup) :
    Covers kernel c t ↔ c ∈ kernel.map Item.core ∧ Covers closure c t :=
  covers_iff_of_subset h.subset.subset (h.nodup hn)

theorem rules (h : Completes ctx kind kernel closure) (k : IsKernel ctx.grammar kind kernel)
    (hi : i ∈ closure) : (ctx.grammar.rule? i.rule).isSome :=
  have hp := h.mem_iff_predicted.mp <| List.mem_map_of_mem hi
  hp.isSome_rule? <| List.forall_mem_map.mpr k.rules

theorem dots (h : Completes ctx kind kernel closure) (k : IsKernel ctx.grammar kind kernel)
    (hi : i ∈ closure) : i.core.dot ≤ (ctx.grammar.right i.rule).length :=
  have hp := h.mem_iff_predicted.mp <| List.mem_map_of_mem hi
  hp.dot_le <| List.forall_mem_map.mpr k.dots

theorem terminals (hg : ctx.grammar.WellFormed) (h : Completes ctx kind kernel closure)
    (k : IsKernel ctx.grammar kind kernel) (hi : i ∈ closure) (ht : t ∈ i.lookaheadSet) :
    t ∈ ctx.grammar.vocabulary.inputTerminals := by
  cases kind
  case lr0 => simp [lookaheadSet_eq_empty (h.kinds i hi)] at ht
  case lr1 =>
    exact (h.covers rfl i.core t).mp ⟨i, hi, rfl, ht⟩ |>.forall_of_kernel hg (fun _ => id)
      k.terminals

end Completes

namespace Closing

-- Without repeated cores a closure is complete as it is.
theorem completes (cl : Closing ctx kind kernel s) (hclosed : s.closed = true)
    (hn : (s.closure.map Item.core).Nodup) : Completes ctx kind kernel s.closure where
  subset    := cl.subset
  kinds     := cl.kinds
  explored  := by
    have hk : (kernel.map Item.core).Nodup := hn.sublist <| (cl.subset.map _).sublist
    have := cl.isExplored hclosed
    rwa [firsts_eq_self (by simpa using hk), firsts_eq_self (by simpa using hn)] at this
  covers hk := by
    subst hk
    exact fun c t => cl.covers_iff_looksAhead hclosed

theorem completes_lr0 (cl : Closing ctx .lr0 kernel s) (hclosed : s.closed = true)
    (hn : (kernel.map Item.core).Nodup) : Completes ctx .lr0 kernel s.closure :=
  cl.completes hclosed <| cl.nodup rfl hn

-- Joining spares the items of the kernel, whose cores cannot occur again.
theorem completes_mergeLookaheads (h : ctx.grammar.WellFormed)
    (k : IsKernel ctx.grammar .lr1 kernel) (cl : Closing ctx .lr1 kernel s)
    (hclosed : s.closed = true) : Completes ctx .lr1 kernel s.mergeLookaheads.1.closure := by
  obtain ⟨rest, hrest, hpredicted⟩ := cl.parts
  have hkinds : ∀ i ∈ rest, i.kind = .lr1 :=
    fun i hi => cl.kinds i <| hrest ▸ List.mem_append_right _ hi
  obtain ⟨hcores, hkinds', hcovers⟩ := joinByCore_spec hkinds
  rw [mergeLookaheads_closure_eq cl.kernel_eq hrest]
  constructor
  case subset => exact List.prefix_append ..
  case kinds =>
    intro i hi
    exact List.mem_append.mp hi |>.elim (k.kinds i) (hkinds' i)
  case explored =>
    have hnew : ∀ c ∈ rest.map Item.core, id c ∉ (kernel.map Item.core).map id := by
      intro c hc
      obtain ⟨i, hi, hic⟩ := List.mem_map.mp hc
      obtain ⟨d, hd⟩ := hpredicted i hi
      simpa [hic] using k.not_predicted h hd
    have hfirsts : firsts id (s.closure.map Item.core) =
        kernel.map Item.core ++ firsts id (rest.map Item.core) := by
      have : insertAllNew id (kernel.map Item.core ++ []) (rest.map Item.core) = _ :=
        insertAllNew_append_left hnew
      rw [List.append_nil] at this
      rw [hrest, List.map_append, firsts_append, firsts_eq_self (by simpa using k.nodup), this]
      rfl
    rw [List.map_append, hcores, ← hfirsts]
    have hkernel : firsts id (kernel.map Item.core) = kernel.map Item.core :=
      firsts_eq_self <| by simpa using k.nodup
    have := cl.isExplored hclosed
    rwa [hkernel] at this
  case covers =>
    intro _ c t
    rw [covers_append, hcovers, ← covers_append, ← hrest, cl.covers_iff_looksAhead hclosed]

end Closing
end ShiftReduce
