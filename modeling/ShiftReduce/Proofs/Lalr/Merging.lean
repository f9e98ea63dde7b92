import ShiftReduce.Proofs.Lalr.Union

namespace ShiftReduce

open Exploration Automaton

-- Which states a state consists of, itself included.
def IsOrigin (redirects : List (StateId × StateId)) (q p : StateId) : Prop :=
  p = q ∨ (p, q) ∈ redirects

structure IsRedirect (ctx : Context) (a : Automaton) (p q : StateId) : Prop where
  bound  : p.number < (collection ctx .lr1).length
  source : a.node? p = none
  target : (a.node? q).isSome
  cores  : coresAt ctx p = coresAt ctx q
  lt     : q.number < p.number
  cursor : q.number ≤ a.mergeCursor

-- Between two merges: a live state is the union of the states that it has taken in, and no state
-- before the cursor shares its cores with a later one.
structure Merging (ctx : Context) (a : Automaton) : Prop where
  algorithm : a.algorithm = .lalrByMerging
  size      : a.nodes.size = (collection ctx .lr1).length
  items     : ∀ {q n}, a.node? q = some n → IsUnion ctx (IsOrigin a.redirects q) q n.items
  edges     : ∀ {q n}, a.node? q = some n → n.edges = edgesOf ctx .lr1 (kernelIn ctx .lr1 q)
  dead      : ∀ {q : StateId}, q.number < a.nodes.size → a.node? q = none →
    ∃ p, (q, p) ∈ a.redirects
  cut       : ∀ n ∈ a.nodes, n.live = false → n.edges = []
  redirects : ∀ {p q}, (p, q) ∈ a.redirects → IsRedirect ctx a p q
  cursor    : ∀ {p q : StateId}, (a.node? p).isSome → (a.node? q).isSome →
    p.number < a.mergeCursor → p.number < q.number → coresAt ctx p ≠ coresAt ctx q

variable {ctx : Context} {a : Automaton} {n m : Node} {p q r : StateId}

section FirstMergeable

variable {states : List (StateId × Node)} {x y z : StateId × Node}

-- In order of their numbers, a later state is never the first one.
theorem mem_of_number_lt (hz : ∀ y ∈ states, z.1.number < y.1.number) (hx : x ∈ z :: states)
    (hy : y ∈ z :: states) (hlt : x.1.number < y.1.number) : y ∈ states := by
  refine (List.mem_cons.mp hy).resolve_left fun he => ?_
  subst he
  cases List.mem_cons.mp hx
  case inl hx => simp [hx] at hlt
  case inr hx => exact absurd (hz x hx) <| Nat.lt_asymm hlt

-- The first state that can take in another one, and the first one that it can take in.
theorem firstMergeable?_eq_some (hp : states.Pairwise (·.1.number < ·.1.number))
    (h : firstMergeable? states = some (q, r)) : ∃ n m, (q, n) ∈ states ∧ (r, m) ∈ states ∧
      q.number < r.number ∧ SameKernel .lr0 n.items.kernel m.items.kernel ∧
      ∀ x ∈ states, ∀ y ∈ states, x.1.number < q.number → x.1.number < y.1.number →
        ¬ SameKernel .lr0 x.2.items.kernel y.2.items.kernel := by
  induction states
  case nil => contradiction
  case cons z rest hi =>
    obtain ⟨hz, hrest⟩ := List.pairwise_cons.mp hp
    rw [firstMergeable?] at h
    split at h
    case h_1 m hm =>
      have hmem := List.mem_of_find?_eq_some hm
      have hsame : SameKernel .lr0 z.2.items.kernel m.2.items.kernel := by
        simpa using List.find?_some hm
      cases h
      refine ⟨z.2, m.2, .head _, .tail _ hmem, hz m hmem, hsame, fun x hx _ _ hlt _ => ?_⟩
      cases List.mem_cons.mp hx
      case inl hx => simp [hx] at hlt
      case inr hx => exact absurd (hz x hx) <| Nat.lt_asymm hlt
    case h_2 hnone =>
      obtain ⟨n, m, hn, hm, hlt, hsame, hfirst⟩ := hi hrest h
      refine ⟨n, m, .tail _ hn, .tail _ hm, hlt, hsame, fun x hx y hy hxq hxy => ?_⟩
      have hy := mem_of_number_lt hz hx hy hxy
      cases List.mem_cons.mp hx
      case inl hx => simpa [hx] using List.find?_eq_none.mp hnone y hy
      case inr hx => exact hfirst x hx y hy hxq hxy

theorem firstMergeable?_eq_none (hp : states.Pairwise (·.1.number < ·.1.number))
    (h : firstMergeable? states = none) : ∀ x ∈ states, ∀ y ∈ states, x.1.number < y.1.number →
      ¬ SameKernel .lr0 x.2.items.kernel y.2.items.kernel := by
  induction states
  case nil => simp
  case cons z rest hi =>
    obtain ⟨hz, hrest⟩ := List.pairwise_cons.mp hp
    rw [firstMergeable?] at h
    split at h
    case h_1 => contradiction
    case h_2 hnone =>
      intro x hx y hy hxy
      have hy := mem_of_number_lt hz hx hy hxy
      cases List.mem_cons.mp hx
      case inl hx => simpa [hx] using List.find?_eq_none.mp hnone y hy
      case inr hx => exact hi hrest h x hx y hy hxy

end FirstMergeable

theorem number_lt_size (h : a.node? q = some n) : q.number < a.nodes.size :=
  (Array.getElem?_eq_some_iff.mp (node?_eq_some_iff.mp h).left).choose

namespace Merging

theorem lt_length (h : Merging ctx a) (hn : a.node? q = some n) :
    q.number < (collection ctx .lr1).length :=
  h.size ▸ number_lt_size hn

theorem sameKernel_iff (hg : ctx.grammar.WellFormed) (h : Merging ctx a) (hp : a.node? p = some n)
    (hq : a.node? q = some m) :
    SameKernel .lr0 n.items.kernel m.items.kernel ↔ coresAt ctx p = coresAt ctx q := by
  have hn := h.items hp
  have hm := h.items hq
  rw [sameKernel_lr0_iff, hn.toFinset_cores, hm.toFinset_cores]
  · exact hn.kernelCores ▸ (isKernel_kernelIn hg <| h.lt_length hp).nodup
  · exact hm.kernelCores ▸ (isKernel_kernelIn hg <| h.lt_length hq).nodup

-- What can be merged next.
structure IsNext (ctx : Context) (a : Automaton) (q r : StateId) : Prop where
  live   : (a.node? q).isSome
  live'  : (a.node? r).isSome
  lt     : q.number < r.number
  cores  : coresAt ctx q = coresAt ctx r
  cursor : a.mergeCursor ≤ q.number
  first  : ∀ {p p' : StateId}, (a.node? p).isSome → (a.node? p').isSome → p.number < q.number →
    p.number < p'.number → coresAt ctx p ≠ coresAt ctx p'

theorem isNext (hg : ctx.grammar.WellFormed) (h : Merging ctx a)
    (hm : a.mergeable? = some (q, r)) : IsNext ctx a q r := by
  obtain ⟨n, m, hn, hr, hlt, hsame, hfirst⟩ :=
    firstMergeable?_eq_some (pairwise_states.filter _) hm
  simp only [List.mem_filter, mem_states, decide_eq_true_eq] at hn hr
  refine ⟨by simp [hn.left], by simp [hr.left], hlt, ?_, hn.right, fun {p p'} hp hp' hlt hlt' => ?_⟩
  · exact (h.sameKernel_iff hg hn.left hr.left).mp hsame
  · cases Nat.lt_or_ge p.number a.mergeCursor
    case inl hc => exact h.cursor hp hp' hc hlt'
    case inr hc =>
      obtain ⟨np, hnp⟩ := Option.isSome_iff_exists.mp hp
      obtain ⟨np', hnp'⟩ := Option.isSome_iff_exists.mp hp'
      refine mt (h.sameKernel_iff hg hnp hnp').mpr <| hfirst (p, np) ?_ (p', np') ?_ hlt hlt'
      · simpa [mem_states, hnp] using hc
      · simpa [mem_states, hnp'] using hc.trans hlt'.le

-- When nothing can be merged, no two live states share their cores.
theorem cores_ne (hg : ctx.grammar.WellFormed) (h : Merging ctx a) (hm : a.mergeable? = none)
    (hp : (a.node? p).isSome) (hq : (a.node? q).isSome) (hlt : p.number < q.number) :
    coresAt ctx p ≠ coresAt ctx q := by
  cases Nat.lt_or_ge p.number a.mergeCursor
  case inl hc => exact h.cursor hp hq hc hlt
  case inr hc =>
    obtain ⟨np, hnp⟩ := Option.isSome_iff_exists.mp hp
    obtain ⟨nq, hnq⟩ := Option.isSome_iff_exists.mp hq
    have hnone := firstMergeable?_eq_none (pairwise_states.filter _) hm
    refine mt (h.sameKernel_iff hg hnp hnq).mpr <| hnone (p, np) ?_ (q, nq) ?_ hlt
    · simpa [mem_states, hnp] using hc
    · simpa [mem_states, hnq] using hc.trans hlt.le

theorem congr {b : Automaton} (h : Merging ctx a) (halg : b.algorithm = a.algorithm)
    (hnodes : b.nodes = a.nodes) (hredirects : b.redirects = a.redirects)
    (hcursor : b.mergeCursor = a.mergeCursor) : Merging ctx b := by
  cases a
  cases b
  simp only at halg hnodes hredirects hcursor
  subst halg hnodes hredirects hcursor
  exact ⟨h.algorithm, h.size, h.items, h.edges, h.dead, h.cut,
    fun hr => { h.redirects hr with }, h.cursor⟩

section Merge

variable {s : ItemSet}

-- The redirects and the cursor do not matter to what a state is.
theorem node?_merge : (a.merge q r s).node? p = ((a.modifyItems q (·.absorb s)).modifyNode r
    fun n => { n with live := false, edges := [] }).node? p :=
  rfl

theorem node?_merge_removed : (a.merge q r s).node? r = none := by
  rw [node?_merge]
  exact node?_modifyNode_dead fun _ => rfl

theorem node?_merge_into (hqr : q ≠ r) (hn : a.node? q = some n) :
    (a.merge q r s).node? q = some { n with items := n.items.absorb s } := by
  rw [node?_merge, node?_modifyNode_of_ne hqr.symm]
  exact node?_modifyNode_self hn (node?_eq_some_iff.mp hn).right

theorem node?_merge_of_ne (hq : q ≠ p) (hr : r ≠ p) : (a.merge q r s).node? p = a.node? p := by
  rw [node?_merge, node?_modifyNode_of_ne hr]
  exact node?_modifyNode_of_ne hq

theorem node?_merge_cases (hqr : q ≠ r) (hn : a.node? q = some n)
    (hp : (a.merge q r s).node? p = some m) :
    (p = q ∧ m = { n with items := n.items.absorb s }) ∨ (p ≠ q ∧ a.node? p = some m) := by
  have hpr : p ≠ r := by
    rintro rfl
    simp [node?_merge_removed] at hp
  by_cases hpq : p = q
  case pos =>
    rw [hpq, node?_merge_into hqr hn] at hp
    exact .inl ⟨hpq, (Option.some.inj hp).symm⟩
  case neg => exact .inr ⟨hpq, node?_merge_of_ne (Ne.symm hpq) (Ne.symm hpr) ▸ hp⟩

theorem isSome_node?_merge (hqr : q ≠ r) (hn : (a.node? q).isSome) :
    ((a.merge q r s).node? p).isSome ↔ (a.node? p).isSome ∧ p ≠ r := by
  obtain ⟨n, hn⟩ := Option.isSome_iff_exists.mp hn
  by_cases hr : p = r
  case pos => simp [hr, node?_merge_removed]
  case neg =>
    by_cases hq : p = q
    case pos => simp [hq, node?_merge_into hqr hn, hn, hqr]
    case neg => simp [node?_merge_of_ne (Ne.symm hq) (Ne.symm hr), hr]

@[simp]
theorem size_merge : (a.merge q r s).nodes.size = a.nodes.size := by
  simp [Automaton.merge, modifyItems]

theorem mem_redirects_merge {p' : StateId} : (p, p') ∈ (a.merge q r s).redirects ↔
    (p, p') ∈ a.redirects ∨ (p = r ∧ p' = q) := by
  have happend : (a.merge q r s).redirects = a.redirects ++ [(r, q)] := rfl
  simp [happend]

theorem isCut_merge (h : a.IsCut) : (a.merge q r s).IsCut := by
  have habsorb : (a.modifyItems q (·.absorb s)).IsCut := h.modifyNode fun _ hn => hn
  exact habsorb.modifyNode (q := r) (f := fun n => { n with live := false, edges := [] })
    fun _ _ _ => rfl

-- A state that is taken in has not taken in any other.
theorem not_mem_redirects (h : Merging ctx a) (hx : IsNext ctx a q r) : (p, r) ∉ a.redirects := by
  intro hm
  have := (h.redirects hm).cursor
  have := hx.cursor
  have := hx.lt
  omega

theorem IsNext.ne (hx : IsNext ctx a q r) : q ≠ r :=
  fun he => Nat.lt_irrefl _ <| he ▸ hx.lt

theorem exists_redirect_merge (h : Merging ctx a) (hx : IsNext ctx a q r)
    (hp : p.number < a.nodes.size) (hnone : (a.merge q r s).node? p = none) :
    ∃ p', (p, p') ∈ (a.merge q r s).redirects := by
  by_cases hpr : p = r
  case pos => exact ⟨q, mem_redirects_merge.mpr <| .inr ⟨hpr, rfl⟩⟩
  case neg =>
    have hnone : a.node? p = none := by
      rw [← Option.not_isSome_iff_eq_none] at hnone ⊢
      exact fun hs => hnone <| (isSome_node?_merge hx.ne hx.live).mpr ⟨hs, hpr⟩
    obtain ⟨p', hp'⟩ := h.dead hp hnone
    exact ⟨p', mem_redirects_merge.mpr <| .inl hp'⟩

theorem isRedirect_merge {p' : StateId} (h : Merging ctx a) (hx : IsNext ctx a q r)
    (hm : (p, p') ∈ (a.merge q r s).redirects) : IsRedirect ctx (a.merge q r s) p p' := by
  have hsome {p : StateId} := isSome_node?_merge (s := s) (p := p) hx.ne hx.live
  cases mem_redirects_merge.mp hm
  case inl hm =>
    have hr := h.redirects hm
    refine ⟨hr.bound, ?_, hsome.mpr ⟨hr.target, ?_⟩, hr.cores, hr.lt, hr.cursor.trans hx.cursor⟩
    · rw [← Option.not_isSome_iff_eq_none]
      exact fun hs => by simpa [hr.source] using (hsome.mp hs).left
    · exact fun he => h.not_mem_redirects hx (he ▸ hm)
  case inr hm =>
    obtain ⟨rfl, rfl⟩ := hm
    obtain ⟨m, hr⟩ := Option.isSome_iff_exists.mp hx.live'
    exact ⟨h.lt_length hr, node?_merge_removed, hsome.mpr ⟨hx.live, hx.ne⟩, hx.cores.symm, hx.lt,
      Nat.le_refl _⟩

theorem merge (hg : ctx.grammar.WellFormed) (h : Merging ctx a) (hx : IsNext ctx a q r)
    (hr : a.node? r = some m) : Merging ctx (a.merge q r m.items) := by
  have hqr := hx.ne
  obtain ⟨n, hn⟩ := Option.isSome_iff_exists.mp hx.live
  have hsome {p : StateId} := isSome_node?_merge (s := m.items) (p := p) hqr hx.live
  constructor
  case algorithm => exact h.algorithm
  case size      => exact size_merge.trans h.size
  case items =>
    intro p np hp
    obtain ⟨rfl, rfl⟩ | ⟨hpq, hp⟩ := node?_merge_cases hqr hn hp
    case inl =>
      refine ((h.items hn).absorb hg (h.lt_length hn) (h.lt_length hr) hx.cores.symm
        (h.items hr)).congr fun x => ?_
      have := h.not_mem_redirects hx (p := x)
      simp only [IsOrigin, mem_redirects_merge, and_true, this, or_false, or_assoc]
    case inr =>
      refine (h.items hp).congr fun x => ?_
      simp [IsOrigin, mem_redirects_merge, hpq]
  case edges =>
    intro p np hp
    obtain ⟨rfl, rfl⟩ | ⟨_, hp⟩ := node?_merge_cases hqr hn hp
    case inl => exact h.edges (n := n) hn
    case inr => exact h.edges hp
  case dead      => exact fun hp hnone => h.exists_redirect_merge hx (size_merge ▸ hp) hnone
  case cut       => exact isCut_merge h.cut
  case redirects => exact fun hm => h.isRedirect_merge hx hm
  case cursor =>
    intro p p' hp hp' hc hlt'
    exact hx.first (hsome.mp hp).left (hsome.mp hp').left hc hlt'

end Merge

section Resolution

-- No state is taken in twice: two states that take it in would share their cores.
theorem redirect_unique (h : Merging ctx a) (hq : (p, q) ∈ a.redirects)
    (hr : (p, r) ∈ a.redirects) : q = r := by
  have hq := h.redirects hq
  have hr := h.redirects hr
  have hcores := hq.cores.symm.trans hr.cores
  obtain hlt | he | hlt := Nat.lt_trichotomy q.number r.number
  case inl => exact absurd hcores <| h.cursor hq.target hr.target (hlt.trans_le hr.cursor) hlt
  case inr.inl => exact congrArg StateId.mk he
  case inr.inr =>
    exact absurd hcores.symm <| h.cursor hr.target hq.target (hlt.trans_le hq.cursor) hlt

-- A walk over the redirects stops at the first state that they do not lead away from.
theorem foldl_redirects {redirects : List (StateId × StateId)}
    (h : ∀ p q q' p', (p, q) ∈ redirects → (q', p') ∈ redirects → q ≠ q') :
    let last := redirects.foldl (fun q r => if q = r.1 then r.2 else q) q
    (last = q ∧ ∀ p, (q, p) ∉ redirects) ∨ (q, last) ∈ redirects := by
  induction redirects using List.reverseRecOn
  case nil => simp
  case append_singleton redirects r hi =>
    have hi := hi fun p q q' p' hp hq =>
      h p q q' p' (List.mem_append_left _ hp) (List.mem_append_left _ hq)
    simp only [List.foldl_append, List.foldl_cons, List.foldl_nil]
    cases hi
    case inl hi =>
      rw [hi.left]
      split
      case isTrue he => exact .inr <| by simp [he]
      case isFalse hne =>
        refine .inl ⟨rfl, fun p hp => ?_⟩
        cases List.mem_append.mp hp
        case inl hp => exact hi.right p hp
        case inr hp => exact hne <| by rw [← List.mem_singleton.mp hp]
    case inr hi =>
      have hne := h _ _ r.1 r.2 (List.mem_append_left _ hi) (by simp)
      rw [if_neg hne]
      exact .inr <| List.mem_append_left _ hi

theorem resolve_cases (h : Merging ctx a) (q : StateId) :
    (a.resolve q = q ∧ ∀ p, (q, p) ∉ a.redirects) ∨ (q, a.resolve q) ∈ a.redirects := by
  refine foldl_redirects fun p q q' p' hp hq' he => ?_
  have hlive := (h.redirects hp).target
  rw [he, (h.redirects hq').source] at hlive
  contradiction

theorem resolve_eq_self (h : Merging ctx a) (hq : (a.node? q).isSome) : a.resolve q = q := by
  refine (h.resolve_cases q).elim And.left fun hr => ?_
  simp [(h.redirects hr).source] at hq

theorem resolve_eq_of_redirect (h : Merging ctx a) (hp : (p, q) ∈ a.redirects) :
    a.resolve p = q := by
  cases h.resolve_cases p
  case inl hl => exact absurd hp <| hl.right q
  case inr hr => exact h.redirect_unique hr hp

theorem isSome_resolve (h : Merging ctx a) (hq : q.number < (collection ctx .lr1).length) :
    (a.node? (a.resolve q)).isSome := by
  cases h.resolve_cases q
  case inr hr => exact (h.redirects hr).target
  case inl hl =>
    rw [hl.left]
    by_contra hdead
    obtain ⟨p, hp⟩ := h.dead (h.size ▸ hq) (Option.not_isSome_iff_eq_none.mp hdead)
    exact hl.right p hp

-- A state consists of those that resolve to it.
theorem isOrigin_iff_resolve (h : Merging ctx a) (hq : (a.node? q).isSome) :
    IsOrigin a.redirects q p ↔ p.number < (collection ctx .lr1).length ∧ a.resolve p = q := by
  constructor
  case mp =>
    intro ho
    cases ho
    case inl he =>
      obtain ⟨n, hn⟩ := Option.isSome_iff_exists.mp hq
      rw [he]
      exact ⟨h.lt_length hn, h.resolve_eq_self hq⟩
    case inr hp => exact ⟨(h.redirects hp).bound, h.resolve_eq_of_redirect hp⟩
  case mpr =>
    rintro ⟨_, hpq⟩
    cases h.resolve_cases p
    case inl hl => exact .inl <| hl.left.symm.trans hpq
    case inr hr => exact .inr <| hpq ▸ hr

theorem isClass (h : Merging ctx a) (hn : a.node? q = some n) :
    IsClass ctx (IsOrigin a.redirects q) q where
  self     := .inl rfl
  lt ho    := ((h.isOrigin_iff_resolve <| by simp [hn]).mp ho).left
  cores ho := ho.elim (congrArg _) fun hp => (h.redirects hp).cores

end Resolution

section Leaders

theorem leader_eq_self (hg : ctx.grammar.WellFormed) (h : Merging ctx a)
    (hm : a.mergeable? = none) (hq : (a.node? q).isSome) : leader ctx q = q := by
  obtain ⟨n, hn⟩ := Option.isSome_iff_exists.mp hq
  have hlt := h.lt_length hn
  by_contra hne
  have hle : (leader ctx q).number < q.number :=
    Nat.lt_of_le_of_ne (leader_le hlt) fun he => hne <| congrArg StateId.mk he
  cases hl : a.node? (leader ctx q)
  case some =>
    exact h.cores_ne hg hm (by simp [hl]) hq hle <| coresAt_leader hlt
  case none =>
    obtain ⟨p, hp⟩ := h.dead (h.size ▸ hle.trans hlt) hl
    have hr := h.redirects hp
    exact h.cores_ne hg hm hr.target hq (hr.lt.trans hle) <| hr.cores.symm.trans <|
      coresAt_leader hlt

theorem live_iff (hg : ctx.grammar.WellFormed) (h : Merging ctx a) (hm : a.mergeable? = none) :
    (a.node? q).isSome ↔ q.number < (collection ctx .lr1).length ∧ leader ctx q = q := by
  constructor
  case mp =>
    intro hq
    obtain ⟨n, hn⟩ := Option.isSome_iff_exists.mp hq
    exact ⟨h.lt_length hn, h.leader_eq_self hg hm hq⟩
  case mpr =>
    rintro ⟨hlt, hl⟩
    by_contra hq
    obtain ⟨p, hp⟩ := h.dead (h.size ▸ hlt) (Option.not_isSome_iff_eq_none.mp hq)
    have hr := h.redirects hp
    have hle : (leader ctx p).number ≤ p.number := leader_le (hr.lt.trans hlt)
    rw [← leader_eq_leader hr.cores, hl] at hle
    exact Nat.not_le.mpr hr.lt hle

theorem resolve_eq (hg : ctx.grammar.WellFormed) (h : Merging ctx a) (hm : a.mergeable? = none)
    (hq : q.number < (collection ctx .lr1).length) : a.resolve q = leader ctx q := by
  have hself := h.leader_eq_self hg hm <| h.isSome_resolve hq
  cases h.resolve_cases q
  case inl hl => rw [← hself, hl.left]
  case inr hr => rw [← hself, leader_eq_leader (h.redirects hr).cores]

theorem isOrigin_iff (hg : ctx.grammar.WellFormed) (h : Merging ctx a) (hm : a.mergeable? = none)
    (hq : (a.node? q).isSome) : IsOrigin a.redirects q p ↔
      p.number < (collection ctx .lr1).length ∧ leader ctx p = q := by
  rw [h.isOrigin_iff_resolve hq]
  exact and_congr_right fun hp => by rw [h.resolve_eq hg hm hp]

end Leaders
end Merging

-- The merged automaton: one state for each set of cores.
structure Merged (ctx : Context) (a : Automaton) : Prop where
  algorithm : a.algorithm = .lalrByMerging
  done      : a.IsDone
  live_iff  : ∀ {q}, (a.node? q).isSome ↔
    q.number < (collection ctx .lr1).length ∧ leader ctx q = q
  items     : ∀ {q n}, a.node? q = some n →
    IsUnion ctx (fun p => p.number < (collection ctx .lr1).length ∧ leader ctx p = q) q n.items
  edges     : ∀ {q n}, a.node? q = some n → n.edges =
    (edgesOf ctx .lr1 (kernelIn ctx .lr1 q)).map fun e => { e with target := leader ctx e.target }
  cut       : ∀ n ∈ a.nodes, n.live = false → n.edges = []

section Steps

variable {s : ItemSet}

theorem step_mergeStates_eq (ctx : Context) (halg : a.algorithm = .lalrByMerging)
    (hp : a.phase = .mergeStates) (hm : a.mergeable? = some (q, r)) (hq : (a.node? q).isSome)
    (hr : a.node? r = some m) :
    let b := a.merge q r m.items
    ∃ done, a.step ctx =
      (if b.mergeable?.isSome then b else { b with phase := .retarget }, .ok done) := by
  intro b
  obtain ⟨n, hn⟩ := Option.isSome_iff_exists.mp hq
  have hn := node_eq_ok_iff.mpr hn
  have hr := node_eq_ok_iff.mpr hr
  refine ⟨.mergeStates ⟨r, q, b.mergeMap⟩, ?_⟩
  simp [Automaton.step, hp, mergeStatesStep, mergeStep, expectAlgorithm, halg, expectPhase, hm,
    hn, hr, bind, Except.bind, pure, Except.pure, attempt, b]
  split <;> rfl

def retargeted (a : Automaton) : Automaton :=
  { a with
    nodes := a.nodes.map fun n =>
      { n with edges := n.edges.map fun e => { e with target := a.resolve e.target } }
    phase := .done }

theorem step_retarget_eq (ctx : Context) (halg : a.algorithm = .lalrByMerging)
    (hp : a.phase = .retarget) :
    ∃ done, a.step ctx = (retargeted a, .ok done) := by
  obtain ⟨changes, hr⟩ : ∃ changes, a.retarget = .ok (retargeted a, changes) := by
    simp [retarget, retargeted, expectAlgorithm, halg, expectPhase, hp, bind, Except.bind, pure,
      Except.pure, getD_resolution]
  refine ⟨.retarget changes, ?_⟩
  simp [Automaton.step, hp, hr, attempt, Except.map]

end Steps

namespace Merging

theorem node?_retargeted : (retargeted a).node? q = (a.node? q).map fun n =>
    { n with edges := n.edges.map fun e => { e with target := a.resolve e.target } } := by
  simp only [node?, retargeted, Array.getElem?_map]
  cases a.nodes[q.number]?
  case none => rfl
  case some n =>
    cases hl : n.live <;> simp [Option.filter, hl]

-- The end of the merging.
theorem retargeted (hg : ctx.grammar.WellFormed) (h : Merging ctx a) (hm : a.mergeable? = none) :
    Merged ctx (retargeted a) where
  algorithm := h.algorithm
  done      := rfl
  live_iff  := by
    intro q
    rw [node?_retargeted, Option.isSome_map]
    exact h.live_iff hg hm
  items     := by
    intro q n hn
    obtain ⟨n₀, hn₀, he⟩ := Option.map_eq_some_iff.mp (node?_retargeted ▸ hn)
    subst he
    exact (h.items hn₀).congr fun p => h.isOrigin_iff hg hm (by simp [hn₀])
  edges     := by
    intro q n hn
    obtain ⟨n₀, hn₀, he⟩ := Option.map_eq_some_iff.mp (node?_retargeted ▸ hn)
    subst he
    rw [← h.edges hn₀]
    refine List.map_congr_left fun e hm' => ?_
    rw [h.edges hn₀] at hm'
    rw [h.resolve_eq hg hm]
    exact target_lt_of_mem_edgesOf hg (h.lt_length hn₀) hm'
  cut n hn hl := by
    obtain ⟨n₀, hn₀, he⟩ := Array.mem_map.mp hn
    subst he
    simp [h.cut n₀ hn₀ hl]

theorem init (hg : ctx.grammar.WellFormed) (h : Collected ctx .lalrByMerging a) :
    Merging ctx { a with mergeCursor := 0 } := by
  have hnode {q : StateId} {n : Node} (hn : a.node? q = some n) :
      IsCollected ctx .lr1 n ∧ (collection ctx .lr1)[q.number]? = some n.items.kernel :=
    have hget := (node?_eq_some_iff.mp hn).left
    ⟨h.nodes n <| Array.mem_of_getElem? hget, h.getElem?_eq hget⟩
  constructor
  case algorithm => exact h.algorithm
  case size => exact h.size_eq
  case items =>
    intro q n hn
    obtain ⟨hn, hk⟩ := hnode hn
    have hlt := (List.getElem?_eq_some_iff.mp hk).choose
    refine (IsUnion.of_isCollected hg hlt hn (kernelIn_eq hk).symm).congr fun p => ?_
    simp [IsOrigin, h.redirects]
  case edges =>
    intro q n hn
    obtain ⟨hn, hk⟩ := hnode hn
    rw [kernelIn_eq hk]
    exact hn.edges
  case dead =>
    intro q hq hnone
    have hget : a.nodes[q.number]? = some a.nodes[q.number] := Array.getElem?_eq_getElem hq
    have hlive := (h.nodes _ <| Array.mem_of_getElem? hget).live
    have hsome : a.node? q = _ := node?_eq_some_iff.mpr ⟨hget, hlive⟩
    exact absurd (hsome.symm.trans hnone) (by simp)
  case cut =>
    intro n hn hl
    simp [(h.nodes n hn).live] at hl
  case redirects => simp [h.redirects]
  case cursor => simp

-- What can still be merged, and the retargeting.
def work (a : Automaton) : Nat :=
  if a.phase = .retarget then 1
  else ((Finset.range a.nodes.size).filter fun j => (a.node? ⟨j⟩).isSome).card + 1

theorem work_merge_lt (hp : a.phase ≠ .retarget) (hx : IsNext ctx a q r) {s : ItemSet} :
    work (a.merge q r s) < work a := by
  have hqr := hx.ne
  obtain ⟨m, hm⟩ := Option.isSome_iff_exists.mp hx.live'
  have hp' : (a.merge q r s).phase ≠ .retarget := hp
  rw [work, work, if_neg hp, if_neg hp', size_merge]
  refine Nat.succ_lt_succ <| Finset.card_lt_card ?_
  refine Finset.ssubset_iff_of_subset ?_ |>.mpr ⟨r.number, ?_, ?_⟩
  · intro j
    simp only [Finset.mem_filter, isSome_node?_merge hqr hx.live]
    exact fun h => ⟨h.left, h.right.left⟩
  · simpa [hm] using number_lt_size hm
  · simp [node?_merge_removed]

-- What holds between two steps of the merging phases.
def IsMerging (ctx : Context) (a : Automaton) : Prop :=
  Merging ctx a ∧ ((a.phase = .mergeStates ∧ a.mergeable?.isSome) ∨
    (a.phase = .retarget ∧ a.mergeable? = none))

-- A step merges the next pair of states, or it points the transitions at the leaders.
theorem IsMerging.step_cases (hg : ctx.grammar.WellFormed) (h : IsMerging ctx a) :
    (∃ q r m b done, IsNext ctx a q r ∧ a.node? r = some m ∧ a.step ctx = (b, .ok done) ∧
      b.nodes = (a.merge q r m.items).nodes ∧ IsMerging ctx b ∧ work b < work a) ∨
    (a.phase = .retarget ∧ a.mergeable? = none ∧
      ∃ done, a.step ctx = (ShiftReduce.retargeted a, .ok done)) := by
  obtain ⟨h, hphase⟩ := h
  cases hphase
  case inr hphase =>
    exact .inr ⟨hphase.left, hphase.right, step_retarget_eq ctx h.algorithm hphase.left⟩
  case inl hphase =>
    obtain ⟨hp, hsome⟩ := hphase
    obtain ⟨⟨q, r⟩, hm⟩ := Option.isSome_iff_exists.mp hsome
    have hx := h.isNext hg hm
    obtain ⟨m, hr⟩ := Option.isSome_iff_exists.mp hx.live'
    obtain ⟨done, hstep⟩ := step_mergeStates_eq ctx h.algorithm hp hm hx.live hr
    have hmerge := h.merge hg hx hr
    have hwork := work_merge_lt (s := m.items) (by simp [hp]) hx
    refine .inl ⟨q, r, m, _, done, hx, hr, hstep, ?_⟩
    split
    case isTrue hs => exact ⟨rfl, ⟨hmerge, .inl ⟨hp, hs⟩⟩, hwork⟩
    case isFalse hs =>
      have hs := Option.not_isSome_iff_eq_none.mp hs
      refine ⟨rfl, ⟨hmerge.congr rfl rfl rfl rfl, .inr ⟨rfl, hs⟩⟩, ?_⟩
      have hq : work { a.merge q r m.items with phase := .retarget } = 1 := if_pos rfl
      have : 1 < work a := by
        rw [work, if_neg (by simp [hp])]
        refine Nat.succ_lt_succ <| Finset.card_pos.mpr ⟨r.number, ?_⟩
        simpa [hr] using number_lt_size hr
      exact hq.trans_lt this

theorem step (hg : ctx.grammar.WellFormed) (h : IsMerging ctx a) :
    ¬ a.IsDone ∧ 0 < work a ∧ ∃ b done, a.step ctx = (b, .ok done) ∧
      (Merged ctx b ∨ (IsMerging ctx b ∧ work b < work a)) := by
  have hdone : ¬ a.IsDone := by
    obtain ⟨_, ⟨hp, _⟩ | ⟨hp, _⟩⟩ := h <;> simp [IsDone, hp]
  obtain ⟨_, _, _, b, done, _, _, hstep, _, hb, hwork⟩ | ⟨hp, hnone, done, hstep⟩ := h.step_cases hg
  case inl => exact ⟨hdone, Nat.zero_lt_of_lt hwork, b, done, hstep, .inr ⟨hb, hwork⟩⟩
  case inr => exact ⟨hdone, by simp [work, hp], _, done, hstep, .inl <| h.left.retargeted hg hnone⟩

end Merging

-- The merging begins when every state has been expanded.
theorem isMerging_enterState (hg : ctx.grammar.WellFormed) (h : Collected ctx .lalrByMerging a) :
    Merging.IsMerging ctx a.enterState := by
  have henter : a.enterState = a.startMerging := by
    simp [enterState, h.pointer, h.algorithm]
  rw [henter]
  refine ⟨(Merging.init hg h).congr rfl rfl rfl rfl, ?_⟩
  cases hm : ({ a with mergeCursor := 0 } : Automaton).mergeable?
  case none   => exact .inr ⟨by simp [startMerging, hm], hm⟩
  case some x => exact .inl ⟨by simp [startMerging, hm], Option.isSome_iff_exists.mpr ⟨x, hm⟩⟩

-- The merging phases lead from the canonical LR(1) automaton to the merged one.
theorem exists_reaches_merged (hg : ctx.grammar.WellFormed) (h : Collected ctx .lalrByMerging a) :
    ∃ b n, Reaches ctx a.enterState n b ∧ Merged ctx b ∧
      n ≤ (collection ctx .lr1).length + 1 := by
  have hstart := isMerging_enterState hg h
  obtain ⟨b, n, hr, hb, hn⟩ := Reaches.of_work (fun _ => Merging.step hg) hstart
  refine ⟨b, n, hr, hb, hn.trans ?_⟩
  have hcard := Finset.card_filter_le (Finset.range a.enterState.nodes.size)
    fun j => (a.enterState.node? ⟨j⟩).isSome
  have hsize : a.enterState.nodes.size = (collection ctx .lr1).length := hstart.left.size
  rw [Finset.card_range] at hcard
  unfold Merging.work
  split <;> omega

end ShiftReduce
