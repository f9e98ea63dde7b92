import Mathlib.Data.List.Basic

namespace ShiftReduce
namespace Exploration

variable {α γ : Type} [DecidableEq γ]

def insertNew (key : α → γ) (xs : List α) (x : α) : List α :=
  if key x ∈ xs.map key then xs else xs ++ [x]

def insertAllNew (key : α → γ) (xs ys : List α) : List α :=
  ys.foldl (insertNew key) xs

-- The elements whose keys do not occur before them.
def firsts (key : α → γ) (xs : List α) : List α :=
  insertAllNew key [] xs

-- The list after the first `i` elements have been expanded. What an element leads to is appended,
-- except for what has the key of something that is there already.
def explore (key : α → γ) (next : α → List α) (start : List α) : Nat → List α
  | 0     => start
  | i + 1 =>
    match (explore key next start i)[i]? with
    | none   => explore key next start i
    | some x => insertAllNew key (explore key next start i) (next x)

-- Every element of the list has been expanded.
def IsExplored (key : α → γ) (next : α → List α) (start xs : List α) : Prop :=
  ∃ i, explore key next start i = xs ∧ xs.length ≤ i

section Insertion

variable {key : α → γ} {xs ys zs : List α} {x y : α} {k : γ}

theorem getElem?_of_isPrefix {i : Nat} (h : xs <+: ys) (hi : i < xs.length) : ys[i]? = xs[i]? := by
  obtain ⟨zs, hz⟩ := h
  rw [← hz, List.getElem?_append_left hi]

theorem take_of_isPrefix {i : Nat} (h : xs <+: ys) (hi : i ≤ xs.length) :
    ys.take i = xs.take i := by
  obtain ⟨zs, hz⟩ := h
  rw [← hz, List.take_append_of_le_length hi]

theorem prefix_insertNew : xs <+: insertNew key xs x := by
  unfold insertNew
  split
  · exact xs.prefix_refl
  · exact xs.prefix_append [x]

theorem prefix_insertAllNew : xs <+: insertAllNew key xs ys := by
  induction ys generalizing xs
  case nil          => exact xs.prefix_refl
  case cons y ys hi => exact prefix_insertNew.trans hi

theorem mem_insertNew (h : x ∈ insertNew key xs y) : x ∈ xs ∨ x = y := by
  unfold insertNew at h
  split at h <;> simp_all

theorem mem_insertAllNew (h : x ∈ insertAllNew key xs ys) : x ∈ xs ∨ x ∈ ys := by
  induction ys generalizing xs
  case nil => exact .inl h
  case cons y ys hi =>
    cases hi h
    case inl h => cases mem_insertNew h <;> simp_all
    case inr h => exact .inr <| .tail _ h

theorem key_mem_insertNew : k ∈ (insertNew key xs x).map key ↔ k ∈ xs.map key ∨ k = key x := by
  unfold insertNew
  split <;> simp_all

theorem key_mem_insertAllNew :
    k ∈ (insertAllNew key xs ys).map key ↔ k ∈ xs.map key ∨ k ∈ ys.map key := by
  induction ys generalizing xs
  case nil => simp [insertAllNew]
  case cons y ys hi =>
    show k ∈ (insertAllNew key (insertNew key xs y) ys).map key ↔ _
    rw [hi, key_mem_insertNew, List.map_cons, List.mem_cons, or_assoc]

theorem nodup_insertAllNew (h : (xs.map key).Nodup) : ((insertAllNew key xs ys).map key).Nodup := by
  induction ys generalizing xs
  case nil => exact h
  case cons y ys hi =>
    refine hi ?_
    unfold insertNew
    split
    · exact h
    · simp_all [List.nodup_append]

theorem insertAllNew_cons_of_mem (h : key y ∈ xs.map key) :
    insertAllNew key xs (y :: ys) = insertAllNew key xs ys := by
  show insertAllNew key (insertNew key xs y) ys = _
  rw [insertNew, if_pos h]

theorem insertAllNew_cons_of_not_mem (h : key y ∉ xs.map key) :
    insertAllNew key xs (y :: ys) = insertAllNew key (xs ++ [y]) ys := by
  show insertAllNew key (insertNew key xs y) ys = _
  rw [insertNew, if_neg h]

theorem insertAllNew_eq_self (h : ∀ y ∈ ys, key y ∈ xs.map key) : insertAllNew key xs ys = xs := by
  induction ys
  case nil => rfl
  case cons y ys hi =>
    rw [insertAllNew_cons_of_mem (h y <| .head _)]
    exact hi fun z hz => h z <| .tail _ hz

theorem insertAllNew_append :
    insertAllNew key xs (ys ++ zs) = insertAllNew key (insertAllNew key xs ys) zs :=
  List.foldl_append

theorem firsts_append : firsts key (xs ++ ys) = insertAllNew key (firsts key xs) ys :=
  insertAllNew_append

theorem firsts_isPrefix (h : xs <+: ys) : firsts key xs <+: firsts key ys := by
  obtain ⟨zs, hz⟩ := h
  rw [← hz, firsts_append]
  exact prefix_insertAllNew

theorem mem_of_mem_firsts (h : x ∈ firsts key xs) : x ∈ xs :=
  mem_insertAllNew h |>.resolve_left List.not_mem_nil

theorem key_mem_firsts : k ∈ (firsts key xs).map key ↔ k ∈ xs.map key := by
  simp [firsts, key_mem_insertAllNew]

theorem mem_firsts_id {x : γ} {xs : List γ} : x ∈ firsts id xs ↔ x ∈ xs := by
  simpa using (key_mem_firsts : x ∈ (firsts id xs).map id ↔ _)

theorem nodup_firsts : ((firsts key xs).map key).Nodup :=
  nodup_insertAllNew .nil

theorem insertAllNew_eq_append (h : ((xs ++ ys).map key).Nodup) :
    insertAllNew key xs ys = xs ++ ys := by
  induction ys generalizing xs
  case nil => simp [insertAllNew]
  case cons y ys hi =>
    have hy : key y ∉ xs.map key := by
      simp only [List.map_append, List.map_cons, List.nodup_append] at h
      exact fun hm => h.right.right _ hm _ (.head _) rfl
    rw [insertAllNew_cons_of_not_mem hy, hi (by simpa using h), List.append_assoc,
      List.singleton_append]

-- What has keys of its own is appended as if nothing were there.
theorem insertAllNew_append_left (h : ∀ y ∈ ys, key y ∉ xs.map key) :
    insertAllNew key (xs ++ zs) ys = xs ++ insertAllNew key zs ys := by
  induction ys generalizing zs
  case nil => rfl
  case cons y ys hi =>
    have hy := h y <| .head _
    have hnew : insertNew key (xs ++ zs) y = xs ++ insertNew key zs y := by
      unfold insertNew
      simp only [List.map_append, List.mem_append, hy, false_or]
      split <;> simp
    show insertAllNew key (insertNew key (xs ++ zs) y) ys = _
    rw [hnew, hi fun z hz => h z <| .tail _ hz]
    rfl

-- The first occurrence of a key comes behind those of the keys before it.
theorem firsts_take_succ {i : Nat} (hx : xs[i]? = some x) (hk : key x ∉ (xs.take i).map key) :
    firsts key (xs.take (i + 1)) = firsts key (xs.take i) ++ [x] := by
  rw [List.take_add_one, hx, Option.toList_some, firsts_append]
  refine insertAllNew_cons_of_not_mem ?_
  rwa [key_mem_firsts]

theorem getElem?_firsts {i : Nat} (hx : xs[i]? = some x) (hk : key x ∉ (xs.take i).map key) :
    (firsts key xs)[(firsts key (xs.take i)).length]? = some x := by
  have hp : firsts key (xs.take i) ++ [x] <+: firsts key xs :=
    firsts_take_succ hx hk ▸ firsts_isPrefix (xs.take_prefix _)
  rw [getElem?_of_isPrefix hp (by simp)]
  simp

theorem length_firsts_take_lt {i j : Nat} (hx : xs[i]? = some x)
    (hk : key x ∉ (xs.take i).map key) (h : i < j) :
    (firsts key (xs.take i)).length < (firsts key (xs.take j)).length := by
  have hp : firsts key (xs.take i) ++ [x] <+: firsts key (xs.take j) :=
    firsts_take_succ hx hk ▸ firsts_isPrefix (List.take_prefix_take_left h)
  simpa [Nat.succ_le_iff] using hp.length_le

theorem firsts_eq_self (h : (xs.map key).Nodup) : firsts key xs = xs :=
  insertAllNew_eq_append h

end Insertion

section Explore

variable {key : α → γ} {next : α → List α} {start xs ys : List α} {x y : α} {i j : Nat}

theorem explore_succ_of_getElem? (h : (explore key next start i)[i]? = some x) :
    explore key next start (i + 1) = insertAllNew key (explore key next start i) (next x) := by
  simp [explore, h]

theorem explore_prefix_succ : explore key next start i <+: explore key next start (i + 1) := by
  rw [explore]
  split
  · exact List.prefix_refl _
  · exact prefix_insertAllNew

theorem explore_isPrefix (h : i ≤ j) : explore key next start i <+: explore key next start j := by
  induction h
  case refl => exact List.prefix_refl _
  case step hi => exact hi.trans explore_prefix_succ

theorem start_prefix_explore : start <+: explore key next start i :=
  explore_isPrefix (i := 0) i.zero_le

theorem explore_eq_of_length_le (hl : (explore key next start i).length ≤ i) (h : i ≤ j) :
    explore key next start j = explore key next start i := by
  induction h
  case refl => rfl
  case step m hm hi =>
    have hnone : (explore key next start m)[m]? = none := by
      rw [hi]
      exact List.getElem?_eq_none <| Nat.le_trans hl hm
    rw [explore, hnone, hi]

theorem IsExplored.unique (hx : IsExplored key next start xs) (hy : IsExplored key next start ys) :
    xs = ys := by
  obtain ⟨i, hi, hli⟩ := hx
  obtain ⟨j, hj, hlj⟩ := hy
  subst hi hj
  cases Nat.le_total i j
  case inl h => exact (explore_eq_of_length_le hli h).symm
  case inr h => exact explore_eq_of_length_le hlj h

theorem IsExplored.explore_isPrefix (h : IsExplored key next start xs) :
    explore key next start i <+: xs := by
  obtain ⟨j, hj, hl⟩ := h
  subst hj
  cases Nat.le_total i j
  case inl h => exact Exploration.explore_isPrefix h
  case inr h => exact explore_eq_of_length_le hl h ▸ List.prefix_refl _

theorem nodup_explore (h : (start.map key).Nodup) : ((explore key next start i).map key).Nodup := by
  induction i
  case zero => exact h
  case succ i hi =>
    rw [explore]
    split
    · exact hi
    · exact nodup_insertAllNew hi

-- A property of the start that expansion hands on holds everywhere.
theorem explore_forall {P : α → Prop} (hp : explore key next start i <+: xs)
    (hs : ∀ x ∈ start, P x) (hn : ∀ x ∈ xs, P x → ∀ y ∈ xs, y ∈ next x → P y) :
    ∀ x ∈ explore key next start i, P x := by
  induction i
  case zero => exact hs
  case succ i hi =>
    have hi := hi <| explore_prefix_succ.trans hp
    intro x hx
    have hxs := hp.subset hx
    rw [explore] at hx
    split at hx
    case h_1 => exact hi x hx
    case h_2 z hz =>
      have hz := List.mem_of_getElem? hz
      cases mem_insertAllNew hx
      case inl h => exact hi x h
      case inr h => exact hn z (explore_prefix_succ.trans hp |>.subset hz) (hi z hz) x hxs h

-- An element is there at the latest when all elements before it have been expanded.
theorem getElem?_explore {m : Nat} (hm : m ≤ i) (h : i ≤ j) :
    (explore key next start j)[m]? = (explore key next start i)[m]? := by
  cases Nat.lt_or_ge m (explore key next start i).length
  case inl hlt => exact getElem?_of_isPrefix (explore_isPrefix h) hlt
  case inr hge => rw [explore_eq_of_length_le (Nat.le_trans hge hm) h]

-- What an expanded element leads to is there.
theorem next_mem_explore {m : Nat} (hm : m < i) (hx : (explore key next start i)[m]? = some x)
    (hy : y ∈ next x) : key y ∈ (explore key next start i).map key := by
  rw [getElem?_explore (Nat.le_refl m) (Nat.le_of_lt hm)] at hx
  have hp : explore key next start (m + 1) <+: explore key next start i := explore_isPrefix hm
  refine List.map_subset key hp.subset ?_
  rw [explore_succ_of_getElem? hx]
  exact key_mem_insertAllNew.mpr <| .inr <| List.mem_map_of_mem hy

theorem IsExplored.next_mem (h : IsExplored key next start xs) (hx : x ∈ xs) (hy : y ∈ next x) :
    key y ∈ xs.map key := by
  obtain ⟨i, hi, hl⟩ := h
  obtain ⟨m, hm, he⟩ := List.mem_iff_getElem.mp hx
  subst hi
  exact next_mem_explore (Nat.lt_of_lt_of_le hm hl) (List.getElem?_eq_some_iff.mpr ⟨hm, he⟩) hy

theorem IsExplored.start_isPrefix (h : IsExplored key next start xs) : start <+: xs := by
  obtain ⟨i, hi, _⟩ := h
  exact hi ▸ start_prefix_explore

theorem IsExplored.nodup (h : IsExplored key next start xs) (hs : (start.map key).Nodup) :
    (xs.map key).Nodup := by
  obtain ⟨i, hi, _⟩ := h
  exact hi ▸ nodup_explore hs

theorem IsExplored.forall {P : α → Prop} (h : IsExplored key next start xs)
    (hs : ∀ x ∈ start, P x) (hn : ∀ x ∈ xs, P x → ∀ y ∈ xs, y ∈ next x → P y) :
    ∀ x ∈ xs, P x := by
  obtain ⟨i, hi, _⟩ := h
  have hp : explore key next start i <+: xs := hi ▸ List.prefix_refl _
  exact fun x hx => explore_forall hp hs hn x (hi ▸ hx)

end Explore

section Tracking

variable {key : α → γ} {next : α → List α} {start xs xs' : List α} {x : α} {j : Nat}

-- The first occurrences in `xs` are those of an exploration, and so are the first occurrences
-- among its first `j` elements, which are the expanded ones.
def Tracks (key : α → γ) (next : α → List α) (start xs : List α) (j : Nat) : Prop :=
  ∃ i, firsts key xs = explore key next start i ∧
    firsts key (xs.take j) = (explore key next start i).take i

theorem Tracks.init : Tracks key next (firsts key xs) xs 0 :=
  ⟨0, rfl, rfl⟩

theorem take_succ_of_isPrefix (hx : xs[j]? = some x) (hp : xs <+: xs') :
    xs'.take (j + 1) = xs.take j ++ [x] := by
  have hlt : j < xs.length := (List.getElem?_eq_some_iff.mp hx).choose
  rw [take_of_isPrefix hp (by omega), List.take_add_one, hx, Option.toList_some]

-- The expansion of an element whose key has been expanded before adds no key.
theorem Tracks.step_of_mem (t : Tracks key next start xs j) (hx : xs[j]? = some x) (hp : xs <+: xs')
    (hxs : firsts key xs' = insertAllNew key (firsts key xs) (next x))
    (hkey : ∀ y ∈ xs, key y = key x → ∀ z ∈ next x, key z ∈ (next y).map key)
    (hmem : key x ∈ (xs.take j).map key) : Tracks key next start xs' (j + 1) := by
  obtain ⟨i, hi, ht⟩ := t
  have hold : key x ∈ ((explore key next start i).take i).map key :=
    ht ▸ key_mem_firsts.mpr hmem
  obtain ⟨y, hy, hyx⟩ := List.mem_map.mp hold
  obtain ⟨m, hm, hym⟩ := List.mem_take_iff_getElem.mp hy
  have hyxs : y ∈ xs := mem_of_mem_firsts <| hi ▸ List.mem_of_mem_take hy
  have hnext : ∀ z ∈ next x, key z ∈ (firsts key xs).map key := by
    intro z hz
    obtain ⟨w, hw, hwz⟩ := List.mem_map.mp <| hkey y hyxs hyx z hz
    rw [← hwz, hi]
    refine next_mem_explore (m := m) (by omega) ?_ hw
    exact List.getElem?_eq_some_iff.mpr ⟨by omega, hym⟩
  refine ⟨i, ?_, ?_⟩
  · rw [hxs, insertAllNew_eq_self hnext, hi]
  · rw [take_succ_of_isPrefix hx hp, firsts_append, ← ht]
    refine insertAllNew_eq_self ?_
    simpa [key_mem_firsts] using hmem

-- The first occurrence of a key is the element that the exploration expands at that point.
theorem Tracks.step_of_not_mem (t : Tracks key next start xs j) (hx : xs[j]? = some x)
    (hp : xs <+: xs') (hxs : firsts key xs' = insertAllNew key (firsts key xs) (next x))
    (hmem : key x ∉ (xs.take j).map key) : Tracks key next start xs' (j + 1) := by
  obtain ⟨i, hi, ht⟩ := t
  have hnew : firsts key (xs.take j ++ [x]) = (explore key next start i).take i ++ [x] := by
    rw [firsts_append, ht]
    have hm : key x ∉ ((explore key next start i).take i).map key := by
      rwa [← ht, key_mem_firsts]
    exact if_neg hm
  have hpre : (explore key next start i).take i ++ [x] <+: explore key next start i := by
    rw [← hnew, ← hi, ← take_succ_of_isPrefix hx xs.prefix_refl]
    exact firsts_isPrefix <| xs.take_prefix (j + 1)
  have hlen := hpre.length_le
  simp only [List.length_append, List.length_take, List.length_singleton] at hlen
  have hget : (explore key next start i)[i]? = some x := by
    have hi : i = ((explore key next start i).take i).length := by simp; omega
    rw [getElem?_of_isPrefix (i := i) hpre (by simp; omega),
      List.getElem?_append_right (by omega)]
    simp [← hi]
  refine ⟨i + 1, by rw [hxs, hi, explore_succ_of_getElem? hget], ?_⟩
  rw [take_succ_of_isPrefix hx hp, hnew, take_succ_of_isPrefix hget explore_prefix_succ]

theorem Tracks.step (t : Tracks key next start xs j) (hx : xs[j]? = some x) (hp : xs <+: xs')
    (hxs : firsts key xs' = insertAllNew key (firsts key xs) (next x))
    (hkey : ∀ y ∈ xs, key y = key x → ∀ z ∈ next x, key z ∈ (next y).map key) :
    Tracks key next start xs' (j + 1) := by
  by_cases hmem : key x ∈ (xs.take j).map key
  case pos => exact t.step_of_mem hx hp hxs hkey hmem
  case neg => exact t.step_of_not_mem hx hp hxs hmem

-- Elements that lead nowhere can be expanded without effect.
theorem Tracks.of_next_eq_nil (h : ∀ x ∈ xs, next x = []) (hj : j ≤ xs.length) :
    Tracks key next (firsts key xs) xs j := by
  induction j
  case zero => exact .init
  case succ j hi =>
    have hx : xs[j]? = some xs[j] := List.getElem?_eq_getElem hj
    have hnil : next xs[j] = [] := h _ <| List.getElem_mem hj
    refine (hi <| Nat.le_of_succ_le hj).step hx xs.prefix_refl ?_ ?_
    · rw [hnil, insertAllNew, List.foldl_nil]
    · simp [hnil]

theorem Tracks.isExplored (t : Tracks key next start xs j) (h : xs.length ≤ j) :
    IsExplored key next start (firsts key xs) := by
  obtain ⟨i, hi, ht⟩ := t
  rw [List.take_of_length_le h, hi] at ht
  refine ⟨i, hi.symm, ?_⟩
  rw [hi]
  have := congrArg List.length ht
  simp only [List.length_take] at this
  omega

end Tracking
end Exploration
end ShiftReduce
