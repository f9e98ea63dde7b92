import ShiftReduce.Symbol

namespace ShiftReduce

-- A bit mask: the terminal with the number `k` is a member iff bit `k` is set.
structure TerminalSet where
  bits : Nat
deriving DecidableEq

namespace TerminalSet

-- Powers are those of the core library, whatever else is imported.
attribute [local instance (high)] instPowNat

def contains (s : TerminalSet) (t : Terminal) : Bool :=
  s.bits.testBit t.number

instance : Membership Terminal TerminalSet where
  mem s t := s.contains t = true

instance (t : Terminal) (s : TerminalSet) : Decidable (t ∈ s) :=
  inferInstanceAs (Decidable (s.contains t = true))

instance : EmptyCollection TerminalSet where
  emptyCollection := ⟨0⟩

instance : Inhabited TerminalSet := ⟨∅⟩

def insert (s : TerminalSet) (t : Terminal) : TerminalSet :=
  ⟨s.bits ||| 2 ^ t.number⟩

instance : Singleton Terminal TerminalSet where
  singleton t := insert ∅ t

instance : Insert Terminal TerminalSet where
  insert t s := s.insert t

instance : Union TerminalSet where
  union a b := ⟨a.bits ||| b.bits⟩

instance : Inter TerminalSet where
  inter a b := ⟨a.bits &&& b.bits⟩

instance : SDiff TerminalSet where
  sdiff a b := ⟨a.bits ^^^ (a.bits &&& b.bits)⟩

def erase (s : TerminalSet) (t : Terminal) : TerminalSet :=
  s \ {t}

instance : HasSubset TerminalSet where
  Subset a b := a ∩ b = a

instance (a b : TerminalSet) : Decidable (a ⊆ b) :=
  inferInstanceAs (Decidable (a ∩ b = a))

def isEmpty (s : TerminalSet) : Bool :=
  s.bits == 0

-- The terminals of the set bits among the first `count` places of `x`, where the first place is for
-- the number `offset`.
def membersOfWord (offset x : Nat) : (count : Nat) → List Terminal
  | 0 => []
  | count + 1 =>
    if x % 2 = 1 then ⟨offset⟩ :: membersOfWord (offset + 1) (x / 2) count
    else membersOfWord (offset + 1) (x / 2) count

-- The terminals of the set bits of `x`, which has `2 ^ k` words of 32 places. Halves without a
-- member are passed over.
def membersFrom (offset : Nat) : (k : Nat) → (x : Nat) → List Terminal
  | 0, x => membersOfWord offset x 32
  | k + 1, x =>
    if x = 0 then []
    else
      let half := 32 * 2 ^ k
      membersFrom offset k (x % 2 ^ half) ++ membersFrom (offset + half) k (x >>> half)

def toList (s : TerminalSet) : List Terminal :=
  membersFrom 0 ((s.bits.log2 / 32 + 1).log2 + 1) s.bits

def size (s : TerminalSet) : Nat :=
  s.toList.length

def ofList (ts : List Terminal) : TerminalSet :=
  ts.foldl insert ∅

theorem mem_def {s : TerminalSet} {t : Terminal} : t ∈ s ↔ s.bits.testBit t.number = true :=
  Iff.rfl

@[ext]
theorem ext_mem {a b : TerminalSet} (h : ∀ t : Terminal, t ∈ a ↔ t ∈ b) : a = b := by
  obtain ⟨x⟩ := a
  obtain ⟨y⟩ := b
  congr
  refine Nat.eq_of_testBit_eq fun i => ?_
  exact Bool.eq_iff_iff.2 (h ⟨i⟩)

@[simp]
theorem not_mem_empty {t : Terminal} : t ∉ (∅ : TerminalSet) := by
  intro h
  simp [mem_def, EmptyCollection.emptyCollection] at h

@[simp]
theorem mem_insert {s : TerminalSet} {t u : Terminal} : u ∈ s.insert t ↔ u = t ∨ u ∈ s := by
  obtain ⟨t⟩ := t
  obtain ⟨u⟩ := u
  simp only [mem_def, insert, Nat.testBit_or, Nat.testBit_two_pow, Bool.or_eq_true,
    decide_eq_true_eq, Terminal.mk.injEq]
  exact ⟨fun h => h.symm.imp Eq.symm id, fun h => (h.imp Eq.symm id).symm⟩

@[simp]
theorem mem_singleton {t u : Terminal} : u ∈ ({t} : TerminalSet) ↔ u = t := by
  show u ∈ insert ∅ t ↔ _
  simp

@[simp]
theorem mem_union {a b : TerminalSet} {t : Terminal} : t ∈ a ∪ b ↔ t ∈ a ∨ t ∈ b := by
  show (a.bits ||| b.bits).testBit _ = true ↔ _
  simp [mem_def, Nat.testBit_or]

@[simp]
theorem mem_inter {a b : TerminalSet} {t : Terminal} : t ∈ a ∩ b ↔ t ∈ a ∧ t ∈ b := by
  show (a.bits &&& b.bits).testBit _ = true ↔ _
  simp [mem_def, Nat.testBit_and]

@[simp]
theorem mem_sdiff {a b : TerminalSet} {t : Terminal} : t ∈ a \ b ↔ t ∈ a ∧ t ∉ b := by
  show (a.bits ^^^ (a.bits &&& b.bits)).testBit _ = true ↔ _
  rw [mem_def, mem_def, Nat.testBit_xor, Nat.testBit_and]
  cases a.bits.testBit t.number <;> cases b.bits.testBit t.number <;> simp

@[simp]
theorem mem_erase {s : TerminalSet} {t u : Terminal} : u ∈ s.erase t ↔ u ∈ s ∧ u ≠ t := by
  simp [erase]

theorem subset_iff {a b : TerminalSet} : a ⊆ b ↔ ∀ t : Terminal, t ∈ a → t ∈ b := by
  show a ∩ b = a ↔ _
  constructor
  case mp =>
    intro h t ht
    rw [← h] at ht
    exact (mem_inter.1 ht).2
  case mpr =>
    intro h
    ext t
    simpa using h t

theorem membersOfWord_eq {offset x count : Nat} :
    membersOfWord offset x count =
      ((List.range' offset count).filter fun i => x.testBit (i - offset)).map Terminal.mk := by
  induction count generalizing offset x
  case zero => rfl
  case succ count hi =>
    have hrest : (List.range' (offset + 1) count).filter (fun i => x.testBit (i - offset)) =
        (List.range' (offset + 1) count).filter fun i => (x / 2).testBit (i - (offset + 1)) := by
      apply List.filter_congr
      intro i hmem
      rw [List.mem_range'_1] at hmem
      rw [Nat.testBit_div_two, show i - (offset + 1) + 1 = i - offset by omega]
    rw [membersOfWord, List.range'_succ, List.filter_cons, hrest, hi]
    by_cases h : x % 2 = 1 <;> simp [h, Nat.testBit_zero]

theorem membersFrom_eq {k x offset : Nat} (h : x < 2 ^ (32 * 2 ^ k : Nat)) :
    membersFrom offset k x =
      ((List.range' offset (32 * 2 ^ k)).filter fun i => x.testBit (i - offset)).map
        Terminal.mk := by
  induction k generalizing x offset
  case zero => exact membersOfWord_eq
  case succ k hi =>
    have hdouble : 32 * 2 ^ (k + 1) = 32 * 2 ^ k + 32 * 2 ^ k := by omega
    have hlow : x % 2 ^ (32 * 2 ^ k) < 2 ^ (32 * 2 ^ k) := Nat.mod_lt _ (Nat.two_pow_pos _)
    have hhigh : x >>> (32 * 2 ^ k) < 2 ^ (32 * 2 ^ k) := by
      rw [Nat.shiftRight_eq_div_pow]
      exact Nat.div_lt_of_lt_mul (by rwa [← Nat.pow_add, ← hdouble])
    unfold membersFrom
    split
    case isTrue => simp_all
    case isFalse =>
      dsimp only
      rw [hi hlow, hi hhigh, hdouble, ← List.range'_append_1, List.filter_append, List.map_append]
      congr 2 <;> apply List.filter_congr <;> intro i hmem <;> rw [List.mem_range'_1] at hmem
      · rw [Nat.testBit_mod_two_pow]
        simp
        omega
      · rw [Nat.testBit_shiftRight]
        congr 1
        omega

theorem toList_eq (s : TerminalSet) :
    s.toList =
      ((List.range (32 * 2 ^ ((s.bits.log2 / 32 + 1).log2 + 1))).filter s.bits.testBit).map
        Terminal.mk := by
  have hwords : s.bits.log2 / 32 + 1 < 2 ^ ((s.bits.log2 / 32 + 1).log2 + 1) := Nat.lt_log2_self
  have h : s.bits < 2 ^ (32 * 2 ^ ((s.bits.log2 / 32 + 1).log2 + 1)) :=
    Nat.lt_of_lt_of_le Nat.lt_log2_self (Nat.pow_le_pow_right (by decide) (by omega))
  rw [toList, membersFrom_eq h, List.range_eq_range']
  simp

@[simp]
theorem mem_toList {s : TerminalSet} {t : Terminal} : t ∈ s.toList ↔ t ∈ s := by
  obtain ⟨k⟩ := t
  simp only [toList_eq, List.mem_map, List.mem_filter, List.mem_range, Terminal.mk.injEq,
    exists_eq_right]
  refine ⟨fun h => h.2, fun h => ⟨?_, h⟩⟩
  have hge : 2 ^ k ≤ s.bits := Nat.ge_two_pow_of_testBit h
  have hne : s.bits ≠ 0 := Nat.ne_of_gt (Nat.lt_of_lt_of_le (Nat.two_pow_pos k) hge)
  have hk : k ≤ s.bits.log2 := (Nat.le_log2 hne).2 hge
  have hwords : s.bits.log2 / 32 + 1 < 2 ^ ((s.bits.log2 / 32 + 1).log2 + 1) := Nat.lt_log2_self
  omega

@[simp]
theorem mem_ofList {ts : List Terminal} {t : Terminal} : t ∈ ofList ts ↔ t ∈ ts := by
  suffices h : ∀ s : TerminalSet, t ∈ ts.foldl insert s ↔ t ∈ s ∨ t ∈ ts by
    simpa [ofList] using h ∅
  induction ts
  case nil => simp
  case cons u us hi =>
    intro s
    simp only [List.foldl_cons, hi, mem_insert, List.mem_cons]
    grind

end TerminalSet
end ShiftReduce
