import Std.Data.TreeMap
import ShiftReduce.Table.Policy

namespace ShiftReduce

-- What a grammar numbers.
class Numbered (σ : Type) where
  number : σ → Nat
  number_injective : ∀ {x y : σ}, number x = number y → x = y

instance : Numbered Terminal where
  number := Terminal.number
  number_injective := congrArg Terminal.mk

instance : Numbered Nonterminal where
  number := Nonterminal.number
  number_injective := congrArg Nonterminal.mk

-- Puts an entry before the first one that it outranks.
def placeEntry (g : Grammar) (entry : Entry) : List Entry → List Entry
  | [] => [entry]
  | e :: rest => if rank g entry e = .lt then entry :: e :: rest else e :: placeEntry g entry rest

-- Adds an entry to a cell unless it has the action already, and tells whether another action was
-- there before.
def insertEntry (g : Grammar) (cell : List Entry) (entry : Entry) : List Entry × Bool :=
  if cell.any (·.action = entry.action) then (cell, false)
  else (placeEntry g entry cell, !cell.isEmpty)

variable {σ : Type} [Numbered σ]

-- The order of keys: by state, and within a state by symbol.
def compareKeys (a b : StateId × σ) : Ordering :=
  (compare a.1.number b.1.number).then (compare (Numbered.number a.2) (Numbered.number b.2))

theorem compareKeys_eq_compareLex :
    @compareKeys σ _ = compareLex (compareOn (·.1.number)) (compareOn (Numbered.number ·.2)) := by
  funext a b
  simp [compareKeys, compareLex, compareOn]

instance : Std.TransCmp (@compareKeys σ _) := by
  rw [compareKeys_eq_compareLex]
  infer_instance

instance : Std.LawfulEqCmp (@compareKeys σ _) where
  eq_of_compare {a b} h := by
    simp only [compareKeys, Ordering.then_eq_eq, Nat.compare_eq_eq] at h
    obtain ⟨⟨i⟩, x⟩ := a
    obtain ⟨⟨j⟩, y⟩ := b
    simp_all only [Prod.mk.injEq, true_and]
    exact Numbered.number_injective h.2

-- The cells of one half of a table. They keep the order in which they got their first entry.
structure Cells (σ : Type) [Numbered σ] where
  -- The keys of the cells, the latest one first.
  keys : List (StateId × σ)
  entries : Std.TreeMap (StateId × σ) (List Entry) compareKeys

namespace Cells

def empty : Cells σ where
  keys := []
  entries := ∅

-- The entries of a cell, the best one first. A cell without entries is empty.
def cell (c : Cells σ) (key : StateId × σ) : List Entry :=
  c.entries.getD key []

def inOrder (c : Cells σ) : List (StateId × σ) :=
  c.keys.reverse

def size (c : Cells σ) : Nat :=
  c.keys.length

-- The symbols of the cells of one state, in the order in which they got their first entry.
def symbolsOf (c : Cells σ) (q : StateId) : List σ :=
  (c.inOrder.filter (·.1 = q)).map (·.2)

def rowOf (c : Cells σ) (q : StateId) : List ((StateId × σ) × List Entry) :=
  c.entries.toList.filter (·.1.1 = q)

def insert (g : Grammar) (c : Cells σ) (key : StateId × σ) (entry : Entry) : Cells σ × Bool :=
  let (cell, conflict) := insertEntry g (c.cell key) entry
  let keys := if key ∈ c.entries then c.keys else key :: c.keys
  (⟨keys, c.entries.insert key cell⟩, conflict)

-- Inserts entries in order, and tells whether there was any conflict.
def insertAll (g : Grammar) (c : Cells σ) : List ((StateId × σ) × Entry) → Cells σ × Bool
  | [] => (c, false)
  | (key, entry) :: rest =>
    let (c, conflict₁) := c.insert g key entry
    let (c, conflict₂) := c.insertAll g rest
    (c, conflict₁ || conflict₂)

@[simp]
theorem cell_empty {key : StateId × σ} : (empty : Cells σ).cell key = [] := by
  simp [cell, empty]

theorem cell_insert_self {g : Grammar} {c : Cells σ} {key : StateId × σ} {entry : Entry} :
    (c.insert g key entry).1.cell key = (insertEntry g (c.cell key) entry).1 := by
  simp [cell, insert]

theorem cell_insert_of_ne {g : Grammar} {c : Cells σ} {key other : StateId × σ} {entry : Entry}
    (h : other ≠ key) : (c.insert g key entry).1.cell other = c.cell other := by
  have hne : compareKeys key other ≠ .eq := fun he => h (Std.LawfulEqCmp.eq_of_compare he).symm
  simp [cell, insert, Std.TreeMap.getD_insert, hne]

end Cells
end ShiftReduce
