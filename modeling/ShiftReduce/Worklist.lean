namespace ShiftReduce

-- A queue that takes every value only once, also after it has left the queue.
structure Worklist (α : Type) where
  -- First in, first out.
  pending : List α
  -- The latest first.
  seen : List α

namespace Worklist

variable {α : Type} [DecidableEq α]

def empty : Worklist α where
  pending := []
  seen := []

-- Tells whether the value is new.
def push (w : Worklist α) (x : α) : Worklist α × Bool :=
  if x ∈ w.seen then (w, false) else (⟨w.pending ++ [x], x :: w.seen⟩, true)

def pushAll (w : Worklist α) (xs : List α) : Worklist α :=
  xs.foldl (fun w x => (w.push x).1) w

def ofList (xs : List α) : Worklist α :=
  empty.pushAll xs

def pop? (w : Worklist α) : Option (α × Worklist α) :=
  match w.pending with
  | [] => none
  | x :: xs => some (x, { w with pending := xs })

-- The number of different values that were ever pushed.
def visited (w : Worklist α) : Nat :=
  w.seen.length

-- Takes values out and pushes what follows from them, at most `fuel` times, and gives the values in
-- the order in which they came out.
def traverse (next : α → List α) (fuel : Nat) (w : Worklist α) : List α :=
  match fuel with
  | 0 => []
  | fuel + 1 =>
    match w.pop? with
    | none => []
    | some (x, w) => x :: traverse next fuel (w.pushAll (next x))

theorem mem_seen_push {w : Worklist α} {x y : α} :
    y ∈ (w.push x).1.seen ↔ y = x ∨ y ∈ w.seen := by
  unfold push
  split
  · grind
  · simp

end Worklist
end ShiftReduce
