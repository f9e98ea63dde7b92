import ShiftReduce.Text.Layout
import ShiftReduce.Text.Quoted

namespace ShiftReduce

-- A leaf is a token that was shifted, a node is a rule that was reduced.
inductive ParseTree
  | leaf (symbol value : String)
  | node (symbol : String) (children : List ParseTree)

namespace ParseTree

def symbol : ParseTree → String
  | leaf symbol _ | node symbol _ => symbol

def children : ParseTree → List ParseTree
  | leaf _ _ => []
  | node _ children => children

def value? : ParseTree → Option String
  | leaf _ value => some value
  | node _ _ => none

mutual

-- The pieces that the text of a tree is made of, with others behind them: a leaf shows its value in
-- quotes, a node its symbol and its children.
def pieces : ParseTree → List String → List String
  | leaf _ value, rest => Text.quoted value :: rest
  | node symbol children, rest => symbol :: "(" :: piecesOfAll children (")" :: rest)

-- The pieces of several trees, with commas between the trees.
def piecesOfAll : List ParseTree → List String → List String
  | [], rest => rest
  | [t], rest => t.pieces rest
  | t :: u :: us, rest => t.pieces (", " :: piecesOfAll (u :: us) rest)

end

def text (t : ParseTree) : String :=
  String.join (t.pieces [])

mutual

theorem pieces_append : (t : ParseTree) → (xs ys : List String) →
    t.pieces (xs ++ ys) = t.pieces xs ++ ys
  | leaf _ _, _, _ => rfl
  | node _ children, xs, ys => by
    rw [pieces, pieces, ← List.cons_append, piecesOfAll_append children]
    rfl

theorem piecesOfAll_append : (ts : List ParseTree) → (xs ys : List String) →
    piecesOfAll ts (xs ++ ys) = piecesOfAll ts xs ++ ys
  | [], _, _ => rfl
  | [t], xs, ys => by rw [piecesOfAll, piecesOfAll, pieces_append t]
  | t :: u :: us, xs, ys => by
    rw [piecesOfAll, piecesOfAll, piecesOfAll_append (u :: us), ← List.cons_append, pieces_append t]

end

theorem join_pieces (t : ParseTree) (rest : List String) :
    String.join (t.pieces rest) = t.text ++ String.join rest := by
  rw [← List.nil_append rest, pieces_append, String.join_append, text]
  simp

theorem join_piecesOfAll : (ts : List ParseTree) → (rest : List String) →
    String.join (piecesOfAll ts rest) = Text.joined ", " (ts.map text) ++ String.join rest
  | [], _ => by simp [piecesOfAll, Text.joined]
  | [t], _ => by simp [piecesOfAll, join_pieces]
  | t :: u :: us, rest => by
    rw [piecesOfAll, join_pieces, String.join_cons, join_piecesOfAll (u :: us)]
    simp [Text.joined, String.intercalate_cons_cons, String.append_assoc]

theorem text_leaf {symbol value : String} : (leaf symbol value).text = Text.quoted value := by
  simp [text, pieces]

theorem text_node {symbol : String} {children : List ParseTree} :
    (node symbol children).text =
      symbol ++ "(" ++ Text.joined ", " (children.map text) ++ ")" := by
  simp [text, pieces, join_piecesOfAll, String.append_assoc]

mutual

def decEq : (a b : ParseTree) → Decidable (a = b)
  | leaf s v, leaf s' v' =>
    if h : s = s' ∧ v = v' then isTrue (by rw [h.1, h.2])
    else isFalse (by rintro ⟨⟩; exact h ⟨rfl, rfl⟩)
  | node s ts, node s' ts' =>
    match decEqList ts ts' with
    | isTrue h =>
      if hs : s = s' then isTrue (by rw [hs, h]) else isFalse (by rintro ⟨⟩; exact hs rfl)
    | isFalse h => isFalse (by rintro ⟨⟩; exact h rfl)
  | leaf _ _, node _ _ => isFalse (by rintro ⟨⟩)
  | node _ _, leaf _ _ => isFalse (by rintro ⟨⟩)

def decEqList : (as bs : List ParseTree) → Decidable (as = bs)
  | [], [] => isTrue rfl
  | [], _ :: _ => isFalse (by rintro ⟨⟩)
  | _ :: _, [] => isFalse (by rintro ⟨⟩)
  | a :: as, b :: bs =>
    match decEq a b, decEqList as bs with
    | isTrue h, isTrue hs => isTrue (by rw [h, hs])
    | isFalse h, _ => isFalse (by rintro ⟨⟩; exact h rfl)
    | _, isFalse hs => isFalse (by rintro ⟨⟩; exact hs rfl)

end

instance : DecidableEq ParseTree := decEq

end ParseTree
end ShiftReduce
