namespace ShiftReduce.Text

def joined (separator : String) (items : List String) : String :=
  separator.intercalate items

-- Widths count characters, so that a column lines up whatever the encoding.
def padRight (width : Nat) (s : String) : String :=
  s ++ String.ofList (List.replicate (width - s.length) ' ')

def twoDigits (n : Nat) : String :=
  if n < 10 then "0" ++ toString n else toString n

@[simp]
theorem joined_singleton {separator s : String} : joined separator [s] = s := by
  simp [joined]

end ShiftReduce.Text
