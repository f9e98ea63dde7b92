import ShiftReduce.Text.Graphic

namespace ShiftReduce.Text

def hexDigits (n : Nat) : String :=
  String.ofList (Nat.toDigits 16 n)

-- A quote and a backslash get a backslash in front, four characters have a letter of their own, and
-- any other one that does not show is written by its code point.
def quotedChar (c : Char) : String :=
  if c = '\x00' then "\\0"
  else if c = '\t' then "\\t"
  else if c = '\n' then "\\n"
  else if c = '\r' then "\\r"
  else if c = '"' then "\\\""
  else if c = '\\' then "\\\\"
  else if isGraphic c then String.singleton c
  else "\\u\x7b" ++ hexDigits c.toNat ++ "\x7d"

def quoted (s : String) : String :=
  "\"" ++ String.join (s.toList.map quotedChar) ++ "\""

end ShiftReduce.Text
