import ShiftReduce.Error
import ShiftReduce.Grammar.Vocabulary

namespace ShiftReduce

-- Where a token stands in its source, as far as the tokenizer tells.
structure Position where
  start : Option Nat := none
  line : Option Nat := none
  column : Option Nat := none
  endLine : Option Nat := none
  endColumn : Option Nat := none
  stop : Option Nat := none
deriving DecidableEq

structure Token where
  -- The name of a terminal.
  kind : String
  value : String
  position : Position := {}
deriving DecidableEq

namespace Token

def endOfInput : Token where
  kind := Vocabulary.endOfInputName
  value := ""

def IsEndOfInput (t : Token) : Prop :=
  t.kind = Vocabulary.endOfInputName

instance (t : Token) : Decidable t.IsEndOfInput :=
  inferInstanceAs (Decidable (_ = _))

end Token

structure TokenStream where
  tokens : Array Token
deriving DecidableEq

namespace TokenStream

-- Ends the stream with an end of input, unless it has one there.
def ofTokens (tokens : List Token) : TokenStream :=
  match tokens.getLast? with
  | some t => if t.IsEndOfInput then ⟨tokens.toArray⟩ else ⟨(tokens ++ [Token.endOfInput]).toArray⟩
  | none => ⟨#[Token.endOfInput]⟩

def raw (tokens : List Token) : TokenStream :=
  ⟨tokens.toArray⟩

def get? (s : TokenStream) (index : Nat) : Option Token :=
  s.tokens[index]?

def get (s : TokenStream) (index : Nat) : Except Error Token :=
  match s.get? index with
  | some t => .ok t
  | none => .error (.sequencing (.tokenExhausted index))

def length (s : TokenStream) : Nat :=
  s.tokens.size

def isEmpty (s : TokenStream) : Bool :=
  s.tokens.isEmpty

end TokenStream
end ShiftReduce
