import ShiftReduce.Algorithm
import ShiftReduce.Grammar.Record

namespace ShiftReduce

structure Settings where
  algorithm : Algorithm := .lalrByPropagation
  -- The name of the start symbol for rules that come as records.
  start : String := Grammar.defaultStart
deriving DecidableEq

namespace Settings

def withAlgorithm (s : Settings) (algorithm : Algorithm) : Settings :=
  { s with algorithm }

def withStart (s : Settings) (start : String) : Settings :=
  { s with start }

end Settings
end ShiftReduce
