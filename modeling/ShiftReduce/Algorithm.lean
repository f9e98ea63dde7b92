namespace ShiftReduce

inductive ItemKind
  | lr0
  | lr1
deriving DecidableEq

inductive Algorithm
  | lr0
  | lr1
  -- The LR(0) automaton, with lookaheads propagated over its kernels.
  | lalrByPropagation
  -- The canonical LR(1) automaton, with states of equal cores merged.
  | lalrByMerging
deriving DecidableEq

namespace Algorithm

-- The kind of items that the canonical collection is built from.
def itemKind : Algorithm → ItemKind
  | lr0 | lalrByPropagation => .lr0
  | lr1 | lalrByMerging => .lr1

def title : Algorithm → String
  | lr0 => "LR(0)"
  | lr1 => "LR(1)"
  | lalrByPropagation => "LALR(1) over LR(0)"
  | lalrByMerging => "LALR(1) from LR(1)"

end Algorithm

inductive Phase
  | closure
  | mergeLookaheads
  | goto
  -- Merge one pair of states whose kernels have equal cores.
  | mergeStates
  -- Point the transitions at the states that survived.
  | retarget
  -- Find what lookaheads the kernel of one state generates and passes on.
  | spontaneous
  -- Pass lookaheads on, once along every link.
  | propagate
  -- Compute the closure of one state anew from its final kernel.
  | reclose
  | done
deriving DecidableEq

namespace Phase

def title : Phase → String
  | closure => "Closure"
  | mergeLookaheads => "MergeLookaheads"
  | goto => "Goto"
  | mergeStates => "MergeStates"
  | retarget => "RewriteTransitions"
  | spontaneous => "Spontaneous"
  | propagate => "Propagate"
  | reclose => "Reclose"
  | done => "Done"

end Phase
end ShiftReduce
