import ShiftReduce.Automaton.Printer
import ShiftReduce.Record.Rules
import ShiftReduce.Record.Tokens
import ShiftReduce.Table.Normal
import ShiftReduce.Table.Printer
import ShiftReduce.Workbench
import ShiftReduce.Proofs.Closure.Interleaving
import ShiftReduce.Proofs.Construction.BestRules
import ShiftReduce.Proofs.Construction.KernelEquality
import ShiftReduce.Proofs.Construction.Operations
import ShiftReduce.Proofs.Construction.Uniformity
import ShiftReduce.Proofs.Derivation.Forms
import ShiftReduce.Proofs.Derivation.ViablePrefixes
import ShiftReduce.Proofs.FirstSets.Passes
import ShiftReduce.Proofs.Grammar.Loading
import ShiftReduce.Proofs.Lalr.Agreement
import ShiftReduce.Proofs.Lalr.LeastSolution
import ShiftReduce.Proofs.Lalr.Refinement
import ShiftReduce.Proofs.Lalr.Resolution
import ShiftReduce.Proofs.Lalr.StateCounts
import ShiftReduce.Proofs.Parser.Acceptance
import ShiftReduce.Proofs.Parser.Errors
import ShiftReduce.Proofs.Parser.Failures
import ShiftReduce.Proofs.Parser.Halting
import ShiftReduce.Proofs.Table.Contents
import ShiftReduce.Proofs.Table.Normal
import ShiftReduce.Proofs.Table.Ranking
import ShiftReduce.Proofs.Workbench.History
