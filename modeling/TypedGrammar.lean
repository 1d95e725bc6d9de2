import TypedGrammar.Ascending
import TypedGrammar.BitSet
import TypedGrammar.BitWalk
import TypedGrammar.BitWords
import TypedGrammar.Constraint.Basic
import TypedGrammar.Constraint.Propagation
import TypedGrammar.Decimal.Binary
import TypedGrammar.Decimal.Ratio
import TypedGrammar.Decimal.Shortest
import TypedGrammar.Decimal.Text
import TypedGrammar.Demo.Arithmetic
import TypedGrammar.Demo.CommandLine
import TypedGrammar.Demo.Pruning
import TypedGrammar.Demo.Run
import TypedGrammar.Derivation.Commit
import TypedGrammar.Derivation.Count
import TypedGrammar.Derivation.Dot
import TypedGrammar.Derivation.Expression
import TypedGrammar.Derivation.Parse
import TypedGrammar.Derivation.Score
import TypedGrammar.Derivation.Search
import TypedGrammar.Derivation.Typing
import TypedGrammar.Derivation.Usage
import TypedGrammar.Derivation.Witness
import TypedGrammar.Expr.Basic
import TypedGrammar.Expr.Text
import TypedGrammar.Failure
import TypedGrammar.Grammar.Basic
import TypedGrammar.Grammar.Compact
import TypedGrammar.Grammar.Edit
import TypedGrammar.Grammar.Listing
import TypedGrammar.Grammar.Merge
import TypedGrammar.Grammar.Probability
import TypedGrammar.LogProbability
import TypedGrammar.Main
import TypedGrammar.NameMap
import TypedGrammar.Outcome
import TypedGrammar.Path
import TypedGrammar.Proofs.AskingInOrder
import TypedGrammar.Proofs.Constraint.Folding
import TypedGrammar.Proofs.Constraint.Meaning
import TypedGrammar.Proofs.Constraint.Narrowing
import TypedGrammar.Proofs.Constraint.NextInOrder
import TypedGrammar.Proofs.Constraint.Retargeting
import TypedGrammar.Proofs.Derivation.AddingOrder
import TypedGrammar.Proofs.Derivation.BoundedDepth
import TypedGrammar.Proofs.Derivation.Breaches
import TypedGrammar.Proofs.Derivation.CheckedPaths
import TypedGrammar.Proofs.Derivation.Committing
import TypedGrammar.Proofs.Derivation.Compacting
import TypedGrammar.Proofs.Derivation.Complete
import TypedGrammar.Proofs.Derivation.Counting
import TypedGrammar.Proofs.Derivation.Derivability
import TypedGrammar.Proofs.Derivation.Drawing
import TypedGrammar.Proofs.Derivation.Enumeration
import TypedGrammar.Proofs.Derivation.Expansion
import TypedGrammar.Proofs.Derivation.Filling
import TypedGrammar.Proofs.Derivation.Frontier
import TypedGrammar.Proofs.Derivation.KindsAfterMerge
import TypedGrammar.Proofs.Derivation.LegalRewriting
import TypedGrammar.Proofs.Derivation.ParseCalls
import TypedGrammar.Proofs.Derivation.ParseCompleteness
import TypedGrammar.Proofs.Derivation.ParseDepth
import TypedGrammar.Proofs.Derivation.ParseMatching
import TypedGrammar.Proofs.Derivation.ParseSoundness
import TypedGrammar.Proofs.Derivation.PreferredParse
import TypedGrammar.Proofs.Derivation.PreferredWitness
import TypedGrammar.Proofs.Derivation.Productivity
import TypedGrammar.Proofs.Derivation.Pruning
import TypedGrammar.Proofs.Derivation.Refinement
import TypedGrammar.Proofs.Derivation.Renaming
import TypedGrammar.Proofs.Derivation.Rewriting
import TypedGrammar.Proofs.Derivation.SameRules
import TypedGrammar.Proofs.Derivation.SearchFuel
import TypedGrammar.Proofs.Derivation.Substitution
import TypedGrammar.Proofs.Derivation.TreeProbability
import TypedGrammar.Proofs.Derivation.Undoing
import TypedGrammar.Proofs.Derivation.UsedRules
import TypedGrammar.Proofs.Derivation.WellTyped
import TypedGrammar.Proofs.ExpressionText
import TypedGrammar.Proofs.Grammar.Answers
import TypedGrammar.Proofs.Grammar.Breaches
import TypedGrammar.Proofs.Grammar.Changes
import TypedGrammar.Proofs.Grammar.Compacting
import TypedGrammar.Proofs.Grammar.Consistency
import TypedGrammar.Proofs.Grammar.Distinct
import TypedGrammar.Proofs.Grammar.Embedding
import TypedGrammar.Proofs.Grammar.FailedChanges
import TypedGrammar.Proofs.Grammar.Merging
import TypedGrammar.Proofs.Grammar.MergingAgain
import TypedGrammar.Proofs.Grammar.Normalizing
import TypedGrammar.Proofs.Grammar.Outline
import TypedGrammar.Proofs.Grammar.Reachable
import TypedGrammar.Proofs.Grammar.Removal
import TypedGrammar.Proofs.Grammar.Renaming
import TypedGrammar.Proofs.Grammar.RuleTable
import TypedGrammar.Proofs.Grammar.SameRules
import TypedGrammar.Proofs.Grammar.SoundTable
import TypedGrammar.Proofs.Grammar.Stability
import TypedGrammar.Proofs.Grammar.Success
import TypedGrammar.Proofs.Members
import TypedGrammar.Proofs.NameOrder
import TypedGrammar.Proofs.Placeholders
import TypedGrammar.Proofs.Sequence
import TypedGrammar.Proofs.SetComparison
import TypedGrammar.Proofs.SetIteration
import TypedGrammar.Proofs.SetRefinement
import TypedGrammar.Proofs.Tree.Context
import TypedGrammar.Proofs.Tree.FilledWalk
import TypedGrammar.Proofs.Tree.FirstDifference
import TypedGrammar.Proofs.Tree.HoleOrder
import TypedGrammar.Proofs.Tree.LeftCut
import TypedGrammar.Proofs.Tree.LeftRules
import TypedGrammar.Proofs.Tree.PathWalks
import TypedGrammar.Proofs.Tree.Places
import TypedGrammar.Proofs.Tree.Positions
import TypedGrammar.Proofs.Tree.Renaming
import TypedGrammar.Proofs.Tree.Sameness
import TypedGrammar.Proofs.Tree.Swapping
import TypedGrammar.RuleId
import TypedGrammar.Sequence
import TypedGrammar.Symbol
import TypedGrammar.Text.Blank
import TypedGrammar.Text.Printable
import TypedGrammar.Text.Quoted
import TypedGrammar.Tree.Address
import TypedGrammar.Tree.Basic
import TypedGrammar.Tree.Holes
import TypedGrammar.Tree.Walk
import TypedGrammar.Value
