import Violable.Sorted.Set
import Violable.Sorted.Map
import Violable.Decimal.Plain
import Violable.Text.Quoted
import Violable.Text.Blank
import Violable.Text.Grouped
import Violable.Mark
import Violable.Harmony
import Violable.Alphabet
import Violable.Element
import Violable.Constraint
import Violable.Acceptor.Trim
import Violable.Acceptor.Language
import Violable.Acceptor.Search
import Violable.Acceptor.Traversal
import Violable.Acceptor.Window
import Violable.Acceptor.Expansion
import Violable.Tree.Removal
import Violable.Tree.Notation
import Violable.Tree.Cutting
import Violable.Scoring.Weights
import Violable.Scoring.Edit
import Violable.Scoring.Ranks
import Violable.Scoring.Evaluator
import Violable.Scoring.Semantics
import Violable.Scoring.Result
import Violable.Scoring.Explanation
import Violable.Grammar.Basic
import Violable.Grammar.Console
import Violable.Sample.Toy
import Violable.Sample.Heads
import Violable.Sample.RuleGrammar
import Violable.Config.Load
import Violable.Main
import Violable.Yaml.Tag
import Violable.Proofs.Worklist
import Violable.Proofs.Path
import Violable.Proofs.Trimming
import Violable.Proofs.Judging
import Violable.Proofs.Words
import Violable.Proofs.Windows
import Violable.Proofs.PrunedLanguage
import Violable.Proofs.TopRank
import Violable.Proofs.Ties
import Violable.Proofs.Brackets
import Violable.Proofs.Parts
import Violable.Proofs.ReadBack
import Violable.Proofs.Tables
import Violable.Proofs.Links
import Violable.Proofs.Preorder
import Violable.Proofs.Domination
import Violable.Proofs.Explained
import Violable.Proofs.Reordering
import Violable.Proofs.Settled
import Violable.Proofs.Reweighting
import Violable.Proofs.Selection
import Violable.Proofs.Coverage
import Violable.Proofs.Configured
import Violable.Proofs.Totals
import Violable.Proofs.Signs
import Violable.Proofs.Index
import Violable.Proofs.Parallel
import Violable.Proofs.Contents
import Violable.Proofs.Boundaries
import Violable.Proofs.Enumeration
import Violable.Proofs.Emptiness
import Violable.Proofs.LeastWindows
import Violable.Proofs.Memory
import Violable.Proofs.Navigation
import Violable.Proofs.Survivors
import Violable.Proofs.Unambiguous
import Violable.Proofs.Decision
import Violable.Proofs.Dominance
import Violable.Proofs.Promotion
import Violable.Proofs.Rounding
import Violable.Proofs.Culprit
import Violable.Proofs.Tallied
import Violable.Proofs.Editing
import Violable.Proofs.Closure
import Violable.Proofs.Underflow
import Violable.Proofs.Derivations
import Violable.Proofs.Slices
import Violable.Proofs.Lexemes
