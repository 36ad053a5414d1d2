import Deduction.Arena
import Deduction.Batch.Pool
import Deduction.Batch.Statistics
import Deduction.Calculus
import Deduction.Catalogue
import Deduction.Clause
import Deduction.Clause.Definition
import Deduction.Clause.Distribution
import Deduction.Clause.Strategy
import Deduction.CommandLine
import Deduction.Document.Clause
import Deduction.Document.Formula
import Deduction.Document.NonClausal
import Deduction.Document.Resolution
import Deduction.Document.SequentProof
import Deduction.Document.Tableau
import Deduction.Error
import Deduction.Formula
import Deduction.Formula.NegationNormal
import Deduction.Formula.Skolem
import Deduction.Formula.Variables
import Deduction.Grammar.Clause
import Deduction.Grammar.Formula
import Deduction.Grammar.Identifier
import Deduction.Grammar.Term
import Deduction.Grammar.Text
import Deduction.Json
import Deduction.Json.Decode
import Deduction.Json.Number
import Deduction.Json.Read
import Deduction.Json.Sorted
import Deduction.Json.Write
import Deduction.KeyMap
import Deduction.Main
import Deduction.NonClausal.Basic
import Deduction.NonClausal.Refusal
import Deduction.Proofs.Answers
import Deduction.Proofs.Batch.Scheduling
import Deduction.Proofs.Clause.Comparison
import Deduction.Proofs.Clause.Definition
import Deduction.Proofs.Clause.Distribution
import Deduction.Proofs.Clause.FirstOrder
import Deduction.Proofs.Clause.Strategy
import Deduction.Proofs.Clause.Suffix
import Deduction.Proofs.Distinct
import Deduction.Proofs.Document.Formula
import Deduction.Proofs.Document.State
import Deduction.Proofs.Failure
import Deduction.Proofs.Formula.Capture
import Deduction.Proofs.Formula.Meaning
import Deduction.Proofs.Formula.NormalForm
import Deduction.Proofs.Formula.Occurrences
import Deduction.Proofs.Formula.Skolem
import Deduction.Proofs.Formula.SkolemModels
import Deduction.Proofs.Formula.Symbols
import Deduction.Proofs.Formula.UniversalNames
import Deduction.Proofs.Grammar.ClauseNotation
import Deduction.Proofs.Grammar.Clauses
import Deduction.Proofs.Grammar.Instances
import Deduction.Proofs.Grammar.Language
import Deduction.Proofs.Grammar.Readable
import Deduction.Proofs.Grammar.Recognition
import Deduction.Proofs.Grammar.RoundTrip
import Deduction.Proofs.Json.RoundTrip
import Deduction.Proofs.Legible
import Deduction.Proofs.NonClausal.Answers
import Deduction.Proofs.NonClausal.Branches
import Deduction.Proofs.NonClausal.Instantiation
import Deduction.Proofs.NonClausal.Moves
import Deduction.Proofs.NonClausal.Names
import Deduction.Proofs.NonClausal.OpenLeaves
import Deduction.Proofs.NonClausal.Soundness
import Deduction.Proofs.NonClausal.Undo
import Deduction.Proofs.Outcome
import Deduction.Proofs.Ownership
import Deduction.Proofs.Quoted
import Deduction.Proofs.ReadingBack
import Deduction.Proofs.Replay
import Deduction.Proofs.Resolution.Answers
import Deduction.Proofs.Resolution.Apart
import Deduction.Proofs.Resolution.Clauses
import Deduction.Proofs.Resolution.Completeness
import Deduction.Proofs.Resolution.Factorization
import Deduction.Proofs.Resolution.Lookup
import Deduction.Proofs.Resolution.Models
import Deduction.Proofs.Resolution.Names
import Deduction.Proofs.Resolution.Rules
import Deduction.Proofs.Resolution.Soundness
import Deduction.Proofs.Resolution.Steps
import Deduction.Proofs.Rules
import Deduction.Proofs.SealText
import Deduction.Proofs.Sealing
import Deduction.Proofs.Semantics
import Deduction.Proofs.SequentProof.Answers
import Deduction.Proofs.SequentProof.Decision
import Deduction.Proofs.SequentProof.Meaning
import Deduction.Proofs.SequentProof.Moves
import Deduction.Proofs.SequentProof.Overflow
import Deduction.Proofs.SequentProof.Termination
import Deduction.Proofs.SequentProof.Undo
import Deduction.Proofs.SequentProof.Validity
import Deduction.Proofs.Shape
import Deduction.Proofs.Solving
import Deduction.Proofs.Substitution
import Deduction.Proofs.Tableau.Answers
import Deduction.Proofs.Tableau.Completeness
import Deduction.Proofs.Tableau.Connection
import Deduction.Proofs.Tableau.Expansion
import Deduction.Proofs.Tableau.Independence
import Deduction.Proofs.Tableau.Leaves
import Deduction.Proofs.Tableau.Moves
import Deduction.Proofs.Tableau.Refutation
import Deduction.Proofs.Tableau.Regularity
import Deduction.Proofs.Tableau.Soundness
import Deduction.Proofs.Tableau.Undo
import Deduction.Proofs.TableauTrees
import Deduction.Proofs.Tree.Branch
import Deduction.Proofs.Tree.Closing
import Deduction.Proofs.Tree.Growth
import Deduction.Proofs.Tree.Overflow
import Deduction.Proofs.Tree.Reference
import Deduction.Proofs.Unification
import Deduction.Proofs.Valuation
import Deduction.Proofs.Variant
import Deduction.Proofs.WellNamed
import Deduction.Request
import Deduction.Resolution.Basic
import Deduction.Resolution.FirstOrder
import Deduction.Resolution.Propositional
import Deduction.Resolution.Refusal
import Deduction.Rules
import Deduction.Seal
import Deduction.Sequent
import Deduction.SequentProof.Basic
import Deduction.SequentProof.Refusal
import Deduction.Substitution
import Deduction.Tableau.Basic
import Deduction.Tableau.FirstOrder
import Deduction.Tableau.Propositional
import Deduction.Tableau.Refusal
import Deduction.Term
import Deduction.Text.Decimal
import Deduction.Text.Printable
import Deduction.Text.Quoted
import Deduction.Text.Scan
import Deduction.Text.Sha256
import Deduction.Text.Space
import Deduction.Text.Suffix
import Deduction.Tree
import Deduction.Unify
import Deduction.Variant
