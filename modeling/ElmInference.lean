import ElmInference.Assoc
import ElmInference.FieldReferences
import ElmInference.Typeclass
import ElmInference.Ty.Basic
import ElmInference.Ty.Subst
import ElmInference.Ty.Render
import ElmInference.Ast.Basic
import ElmInference.Ast.Build
import ElmInference.Ast.Fingerprint
import ElmInference.OperatorChain
import ElmInference.Store.Solutions
import ElmInference.Store.Basic
import ElmInference.Store.Zonk
import ElmInference.Store.Occurs
import ElmInference.Store.Flatten
import ElmInference.Store.Constrain
import ElmInference.Store.Unify
import ElmInference.Scheme
import ElmInference.Report.Position
import ElmInference.Report.Basic
import ElmInference.Problem
import ElmInference.Scope.Basic
import ElmInference.Scope.Prelude
import ElmInference.Declared.Basic
import ElmInference.Declared.Convert
import ElmInference.Cache
import ElmInference.Infer.Evaluation
import ElmInference.Infer.Monad
import ElmInference.Infer.Pattern
import ElmInference.Infer.Reference
import ElmInference.Infer.Expr
import ElmInference.Engine
import ElmInference.Proofs.Assoc
import ElmInference.Proofs.Store.Mentions
import ElmInference.Proofs.Types.Sightings
import ElmInference.Proofs.Types.Building
import ElmInference.Proofs.Store.Access
import ElmInference.Proofs.Store.Graph
import ElmInference.Proofs.Store.Measure
import ElmInference.Proofs.Store.Walks
import ElmInference.Proofs.Store.Rows
import ElmInference.Proofs.Store.Moves
import ElmInference.Proofs.Unify.Joining
import ElmInference.Proofs.Unify.Constraining
import ElmInference.Proofs.Unify.Binding
import ElmInference.Proofs.Unify.Safety
import ElmInference.Proofs.Store.Facts
import ElmInference.Proofs.Unify.Learning
import ElmInference.Proofs.Unify.Depth
import ElmInference.Proofs.Unify.Clock
import ElmInference.Proofs.Unify.Fixpoint
import ElmInference.Proofs.Unify.Acyclicity
import ElmInference.Proofs.Unify.StaleEnds
import ElmInference.Proofs.Store.Reading
import ElmInference.Proofs.Store.Models
import ElmInference.Proofs.Unify.Soundness
import ElmInference.Proofs.Store.Zonking
import ElmInference.Proofs.Unify.Agreement
import ElmInference.Proofs.Unify.Classes
import ElmInference.Proofs.Unify.Plain
import ElmInference.Proofs.Unify.Completeness
import ElmInference.Proofs.Unify.Generality
import ElmInference.Proofs.Store.Crossings
import ElmInference.Proofs.Store.Tracking
import ElmInference.Proofs.Store.Fields
import ElmInference.Proofs.Store.Flatness
import ElmInference.Proofs.Store.Rezonking
import ElmInference.Proofs.Unify.Parts
import ElmInference.Proofs.Unify.Changes
import ElmInference.Proofs.Unify.Alterations
import ElmInference.Proofs.Unify.Histories
import ElmInference.Proofs.Unify.AliasLoops
import ElmInference.Proofs.Store.Mints
import ElmInference.Proofs.Store.Advances
import ElmInference.Proofs.Unify.Conformity
import ElmInference.Proofs.Infer.Runs
import ElmInference.Proofs.Infer.FieldAccess
import ElmInference.Proofs.Infer.Equalities
import ElmInference.Proofs.Infer.Conversions
import ElmInference.Proofs.Infer.Conduct
import ElmInference.Proofs.Infer.Definitions
import ElmInference.Proofs.Infer.Expressions
import ElmInference.Proofs.Infer.Escape
import ElmInference.Proofs.Store.Frames
import ElmInference.Proofs.Infer.Scopes
import ElmInference.Proofs.Infer.Waiting
import ElmInference.Proofs.Infer.Capture
import ElmInference.Proofs.Infer.Meanings
import ElmInference.Proofs.Infer.References
import ElmInference.Proofs.Infer.Concord
import ElmInference.Proofs.Infer.Lockstep
import ElmInference.Proofs.Infer.Requests
import ElmInference.Proofs.Infer.Composition
import ElmInference.Proofs.Infer.Edits
import ElmInference.Proofs.Infer.Settings
import ElmInference.Proofs.Infer.Results
import ElmInference.Proofs.Infer.Coverage
import ElmInference.Proofs.Infer.NodeTypes
import ElmInference.Proofs.Infer.ValueCycles
import ElmInference.Proofs.Infer.Cancellation
import ElmInference.Proofs.Infer.Instances
import ElmInference.Proofs.Unify.Recordless
import ElmInference.Proofs.Infer.Copies
import ElmInference.Proofs.Infer.Parameters
import ElmInference.Proofs.Infer.Answers
import ElmInference.Proofs.Infer.Principal
import ElmInference.Proofs.Infer.Fragments
import ElmInference.Proofs.Infer.SignatureVars
import ElmInference.Proofs.Infer.Tandem
import ElmInference.Proofs.Infer.Demand
import ElmInference.Proofs.Infer.Recordfree
import ElmInference.Proofs.Infer.Fieldless
import ElmInference.Proofs.Infer.Accounts
import ElmInference.Proofs.Infer.Derivations
import ElmInference.Proofs.Infer.ExprDerivations
import ElmInference.Proofs.Infer.NodeRules
import ElmInference.Proofs.Infer.ClosedTypes
import ElmInference.Proofs.Infer.WrittenOut
import ElmInference.Proofs.Unify.Footprint
import ElmInference.Proofs.Unify.Repetition
import ElmInference.Proofs.Unify.Additions
import ElmInference.Proofs.Infer.Independence
import ElmInference.Proofs.Operators.Grouping
import ElmInference.Proofs.Operators.Descent
import ElmInference.Proofs.Operators.Conflicts
import ElmInference.Proofs.Infer.AliasCycles
import ElmInference.Proofs.Infer.Denotations
import ElmInference.Proofs.Cache.History
import ElmInference.Proofs.Types.Rendering
import ElmInference.Proofs.Infer.Reachability
import ElmInference.Proofs.Infer.Destructuring
import ElmInference.Proofs.Report.Order
import ElmInference.Proofs.Report.Positions
import ElmInference.Proofs.Types.Substitution
import ElmInference.Proofs.Types.Merging
import ElmInference.Proofs.Infer.Currying
import ElmInference.Proofs.Types.Telling
import ElmInference.Proofs.Types.Readability
import ElmInference.Proofs.Types.Unambiguity
