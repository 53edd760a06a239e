import StagedJoin.Argument
import StagedJoin.Binary64
import StagedJoin.Bound
import StagedJoin.Bound.Binding
import StagedJoin.ColumnType
import StagedJoin.ColumnType.Json
import StagedJoin.ColumnType.Parser
import StagedJoin.Compiler
import StagedJoin.Condition
import StagedJoin.Condition.Compiler
import StagedJoin.Condition.Lowering
import StagedJoin.Config
import StagedJoin.Config.Json
import StagedJoin.Decimal
import StagedJoin.Diagnostic
import StagedJoin.Diagnostic.Internal
import StagedJoin.Diagnostic.Json
import StagedJoin.Diagnostic.Rendering
import StagedJoin.Expr
import StagedJoin.Failure
import StagedJoin.Failure.Wording
import StagedJoin.Fragment
import StagedJoin.JoinOptions
import StagedJoin.Json
import StagedJoin.Json.Decode
import StagedJoin.Json.Number
import StagedJoin.Json.Reader
import StagedJoin.Json.Writer
import StagedJoin.Operator
import StagedJoin.OrderedMap
import StagedJoin.Qualifier
import StagedJoin.Query
import StagedJoin.Query.Append
import StagedJoin.Query.Json
import StagedJoin.Schema
import StagedJoin.Schema.Json
import StagedJoin.Scope
import StagedJoin.Source
import StagedJoin.Source.Values
import StagedJoin.Staged
import StagedJoin.Staged.Json
import StagedJoin.Text.Blank
import StagedJoin.Text.CodeRange
import StagedJoin.Text.Extending
import StagedJoin.Text.Quoted
import StagedJoin.Text.Unprintable
import StagedJoin.Value
import StagedJoin.Value.Json
import StagedJoin.Proofs.Condition.Slots
import StagedJoin.Proofs.Outcome
import StagedJoin.Proofs.Condition.Shift
import StagedJoin.Proofs.OrderedMap
import StagedJoin.Proofs.Scope.Slots
import StagedJoin.Proofs.Compiler.Parts
import StagedJoin.Proofs.Bound.Absorption
import StagedJoin.Proofs.Compiler.Relocation
import StagedJoin.Proofs.Bound.Depth
import StagedJoin.Proofs.Bound.Termination
import StagedJoin.Proofs.Query.Origin
import StagedJoin.Proofs.Bound.Failures
import StagedJoin.Proofs.Bound.Meaning
import StagedJoin.Proofs.Query.Placeholders
import StagedJoin.Proofs.Bound.Layout
import StagedJoin.Proofs.Bound.Appended
import StagedJoin.Proofs.Bound.Values
import StagedJoin.Proofs.Condition.Resolution
import StagedJoin.Proofs.Compiler.Options
import StagedJoin.Proofs.Bound.Arguments
import StagedJoin.Proofs.Bound.Dynamic
import StagedJoin.Proofs.Bound.Supplied
import StagedJoin.Proofs.Query.Composition
import StagedJoin.Proofs.Query.Aliases
import StagedJoin.Proofs.Query.Associativity
import StagedJoin.Proofs.Scope.BindingList
import StagedJoin.Proofs.JoinOptions.Validation
import StagedJoin.Proofs.JoinOptions.Reading
import StagedJoin.Proofs.Source.Grammar
import StagedJoin.Proofs.Scope.Wildcard
import StagedJoin.Proofs.Bound.CrossQuery
import StagedJoin.Proofs.Bound.Membership
import StagedJoin.Proofs.Compiler.Path
import StagedJoin.Proofs.Bound.Columns
import StagedJoin.Proofs.ColumnType.Names
import StagedJoin.Proofs.Diagnostic.Rendering
import StagedJoin.Proofs.Config.Loading
import StagedJoin.Proofs.Condition.Shape
