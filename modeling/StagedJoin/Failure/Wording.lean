import StagedJoin.Failure
import StagedJoin.Diagnostic.Internal

/-!
The code, the message and the advice of every cause.
-/
namespace StagedJoin

def backticked (text : String) : String := "`" ++ text ++ "`"

def BindingFault.message : BindingFault → String
  | .notAList got => "binding list should be a list of variables, got: " ++ backticked got
  | .notAVariable got =>
    "binding list should contain only variables, `...` or `name: var` entries, got: " ++
      backticked got
  | .boundTwice name => "variable " ++ backticked name ++ " is bound twice"
  | .tooManyPositional given available =>
    "the binding list has " ++ toString given ++
      " positional bindings but the query only has " ++ toString available
  | .unknownNamed name => "unknown named binding " ++ backticked name
  | .repeatedEllipsis => "`...` can only be used once in a binding list"
  | .alreadyBound name => "variable " ++ backticked name ++ " in join is already bound"
  | .notAJoinBinding got =>
    "join binding must be a variable or a list of variables, got: " ++ backticked got
  | .arityMismatch expected given =>
    "join binds " ++ toString given ++ " variables but its source has " ++ toString expected ++
      " bindings"

def BindingFault.help : BindingFault → String
  | .arityMismatch expected _ =>
    "bind exactly " ++ toString expected ++ " variables, e.g. `[a, b] in subquery(q)`"
  | .tooManyPositional _ _ => "use `...` to skip bindings you do not need"
  | .unknownNamed _ => "named bindings refer to aliases given with `as:`"
  | _ => "bindings are plain variables such as `[p, c]`"

/-- Qualifiers as atoms, separated by commas. -/
def qualifierList (qualifiers : List Qualifier) : String :=
  String.intercalate ", " (qualifiers.map fun q => ":" ++ q.name)

def QualifierFault.message : QualifierFault → String
  | .unknown got =>
    "invalid join qualifier " ++ backticked got ++ ", accepted qualifiers are: " ++
      qualifierList Qualifier.all
  | .notCompileTime got =>
    "invalid join qualifier, `join` qualifier must be a compile time atom, got: " ++
      backticked got
  | .unsupported qualifier supported =>
    "join qualifier `:" ++ qualifier.name ++
      "` is not supported, supported qualifiers are: " ++ qualifierList supported

def AssociationFault.message : AssociationFault → String
  | .variable name =>
    "you passed the variable " ++ backticked name ++
      " to `assoc/2`. Did you mean to pass the atom `:" ++ name ++ "`?"
  | .notAnAtom got =>
    "`assoc/2` expects a compile time atom or an interpolated value as its field, got: " ++
      backticked got
  | .ownerNotBound got =>
    "`assoc/2` expects a bound variable as its owner, got: " ++ backticked got
  | .selfReference name =>
    "`assoc/2` owner " ++ backticked name ++ " refers to the binding being joined"

def ValuesFault.message : ValuesFault → String
  | .empty => "must pass a non-empty list of rows to `values/2`"
  | .undeclaredType field =>
    "each field in a values list must have a declared type, " ++ backticked field ++ " has none"
  | .missingField field row rowText =>
    "each row in a values list must contain every declared field, " ++ backticked field ++
      " is missing from row " ++ toString row ++ ": " ++ rowText
  | .duplicateField field row =>
    "field " ++ backticked field ++ " appears more than once in row " ++ toString row ++
      " of the values list"
  | .unknownType field typeName =>
    "unknown type " ++ backticked typeName ++ " declared for field " ++ backticked field ++
      " in values list"
  | .notARow row got =>
    "values list rows must be maps or keyword lists, row " ++ toString row ++ " is: " ++
      backticked got
  | .malformedTypes got =>
    "values list types must be a map or keyword list of field names to types, got: " ++
      backticked got
  | .unsupportedValue field row got =>
    "value " ++ backticked got ++ " for field " ++ backticked field ++ " in row " ++
      toString row ++ " must be a literal or an interpolated value"

def OptionsFault.reason (site : String) : OptionsFault → String
  | .notKeyword => "expected a keyword list, got: " ++ backticked site
  | .repeatedKey key => "option " ++ backticked key ++ " given more than once"

def ExpressionFault.message : ExpressionFault → String
  | .unboundVariable name => "unbound variable " ++ backticked name ++ " in expression"
  | .unsupported got reason => "unsupported expression " ++ backticked got ++ ", " ++ reason
  | .unknownType typeName => "unknown type " ++ backticked typeName ++ " given to `type/2`"

def ConfigFault.message : ConfigFault → String
  | .unreadable => "invalid compiler configuration"
  | .reservedOption name =>
    "option " ++ backticked name ++ " is built in and cannot be redefined"
  | .repeatedOption name => "option " ++ backticked name ++ " is defined more than once"

def LayoutFault.message : LayoutFault → String
  | .appendedAt slot slots =>
    "join appended at binding " ++ toString slot ++ " but the query has " ++ toString slots ++
      " bindings"
  | .boundAt slot slots =>
    "join bound at slot " ++ toString slot ++ " but " ++ toString slots ++ " slots are bound"
  | .pastLastSlot slot last =>
    "join condition references binding " ++ toString slot ++ " past the last slot " ++
      toString last
  | .untypedCell => "values list param without a concrete type"
  | .nestedTooDeep => "subqueries nested deeper than the slots of the query"

/-- The parts of a report that depend on the cause. -/
structure Wording where
  code : String
  message : String
  site : String
  label : String
  help : Option String := none
  notes : List String := []

def Wording.diagnostic (w : Wording) : Diagnostic where
  report := {
    code := w.code
    message := w.message
    fragment := .internal w.site
    label := some w.label
    help := w.help
    notes := w.notes }

def ExpressionFault.wording (site : String) (fault : ExpressionFault) : Wording :=
  match fault with
  | .unboundVariable name => {
      code := "EXPR_001"
      message := fault.message
      site := site
      label := "unbound variable"
      help := some ("add " ++ backticked name ++ " to the binding list of the query") }
  | .unsupported _ _ => {
      code := "EXPR_002"
      message := fault.message
      site := site
      label := "unsupported expression" }
  | .unknownType _ => {
      code := "EXPR_003"
      message := fault.message
      site := site
      label := "unknown type" }

def ConfigFault.diagnostic (fault : ConfigFault) : Diagnostic where
  report := {
    code := "CONFIG_001"
    message := fault.message
    help := some ("extension options are declared as " ++
      "`\x7b\"name\": ..., \"accepts\": [...], \"interpolated\": bool\x7d`") }

namespace Failure

def diagnostic : Failure → Diagnostic
  | .binding fault site => Wording.diagnostic {
      code := "JOIN_001"
      message := fault.message
      site := site
      label := "invalid binding"
      help := some fault.help }
  | .qualifier fault site => Wording.diagnostic {
      code := "JOIN_002"
      message := fault.message
      site := site
      label := "unknown qualifier"
      help := some "qualifiers are written as atoms, e.g. `:inner` or `:left`"
      notes :=
        ["the qualifier decides the kind of join and must be known when the query is built"] }
  | .unknownOption key context => Wording.diagnostic {
      code := "JOIN_003"
      message := "invalid option " ++ backticked key ++ " passed to " ++ context.name
      site := key
      label := "unknown option"
      help := some
        "accepted options are `on`, `as`, `prefix`, `hints` and any configured extensions" }
  | .optionValue option expected got => Wording.diagnostic {
      code := "JOIN_004"
      message := backticked option ++ " must be " ++ expected ++ ", got: " ++ backticked got
      site := got
      label := "invalid option value"
      help := some "interpolate with `^` to supply the value at runtime" }
  | .options fault context site => Wording.diagnostic {
      code := "JOIN_005"
      message := "invalid opts passed to " ++ context.name ++ ", " ++ fault.reason site
      site := site
      label := "malformed options"
      help := some
        "pass options as a keyword list, e.g. `on: p.id == c.post_id, as: :comments`" }
  | .association fault site => Wording.diagnostic {
      code := "JOIN_006"
      message := fault.message
      site := site
      label := "invalid association"
      help := some "write the association as `assoc(p, :comments)`" }
  | .onClause reason site => Wording.diagnostic {
      code := "JOIN_007"
      message := "invalid expression for join `:on`, " ++ reason
      site := site
      label := "invalid `on` expression"
      help := some "move subqueries and `exists/1` into a `where` clause" }
  | .values fault site => Wording.diagnostic {
      code := "JOIN_008"
      message := fault.message
      site := site
      label := "invalid values list"
      help := some "rows and types must name exactly the same fields" }
  | .sourceValue got reason => Wording.diagnostic {
      code := "JOIN_009"
      message := "unsupported join source value " ++ backticked got ++ ", " ++ reason
      site := got
      label := "not a data source"
      help := some ("interpolate a table name, a schema, a `\x7btable, schema\x7d` tuple " ++
        "or a query without joins")
      notes := ["runtime sources are checked when the query is bound to its parameters"] }
  | .duplicateAlias name site => Wording.diagnostic {
      code := "JOIN_010"
      message := "alias `:" ++ name ++ "` already exists"
      site := site
      label := "alias already in use"
      help := some "choose a different name with `as:`" }
  | .associationNotFound owner field site => Wording.diagnostic {
      code := "JOIN_011"
      message := "could not find association " ++ backticked field ++ " on " ++ owner
      site := site
      label := "unknown association" }
  | .missingParameter placeholder => Wording.diagnostic {
      code := "JOIN_012"
      message := "missing parameter " ++ backticked placeholder
      site := placeholder
      label := "missing parameter"
      help := some "supply every interpolated value when binding the query" }
  | .parameterType value expected site => Wording.diagnostic {
      code := "JOIN_013"
      message := "value " ++ backticked value ++ " does not match type " ++ backticked expected
      site := site
      label := "type mismatch" }
  | .source got => Wording.diagnostic {
      code := "JOIN_014"
      message := "malformed join source " ++ backticked got
      site := got
      label := "malformed source"
      help := some ("a join source is a table name, a schema, a `\x7btable, schema\x7d` " ++
        "tuple, an interpolated value, `subquery/1,2`, `assoc/2` or `values/2`") }
  | .expression fault site => (fault.wording site).diagnostic
  | .config fault => fault.diagnostic
  | .layout fault => .internalError fault.message
  | .reported d => d

def code (f : Failure) : String := f.diagnostic.code

def message (f : Failure) : String := f.diagnostic.message

end Failure

end StagedJoin
