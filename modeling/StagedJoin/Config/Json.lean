import StagedJoin.Config
import StagedJoin.Json.Reader
import StagedJoin.Query.Json

/-!
Settings in JSON. Unknown keys are refused, and a document that can be read must
also hold valid settings.
-/
namespace StagedJoin

namespace LiteralKind

def toJson (k : LiteralKind) : Json := .ofString k.name

def ofJson? : Decoder LiteralKind := Json.asName? ofName?

end LiteralKind

namespace OptionSpec

def toJson (spec : OptionSpec) : Json :=
  .ofPairs [
    ("name", .ofString spec.name),
    ("accepts", .ofList LiteralKind.toJson spec.accepts),
    ("interpolated", .boolean spec.interpolated)]

def ofJson? : Decoder OptionSpec := fun depth j => do
  let f ← Json.asFields? ["name", "accepts", "interpolated"] false depth j
  return {
    name := ← f.required? "name" Json.asString?
    accepts := ← f.defaulted? "accepts" [] (Json.asList? LiteralKind.ofJson?)
    interpolated := ← f.defaulted? "interpolated" false Json.asBool? }

end OptionSpec

namespace Config

def toJson (c : Config) : Json :=
  .ofPairs [
    ("options", .ofList OptionSpec.toJson c.options),
    ("qualifiers", .ofOption (.ofList Qualifier.toJson) c.qualifiers)]

def ofJson? : Decoder Config := fun depth j => do
  let f ← Json.asFields? ["options", "qualifiers"] false depth j
  return {
    options := ← f.defaulted? "options" [] (Json.asList? OptionSpec.ofJson?)
    qualifiers := ← f.defaulted? "qualifiers" none
      (Json.asOption? (Json.asList? Qualifier.ofJson?)) }

/-- Settings that are read from a document and found valid. -/
def ofDocument (j : Json) : Except Failure Config :=
  match ofJson? Decoder.maxDepth j with
  | none => .error (.config .unreadable)
  | some c =>
    match c.validate with
    | .error failure => .error failure
    | .ok () => .ok c

def ofText (text : String) : Except Failure Config :=
  match Json.parse text with
  | none => .error (.config .unreadable)
  | some j => ofDocument j

end Config

end StagedJoin
