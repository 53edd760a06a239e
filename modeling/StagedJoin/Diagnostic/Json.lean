import StagedJoin.Diagnostic
import StagedJoin.Json.Decode

/-!
Fragments and diagnostics in JSON. A diagnostic holds its nearest cause, which
holds the next.
-/
namespace StagedJoin

namespace Fragment

def toJson : Fragment → Json
  | .absent => .ofString "None"
  | .statement text line column => .tagged "Statement"
      (.ofPairs [("text", .ofString text), ("line", .ofNat line), ("column", .ofNat column)])
  | .internal text => .tagged "Internal" (.ofPairs [("text", .ofString text)])

/-- Lines and columns are below this bound. -/
def positionBound : Nat := 0x100000000

def statementOfJson? : Decoder Fragment := fun depth j => do
  let f ← Json.asFields? ["text", "line", "column"] true depth j
  return .statement (← f.required? "text" Json.asString?)
    (← f.required? "line" (Json.asNat? positionBound))
    (← f.required? "column" (Json.asNat? positionBound))

def internalOfJson? : Decoder Fragment := fun depth j => do
  let f ← Json.asFields? ["text"] true depth j
  return .internal (← f.required? "text" Json.asString?)

def ofJson? : Decoder Fragment := fun depth j => do
  let (name, content) ← Json.asCase? depth j
  if name = "None" then if Json.isEmptyContent content then some .absent else none
  else if name = "Statement" then Json.content? statementOfJson? content
  else if name = "Internal" then Json.content? internalOfJson? content
  else none

end Fragment

namespace Diagnostic

/-- A report that was caused by the given reports, nearest first. -/
def reportToJson (r : Report) (causes : List Report) : Json :=
  .ofPairs [
    ("code", .ofString r.code),
    ("statement", .ofOption .ofString r.statement),
    ("message", .ofString r.message),
    ("fragment", r.fragment.toJson),
    ("label", .ofOption .ofString r.label),
    ("help", .ofOption .ofString r.help),
    ("notes", .ofList .ofString r.notes),
    ("cause", match causes with
      | [] => .null
      | cause :: rest => reportToJson cause rest)]

def toJson (d : Diagnostic) : Json := reportToJson d.report d.causes

def fieldNames : List String :=
  ["code", "statement", "message", "fragment", "label", "help", "notes", "cause"]

def ofJson? : Decoder Diagnostic
  | 0, _ => none
  | depth + 1, j => do
    let f ← Json.asFields? fieldNames true (depth + 1) j
    let code ← f.required? "code" Json.asString?
    let statement ← f.optional? "statement" Json.asString?
    let message ← f.required? "message" Json.asString?
    let fragment ← f.required? "fragment" Fragment.ofJson?
    let label ← f.optional? "label" Json.asString?
    let help ← f.optional? "help" Json.asString?
    let notes ← f.required? "notes" (Json.asList? Json.asString?)
    let cause ← f.optional? "cause" fun _ cause => ofJson? depth cause
    return ⟨{ code, statement, message, fragment, label, help, notes },
      cause.elim [] reports⟩

end Diagnostic

end StagedJoin
