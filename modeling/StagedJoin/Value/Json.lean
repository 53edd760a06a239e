import StagedJoin.Json.Decode
import StagedJoin.Value

/-!
Values in JSON, tagged with their kind.
-/
namespace StagedJoin.Value

mutual

def toJson : Value → Json
  | .undefined => .ofString "Undefined"
  | .boolean b => .tagged "Boolean" (.boolean b)
  | .integer n => .tagged "Integer" (.ofInt n.toInt)
  | .float x => .tagged "Float" (.ofFloat x)
  | .string s => .tagged "String" (.ofString s)
  | .binary bytes => .tagged "Binary" (.ofList (fun b => .ofNat b.toNat) bytes)
  | .atom name => .tagged "Atom" (.ofString name)
  | .list items => .tagged "List" (.array (itemsToJson items))
  | .map entries => .tagged "Map" (.ofPairs (entriesToJson entries))

def itemsToJson : List Value → List Json
  | [] => []
  | v :: rest => v.toJson :: itemsToJson rest

def entriesToJson : List (String × Value) → List (String × Json)
  | [] => []
  | (key, v) :: rest => (key, v.toJson) :: entriesToJson rest

end

def integerOfJson? : Decoder Int64 := fun depth j =>
  (Json.asInteger? Int64.minValue.toInt Int64.maxValue.toInt depth j).map Int64.ofInt

def byteOfJson? : Decoder UInt8 := fun depth j => (Json.asNat? 256 depth j).map UInt8.ofNat

/-- A value whose content is no other value. -/
def flatOfJson? (tag : String) (depth : Nat) (content : Json) : Option Value :=
  if tag = "Boolean" then (Json.asBool? depth content).map .boolean
  else if tag = "Integer" then (integerOfJson? depth content).map .integer
  else if tag = "Float" then (Json.asFloat? depth content).map .float
  else if tag = "String" then (Json.asString? depth content).map .string
  else if tag = "Binary" then (Json.asList? byteOfJson? depth content).map .binary
  else if tag = "Atom" then (Json.asString? depth content).map .atom
  else none

def ofJson? : Decoder Value
  | _, .string (some "Undefined") => some .undefined
  | _ + 1, .object [(some "Undefined", .null)] => some .undefined
  | depth + 2, .object [(some "List", .array items)] => do
    return .list (← items.mapM (ofJson? depth))
  | depth + 2, .object [(some "Map", .object fields)] => do
    let entries ← (← Json.namedFields? fields).mapM fun f => do return (f.1, ← ofJson? depth f.2)
    return .map (OrderedMap.ofList entries).entries
  | depth + 1, .object [(some tag, content)] => flatOfJson? tag depth content
  | _, _ => none

end StagedJoin.Value
