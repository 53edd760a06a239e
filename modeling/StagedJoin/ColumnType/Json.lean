import StagedJoin.ColumnType
import StagedJoin.Json.Decode

/-!
Column types in JSON: a plain type is its name in lower case with underscores, and
an array is tagged and holds the type of its elements.
-/
namespace StagedJoin.ColumnType

def plainTypes : List ColumnType :=
  [.any, .boolean, .integer, .float, .decimal, .string, .binary, .uuid, .date, .time, .dateTime,
    .id, .map]

def tag : ColumnType → String
  | .dateTime => "date_time"
  | .array _ => "array"
  | plain => plain.name

def ofTag? (name : String) : Option ColumnType := plainTypes.find? (·.tag = name)

def toJson : ColumnType → Json
  | .array element => .tagged "array" element.toJson
  | plain => .ofString plain.tag

def ofJson? : Decoder ColumnType
  | _, .string (some name) => ofTag? name
  | _ + 1, .object [(some name, .null)] => ofTag? name
  | depth + 1, .object [(some "array", element)] => (ofJson? depth element).map .array
  | _, _ => none

end StagedJoin.ColumnType
