import StagedJoin.ColumnType
import StagedJoin.Text.Blank

/-!
Reading a column type from its name. Blanks around a name do not count, the
letters of a plain name may have either case, and some names have synonyms. A
text that names no type is answered by the innermost name that is unknown.
-/
namespace StagedJoin.ColumnType

/-- The type with a given plain name, in lower case. -/
def plain? (name : String) : Option ColumnType :=
  if name = "any" then some .any
  else if name = "boolean" ∨ name = "bool" then some .boolean
  else if name = "integer" ∨ name = "int" then some .integer
  else if name = "float" then some .float
  else if name = "decimal" then some .decimal
  else if name = "string" ∨ name = "text" ∨ name = "utf8" then some .string
  else if name = "binary" ∨ name = "blob" then some .binary
  else if name = "uuid" ∨ name = "binary_id" then some .uuid
  else if name = "date" then some .date
  else if name = "time" then some .time
  else if name = "datetime" ∨ name = "utc_datetime" ∨ name = "naive_datetime" then some .dateTime
  else if name = "id" then some .id
  else if name = "map" then some .map
  else none

/-- What stands between the brackets of an array name. -/
def elementName? : List Char → Option (List Char)
  | 'a' :: 'r' :: 'r' :: 'a' :: 'y' :: '<' :: rest =>
    if rest.getLast? = some '>' then some rest.dropLast else none
  | _ => none

theorem length_elementName? {name element : List Char} (h : elementName? name = some element) :
    element.length < name.length := by
  unfold elementName? at h
  split at h
  · split at h
    · cases h
      simp only [List.length_dropLast, List.length_cons]
      omega
    · cases h
  · cases h

/-- Reads a type; the failure holds the unknown name. -/
def parseChars (s : List Char) : Except (List Char) ColumnType :=
  match _h : elementName? (Text.trim s) with
  | some element =>
    match parseChars element with
    | .ok t => .ok (.array t)
    | .error unknown => .error unknown
  | none =>
    match plain? (String.ofList ((Text.trim s).map Char.toLower)) with
    | some t => .ok t
    | none => .error (Text.trim s)
  termination_by s.length
  decreasing_by
    exact Nat.lt_of_lt_of_le (length_elementName? ‹_›) (Text.length_trim_le s)

def parse (s : String) : Except String ColumnType :=
  match parseChars s.toList with
  | .ok t => .ok t
  | .error unknown => .error (String.ofList unknown)

def unknownMessage (name : String) : String := "unknown type `" ++ name ++ "`"

end StagedJoin.ColumnType
