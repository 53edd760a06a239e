import StagedJoin.Json
import StagedJoin.OrderedMap

/-!
Reading data from JSON documents. A decoder is given how many more arrays and
objects it may enter. A case of a tagged type is written as its name, or as an
object of its name and its content; a record is written as an object of its
fields, or as an array of them in order.
-/
namespace StagedJoin

/-- Decodes a document that may be nested to a given depth. -/
abbrev Decoder (α : Type) := Nat → Json → Option α

/-- Arrays and objects may be inside each other this often. -/
def Decoder.maxDepth : Nat := 127

namespace Json

variable {α : Type}

def asBool? : Decoder Bool
  | _, .boolean b => some b
  | _, _ => none

def asString? : Decoder String
  | _, .string s => s
  | _, _ => none

/-- An integer between two bounds. -/
def asInteger? (least greatest : Int) : Decoder Int
  | _, .number (some (.integer n)) => if least ≤ n ∧ n ≤ greatest then some n else none
  | _, _ => none

/-- A natural number below a bound. -/
def asNat? (bound : Nat) : Decoder Nat := fun depth j =>
  (asInteger? 0 (bound - 1) depth j).map Int.toNat

def asFloat? : Decoder Binary64
  | _, .number (some (.integer n)) => some (Binary64.ofInt n)
  | _, .number (some (.float x)) => some x
  | _, _ => none

def asOption? (decode : Decoder α) : Decoder (Option α)
  | _, .null => some none
  | depth, j => (decode depth j).map some

def asList? (decode : Decoder α) : Decoder (List α)
  | depth + 1, .array items => items.mapM (decode depth)
  | _, _ => none

/-- Fields with their names, if all names are legible. -/
def namedFields? (fields : List (Option String × Json)) : Option (List (String × Json)) :=
  fields.mapM fun f => f.1.map (·, f.2)

def asMap? (decode : Decoder α) : Decoder (OrderedMap α)
  | depth + 1, .object fields => do
    let entries ← (← namedFields? fields).mapM fun f => do return (f.1, ← decode depth f.2)
    return .ofList entries
  | _, _ => none

/-- The name of a case, and its content with the depth that is left for it. -/
def asCase? (depth : Nat) : Json → Option (String × Option (Nat × Json))
  | .string (some name) => some (name, none)
  | .object [(some name, content)] =>
    match depth with
    | depth + 1 => some (name, some (depth, content))
    | 0 => none
  | _ => none

/-- Whether a case has no content; `null` is none. -/
def isEmptyContent : Option (Nat × Json) → Bool
  | none => true
  | some (_, .null) => true
  | _ => false

/-- A case without content, by its name. -/
def asName? (ofName? : String → Option α) : Decoder α := fun depth j => do
  let (name, content) ← asCase? depth j
  if isEmptyContent content then ofName? name else none

def content? (decode : Decoder α) : Option (Nat × Json) → Option α
  | some (depth, j) => decode depth j
  | none => none

/-- The fields of a record that are given, and whether they are given by name. -/
structure Fields where
  byName : Bool
  given : List (String × Json)
  depth : Nat

/-- Whether no name occurs twice. -/
def distinctNames : List (String × Json) → Bool
  | [] => true
  | (name, _) :: rest => !rest.any (·.1 = name) && distinctNames rest

/-- The known fields of a record. Given by name, none comes twice; given in order,
there are no more than the record has. -/
def asFields? (names : List String) (allowUnknown : Bool) : Decoder Fields
  | depth + 1, .object fields => do
    let all ← namedFields? fields
    let known := all.filter fun f => names.contains f.1
    if (allowUnknown || known.length = all.length) && distinctNames known then
      return ⟨true, known, depth⟩
    else none
  | depth + 1, .array items =>
    if items.length ≤ names.length then some ⟨false, names.zip items, depth⟩ else none
  | 0, _ => none
  | _, _ => none

namespace Fields

def get? (f : Fields) (name : String) : Option Json := f.given.lookup name

def required? (f : Fields) (name : String) (decode : Decoder α) : Option α := do
  decode f.depth (← f.get? name)

/-- A field that may be left out where fields are given by name. -/
def optional? (f : Fields) (name : String) (decode : Decoder α) : Option (Option α) :=
  match f.get? name with
  | some j => asOption? decode f.depth j
  | none => if f.byName then some none else none

/-- A field that may be left out. -/
def defaulted? (f : Fields) (name : String) (default : α) (decode : Decoder α) : Option α :=
  match f.get? name with
  | some j => decode f.depth j
  | none => some default

end Fields

end Json

end StagedJoin
