import StagedJoin.Value

/-!
Column types, their names, and the values a column of each type takes. An
undefined value is taken by every type.
-/
namespace StagedJoin

inductive ColumnType where
  | any
  | boolean
  | integer
  | float
  | decimal
  | string
  | binary
  | uuid
  | date
  | time
  | dateTime
  | id
  | map
  | array (element : ColumnType)
  deriving DecidableEq, Repr, Inhabited

namespace ColumnType

def name : ColumnType → String
  | .any => "any"
  | .boolean => "boolean"
  | .integer => "integer"
  | .float => "float"
  | .decimal => "decimal"
  | .string => "string"
  | .binary => "binary"
  | .uuid => "uuid"
  | .date => "date"
  | .time => "time"
  | .dateTime => "datetime"
  | .id => "id"
  | .map => "map"
  | .array element => "array<" ++ element.name ++ ">"

def accepts : ColumnType → Value → Bool
  | _, .undefined => true
  | .any, _ => true
  | .boolean, .boolean _ => true
  | .integer, .integer _ => true
  | .float, .float _ => true
  | .float, .integer _ => true
  | .decimal, .integer _ => true
  | .decimal, .float _ => true
  | .decimal, .string _ => true
  | .string, .string _ => true
  | .binary, .binary _ => true
  | .binary, .string _ => true
  | .uuid, .string _ => true
  | .uuid, .binary _ => true
  | .date, .string _ => true
  | .time, .string _ => true
  | .dateTime, .string _ => true
  | .id, .integer _ => true
  | .id, .string _ => true
  | .map, .map _ => true
  | .array element, .list items => items.all element.accepts
  | _, _ => false

@[simp] theorem accepts_undefined (t : ColumnType) : t.accepts .undefined = true := by
  cases t <;> rfl

@[simp] theorem accepts_any (v : Value) : ColumnType.any.accepts v = true := by
  cases v <;> rfl

@[simp] theorem accepts_array_list (element : ColumnType) (items : List Value) :
    (array element).accepts (.list items) = items.all element.accepts := rfl

end ColumnType

end StagedJoin
