import StagedJoin.Decimal
import StagedJoin.Text.Quoted

/-!
Runtime values, the names of their kinds and their text.
-/
namespace StagedJoin

inductive Value where
  | undefined
  | boolean (b : Bool)
  | integer (n : Int64)
  | float (x : Binary64)
  | string (s : String)
  | binary (bytes : List UInt8)
  | atom (name : String)
  | list (items : List Value)
  | map (entries : List (String × Value))
  deriving Inhabited

namespace Value

def kind : Value → String
  | .undefined => "undefined"
  | .boolean _ => "boolean"
  | .integer _ => "integer"
  | .float _ => "float"
  | .string _ => "string"
  | .binary _ => "binary"
  | .atom _ => "atom"
  | .list _ => "list"
  | .map _ => "map"

def isUndefined : Value → Bool
  | .undefined => true
  | _ => false

def asString? : Value → Option String
  | .string s => some s
  | _ => none

/-- Floats in text are positional from 1e-4 up to 1e16; of two nearest shortest
decimals the greater is written. -/
def floatStyle : DecimalStyle where
  least := -4
  greatest := 15
  exponentPlus := false
  halfWay := .up

def booleanText (b : Bool) : String := if b then "true" else "false"

mutual

def text : Value → String
  | .undefined => "nil"
  | .boolean b => booleanText b
  | .integer n => toString n
  | .float x => floatStyle.text x
  | .string s => Text.quoted s
  | .binary bytes => "<<" ++ String.intercalate ", " (bytes.map fun b => toString b.toNat) ++ ">>"
  | .atom name => ":" ++ name
  | .list items => "[" ++ String.intercalate ", " (itemTexts items) ++ "]"
  | .map entries => "%\x7b" ++ String.intercalate ", " (entryTexts entries) ++ "\x7d"

def itemTexts : List Value → List String
  | [] => []
  | v :: rest => v.text :: itemTexts rest

def entryTexts : List (String × Value) → List String
  | [] => []
  | (key, v) :: rest => (key ++ ": " ++ v.text) :: entryTexts rest

end

theorem itemTexts_eq_map (items : List Value) : itemTexts items = items.map text := by
  induction items with
  | nil => rfl
  | cons v rest ih => rw [itemTexts, ih, List.map_cons]

theorem entryTexts_eq_map (entries : List (String × Value)) :
    entryTexts entries = entries.map fun e => e.1 ++ ": " ++ e.2.text := by
  induction entries with
  | nil => rfl
  | cons e rest ih => obtain ⟨k, v⟩ := e; rw [entryTexts, ih, List.map_cons]

end Value

/-- Host data that denotes a value. -/
class ToValue (α : Type) where
  toValue : α → Value

export ToValue (toValue)

instance : ToValue Value := ⟨id⟩
instance : ToValue Bool := ⟨.boolean⟩
instance : ToValue Int64 := ⟨.integer⟩
instance : ToValue Int32 := ⟨fun n => .integer n.toInt64⟩
instance : ToValue UInt32 := ⟨fun n => .integer (Int64.ofInt n.toNat)⟩
instance : ToValue Binary64 := ⟨.float⟩
instance : ToValue String := ⟨.string⟩
instance : ToValue (List UInt8) := ⟨.binary⟩

/-- An absent value is undefined. -/
instance {α : Type} [ToValue α] : ToValue (Option α) where
  toValue
    | none => .undefined
    | some a => toValue a

end StagedJoin
