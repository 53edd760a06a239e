import StagedJoin.Binary64

/-!
JSON documents. A number or a string can be well formed and yet denote nothing:
a number out of range, a string with half of a surrogate pair. Such a part is kept
as `none`, so that a document is still read where the part does not matter.
-/
namespace StagedJoin

inductive JsonNumber where
  | integer (n : Int)
  | float (x : Binary64)
  deriving DecidableEq, Repr, Inhabited

inductive Json where
  | null
  | boolean (b : Bool)
  | number (n : Option JsonNumber)
  | string (s : Option String)
  | array (items : List Json)
  | object (fields : List (Option String × Json))
  deriving Inhabited

namespace Json

def ofString (s : String) : Json := .string (some s)

def ofInt (n : Int) : Json := .number (some (.integer n))

def ofNat (n : Nat) : Json := ofInt n

def ofFloat (x : Binary64) : Json := .number (some (.float x))

def ofPairs (pairs : List (String × Json)) : Json :=
  .object (pairs.map fun p => (some p.1, p.2))

def ofOption {α : Type} (encode : α → Json) : Option α → Json
  | none => .null
  | some a => encode a

def ofList {α : Type} (encode : α → Json) (items : List α) : Json := .array (items.map encode)

/-- A case of a tagged type with its content. -/
def tagged (tag : String) (content : Json) : Json := ofPairs [(tag, content)]

end Json

end StagedJoin
