import StagedJoin.Query

/-!
The expressions in which joins are written, and their text.
-/
namespace StagedJoin

inductive Literal where
  | undefined
  | boolean (b : Bool)
  | integer (n : Int64)
  | float (x : Binary64)
  | string (s : String)
  deriving DecidableEq, Inhabited

namespace Literal

def value : Literal → Value
  | .undefined => .undefined
  | .boolean b => .boolean b
  | .integer n => .integer n
  | .float x => .float x
  | .string s => .string s

def text (l : Literal) : String := l.value.text

end Literal

inductive Expr where
  | literal (l : Literal)
  | atom (name : String)
  | var (name : String)
  | ellipsis
  | field (owner name : String)
  | schema (name : String)
  | interpolate (placeholder : Placeholder)
  | query (q : Query)
  | call (function : String) (args : List Expr)
  | binary (op : Operator) (left right : Expr)
  | not (e : Expr)
  | keyword (pairs : List (String × Expr))
  | list (items : List Expr)
  | tuple (items : List Expr)
  | map (pairs : List (String × Expr))
  deriving Inhabited

namespace Expr

def string (s : String) : Expr := .literal (.string s)

def asVar? : Expr → Option String
  | .var name => some name
  | _ => none

/-- The pairs of a keyword list; the empty list is one without pairs. -/
def asKeyword? : Expr → Option (List (String × Expr))
  | .keyword pairs => some pairs
  | .list [] => some []
  | _ => none

def isCall (function : String) : Expr → Bool
  | .call f _ => f = function
  | _ => false

def isInterpolated : Expr → Bool
  | .interpolate _ => true
  | _ => false

mutual

def text : Expr → String
  | .literal l => l.text
  | .atom name => ":" ++ name
  | .var name => name
  | .ellipsis => "..."
  | .field owner name => owner ++ "." ++ name
  | .schema name => name
  | .interpolate p => p.text
  | .query q => q.text
  | .call function args => function ++ "(" ++ String.intercalate ", " (argTexts args) ++ ")"
  | .binary op left right => left.text ++ " " ++ op.symbol ++ " " ++ right.text
  | .not e => "not " ++ e.text
  | .keyword pairs => "[" ++ String.intercalate ", " (pairTexts pairs) ++ "]"
  | .list items => "[" ++ String.intercalate ", " (itemTexts items) ++ "]"
  | .tuple items => "\x7b" ++ String.intercalate ", " (itemTexts items) ++ "\x7d"
  | .map pairs => "%\x7b" ++ String.intercalate ", " (pairTexts pairs) ++ "\x7d"

/-- A keyword list at the end of the arguments has no brackets. -/
def argTexts : List Expr → List String
  | [] => []
  | [.keyword pairs] => [String.intercalate ", " (pairTexts pairs)]
  | e :: rest => e.text :: argTexts rest

def itemTexts : List Expr → List String
  | [] => []
  | e :: rest => e.text :: itemTexts rest

def pairTexts : List (String × Expr) → List String
  | [] => []
  | (key, e) :: rest => (key ++ ": " ++ e.text) :: pairTexts rest

end

theorem itemTexts_eq_map (items : List Expr) : itemTexts items = items.map text := by
  induction items with
  | nil => rfl
  | cons e rest ih => rw [itemTexts, ih, List.map_cons]

theorem pairTexts_eq_map (pairs : List (String × Expr)) :
    pairTexts pairs = pairs.map fun p => p.1 ++ ": " ++ p.2.text := by
  induction pairs with
  | nil => rfl
  | cons p rest ih => obtain ⟨k, e⟩ := p; rw [pairTexts, ih, List.map_cons]

end Expr

end StagedJoin
