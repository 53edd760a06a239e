/-!
Kinds of join and the atoms that name them.
-/
namespace StagedJoin

inductive Qualifier where
  | inner
  | left
  | right
  | full
  | cross
  | innerLateral
  | leftLateral
  | crossLateral
  | array
  | leftArray
  deriving DecidableEq, Repr, Inhabited

namespace Qualifier

def all : List Qualifier :=
  [.inner, .left, .right, .full, .cross, .innerLateral, .leftLateral, .crossLateral, .array,
    .leftArray]

def name : Qualifier → String
  | .inner => "inner"
  | .left => "left"
  | .right => "right"
  | .full => "full"
  | .cross => "cross"
  | .innerLateral => "inner_lateral"
  | .leftLateral => "left_lateral"
  | .crossLateral => "cross_lateral"
  | .array => "array"
  | .leftArray => "left_array"

def ofName? (name : String) : Option Qualifier := all.find? (·.name = name)

theorem mem_all (q : Qualifier) : q ∈ all := by cases q <;> decide

theorem ofName?_name (q : Qualifier) : ofName? q.name = some q := by cases q <;> decide

end Qualifier

end StagedJoin
