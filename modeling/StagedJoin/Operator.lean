/-!
Binary operators and their symbols.
-/
namespace StagedJoin

inductive Operator where
  | eq
  | ne
  | lt
  | le
  | gt
  | ge
  | and
  | or
  | mem
  | like
  | add
  | sub
  | mul
  | div
  deriving DecidableEq, Repr, Inhabited

namespace Operator

def symbol : Operator → String
  | .eq => "=="
  | .ne => "!="
  | .lt => "<"
  | .le => "<="
  | .gt => ">"
  | .ge => ">="
  | .and => "and"
  | .or => "or"
  | .mem => "in"
  | .like => "like"
  | .add => "+"
  | .sub => "-"
  | .mul => "*"
  | .div => "/"

/-- Whether the operator compares two values. Membership is not counted. -/
def isComparison : Operator → Bool
  | .eq | .ne | .lt | .le | .gt | .ge | .like => true
  | _ => false

def all : List Operator :=
  [.eq, .ne, .lt, .le, .gt, .ge, .and, .or, .mem, .like, .add, .sub, .mul, .div]

theorem mem_all (op : Operator) : op ∈ all := by cases op <;> decide

def ofSymbol? (symbol : String) : Option Operator := all.find? (·.symbol = symbol)

end Operator

end StagedJoin
