/-!
Sets of code points, written as ascending lists of first and last members.
-/
namespace StagedJoin.Text

/-- First and last code point of a run. -/
abbrev CodeRange := Nat × Nat

def CodeRange.mem (code : Nat) (ranges : List CodeRange) : Bool :=
  ranges.any fun r => r.1 ≤ code && code ≤ r.2

end StagedJoin.Text
