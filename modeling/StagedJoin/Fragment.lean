/-!
The piece of source text that a report points at. A piece made by the compiler
has no place of its own until it is located; one that has a place keeps it.
-/
namespace StagedJoin

inductive Fragment where
  | absent
  /-- Lines count from 1 and columns from 0. -/
  | statement (text : String) (line column : Nat)
  | internal (text : String)
  deriving DecidableEq, Repr, Inhabited

namespace Fragment

def text : Fragment → String
  | .absent => ""
  | .statement text _ _ => text
  | .internal text => text

def line : Fragment → Nat
  | .statement _ line _ => line
  | _ => 1

def column : Fragment → Nat
  | .statement _ _ column => column
  | _ => 0

def isAbsent : Fragment → Bool
  | .absent => true
  | _ => false

def locate (f : Fragment) (line column : Nat) : Fragment :=
  match f with
  | .internal text => .statement text line column
  | other => other

@[simp] theorem text_locate (f : Fragment) (line column : Nat) :
    (f.locate line column).text = f.text := by cases f <;> rfl

@[simp] theorem locate_locate (f : Fragment) (l₁ c₁ l₂ c₂ : Nat) :
    (f.locate l₁ c₁).locate l₂ c₂ = f.locate l₁ c₁ := by cases f <;> rfl

end Fragment

end StagedJoin
