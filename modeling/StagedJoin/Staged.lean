/-!
Parts of a join that are either given when the join is built or supplied through
a placeholder when the query is bound.
-/
namespace StagedJoin

/-- A reference to a runtime argument. -/
inductive Placeholder where
  | positional (index : Nat)
  | named (name : String)
  deriving DecidableEq, Repr, Inhabited

def Placeholder.text : Placeholder → String
  | .positional index => "^" ++ toString index
  | .named name => "^" ++ name

inductive Staged (α : Type) where
  | literal (value : α)
  | deferred (placeholder : Placeholder)
  deriving DecidableEq, Repr, Inhabited

namespace Staged

variable {α β : Type}

def literal? : Staged α → Option α
  | .literal value => some value
  | .deferred _ => none

def placeholder? : Staged α → Option Placeholder
  | .literal _ => none
  | .deferred p => some p

def isDeferred : Staged α → Bool
  | .literal _ => false
  | .deferred _ => true

def map (f : α → β) : Staged α → Staged β
  | .literal value => .literal (f value)
  | .deferred p => .deferred p

def text (write : α → String) : Staged α → String
  | .literal value => write value
  | .deferred p => p.text

@[simp] theorem map_id (s : Staged α) : s.map id = s := by cases s <;> rfl

@[simp] theorem placeholder?_map (f : α → β) (s : Staged α) :
    (s.map f).placeholder? = s.placeholder? := by cases s <;> rfl

end Staged

end StagedJoin
