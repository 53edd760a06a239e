import StagedJoin.Failure
import StagedJoin.Query

/-!
Appending a join to a query, and all joins of one query to another. The two
queries of an absorption share their base; the other slots of the second follow
the slots of the first.
-/
namespace StagedJoin.Query

def aliasTaken (name : String) : Failure := .duplicateAlias name (":" ++ name)

/-- Registers the alias of a join, if it is known. -/
def registerAlias (aliases : OrderedMap Nat) (slot : Nat) :
    Option String → Except Failure (OrderedMap Nat)
  | none => .ok aliases
  | some name =>
    if aliases.contains name then .error (aliasTaken name)
    else .ok (aliases.insert name slot)

/-- Appends a join at the next slot and under a free name. -/
def append (q : Query) (j : Join) : Except Failure Query :=
  if j.slot ≠ q.slotCount then .error (.layout (.appendedAt j.slot q.slotCount))
  else
    match registerAlias q.aliases j.slot j.joinAlias.name? with
    | .error failure => .error failure
    | .ok aliases => .ok ⟨q.base, q.joins ++ [j], aliases⟩

/-- Takes over the names that another query has for the base. -/
def shareBaseAliases (aliases : OrderedMap Nat) :
    List (String × Nat) → Except Failure (OrderedMap Nat)
  | [] => .ok aliases
  | (name, slot) :: rest =>
    if slot ≠ 0 then shareBaseAliases aliases rest
    else
      match aliases.get? name with
      | some 0 => shareBaseAliases aliases rest
      | some _ => .error (aliasTaken name)
      | none => shareBaseAliases (aliases.insert name 0) rest

/-- An inferred alias gives way to a name that is taken. -/
def yieldAlias (aliases : OrderedMap Nat) (j : Join) : Join :=
  match j.joinAlias with
  | .inferred name => if aliases.contains name then j.withoutAlias else j
  | _ => j

def appendShifted (q : Query) (offset : Nat) : List Join → Except Failure Query
  | [] => .ok q
  | j :: rest =>
    match q.append (yieldAlias q.aliases (j.shift offset)) with
    | .error failure => .error failure
    | .ok q => q.appendShifted offset rest

/-- Appends the joins of another query on the same base. -/
def absorb (q other : Query) : Except Failure Query :=
  match shareBaseAliases q.aliases other.aliases.entries with
  | .error failure => .error failure
  | .ok aliases =>
    appendShifted { q with aliases := aliases } (q.slotCount - 1) other.joins

end StagedJoin.Query
