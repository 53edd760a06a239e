import StagedJoin.Expr
import StagedJoin.Failure

/-!
Variables and the slots they name. The binding list of a join gives names to the
slots a query already has: variables count from the first slot, those behind an
ellipsis count up to the last one, and `name: var` entries follow an alias. The
join then adds variables of its own for its new slots.
-/
namespace StagedJoin

/-- Variables in view, with the number of slots. -/
structure Scope where
  names : OrderedMap Nat := .empty
  slots : Nat := 0
  deriving DecidableEq, Inhabited

/-- Variables of the join itself, one per slot, where `none` is a wildcard. -/
inductive JoinVars where
  | absent
  | single (name : Option String)
  | compound (names : List (Option String))
  deriving DecidableEq, Repr, Inhabited

/-- The variable that binds nothing. -/
def wildcard : String := "_"

/-- The name of a variable, unless it is the wildcard. -/
def nameUnlessWildcard (name : String) : Option String :=
  if name = wildcard then none else some name

namespace JoinVars

def arity? : JoinVars → Option Nat
  | .absent => none
  | .single _ => some 1
  | .compound names => some names.length

/-- The variables by slot. -/
def slots : JoinVars → List (Option String)
  | .absent => []
  | .single name => [name]
  | .compound names => names

def names (vars : JoinVars) : List String := vars.slots.filterMap id

def contains (vars : JoinVars) (name : String) : Bool := vars.names.contains name

/-- The variables must be as many as the slots of the source. -/
def checkArity (vars : JoinVars) (slots : Nat) (site : String) : Except Failure Unit :=
  match vars.arity? with
  | some given =>
    if given = slots then .ok () else .error (.binding (.arityMismatch slots given) site)
  | none => .ok ()

end JoinVars

namespace Scope

def slot? (s : Scope) (name : String) : Option Nat := s.names.get? name

/-- Names a slot, unless the name is taken. -/
def bind (s : Scope) (name : String) (slot : Nat) : Except BindingFault Scope :=
  if s.names.contains name then .error (.boundTwice name)
  else .ok { s with names := s.names.insert name slot }

/-- Names the slots from `first` on. -/
def bindFrom (s : Scope) (first : Nat) : List (Option String) → Except BindingFault Scope
  | [] => .ok s
  | none :: rest => s.bindFrom (first + 1) rest
  | some name :: rest =>
    match s.bind name first with
    | .error fault => .error fault
    | .ok s => s.bindFrom (first + 1) rest

/-- Gives variables to the slots of aliases; the alias of a slot out of view is unknown. -/
def bindNamed (s : Scope) (aliases : OrderedMap Nat) :
    List (String × String) → Except BindingFault Scope
  | [] => .ok s
  | (aliasName, name) :: rest =>
    match (aliases.get? aliasName).filter (· < s.slots) with
    | none => .error (.unknownNamed aliasName)
    | some slot =>
      match s.bind name slot with
      | .error fault => .error fault
      | .ok s => s.bindNamed aliases rest

/-- Fails at the first variable of the join that is already in view. -/
def checkFresh (s : Scope) (vars : JoinVars) : Except Failure Unit :=
  match vars.names.find? s.names.contains with
  | some name => .error (.binding (.alreadyBound name) name)
  | none => .ok ()

/-- Puts names at the slots from `first` on, in place of what they named before. -/
def nameSlots (names : OrderedMap Nat) (first : Nat) : List (Option String) → OrderedMap Nat
  | [] => names
  | none :: rest => nameSlots names (first + 1) rest
  | some name :: rest => nameSlots (names.insert name first) (first + 1) rest

/-- Adds the slots of the join behind those in view. -/
def extend (s : Scope) (vars : JoinVars) (arity : Nat) : Except Failure Scope := do
  s.checkFresh vars
  return ⟨nameSlots s.names s.slots vars.slots, s.slots + arity⟩

end Scope

/-- The entries of a binding list by kind. -/
structure BindingList where
  leading : List (Option String) := []
  trailing : List (Option String) := []
  named : List (String × String) := []
  deriving DecidableEq, Repr, Inhabited

namespace BindingList

/-- Pairs `name: var` as an alias and a variable. -/
def namedEntries : List (String × Expr) → Except BindingFault (List (String × String))
  | [] => .ok []
  | (aliasName, .var name) :: rest => do return (aliasName, name) :: (← namedEntries rest)
  | (_, other) :: _ => .error (.notAVariable other.text)

/-- Reads the entries from left to right; `behind` says whether the ellipsis has been met. -/
def ofItems (behind : Bool) : List Expr → Except BindingFault BindingList
  | [] => .ok {}
  | .var name :: rest => do
    let list ← ofItems behind rest
    let entry := nameUnlessWildcard name
    return if behind then { list with trailing := entry :: list.trailing }
      else { list with leading := entry :: list.leading }
  | .ellipsis :: rest => if behind then .error .repeatedEllipsis else ofItems true rest
  | .keyword pairs :: rest => do
    let entries ← namedEntries pairs
    let list ← ofItems behind rest
    return { list with named := entries ++ list.named }
  | other :: _ => .error (.notAVariable other.text)

def positionalCount (l : BindingList) : Nat := l.leading.length + l.trailing.length

/-- Names slots after the entries of the list. -/
def resolve (l : BindingList) (slots : Nat) (aliases : OrderedMap Nat) :
    Except BindingFault Scope := do
  if slots < l.positionalCount then .error (.tooManyPositional l.positionalCount slots)
  let scope ← Scope.bindFrom ⟨.empty, slots⟩ 0 l.leading
  let scope ← scope.bindFrom (slots - l.trailing.length) l.trailing
  scope.bindNamed aliases l.named

end BindingList

/-- The text that a fault of a binding list points at. -/
def BindingFault.siteIn (bindings : Expr) : BindingFault → String
  | .notAList got => got
  | .notAVariable got => got
  | .boundTwice name => name
  | .tooManyPositional _ _ => bindings.text
  | .unknownNamed name => name
  | .repeatedEllipsis => "..."
  | .alreadyBound name => name
  | .notAJoinBinding got => got
  | .arityMismatch _ _ => bindings.text

namespace Scope

def ofItems (slots : Nat) (aliases : OrderedMap Nat) (items : List Expr) :
    Except BindingFault Scope := do
  (← BindingList.ofItems false items).resolve slots aliases

/-- The scope that a binding list gives to the slots of a query. -/
def resolve (slots : Nat) (aliases : OrderedMap Nat) (bindings : Expr) : Except Failure Scope :=
  let scope := match bindings with
    | .list items => ofItems slots aliases items
    | other => .error (.notAList other.text)
  scope.mapError fun fault => .binding fault (fault.siteIn bindings)

def ofQuery (q : Query) (bindings : Expr) : Except Failure Scope :=
  resolve q.slotCount q.aliases bindings

end Scope

namespace JoinVars

/-- A variable of the join; `none` for the wildcard. -/
def nameOf : Expr → Except BindingFault (Option String)
  | .var name => .ok (nameUnlessWildcard name)
  | other => .error (.notAJoinBinding other.text)

/-- Variables of which none occurs twice or in `seen`. -/
def namesOf (seen : List String) : List Expr → Except BindingFault (List (Option String))
  | [] => .ok []
  | e :: rest => do
    match ← nameOf e with
    | none => return none :: (← namesOf seen rest)
    | some name =>
      if seen.contains name then .error (.boundTwice name)
      return some name :: (← namesOf (name :: seen) rest)

def ofExpr : Expr → Except BindingFault JoinVars
  | .list [] => .error (.notAJoinBinding (Expr.list []).text)
  | .list items => do return .compound (← namesOf [] items)
  | other => do return .single (← nameOf other)

/-- Splits a target `vars in source`; without `in` there are no variables. -/
def splitTarget : Expr → Except Failure (JoinVars × Expr)
  | .binary .mem left right =>
    match ofExpr left with
    | .ok vars => .ok (vars, right)
    | .error fault => .error (.binding fault (fault.siteIn left))
  | other => .ok (.absent, other)

end JoinVars

end StagedJoin
