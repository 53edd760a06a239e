import StagedJoin.Expr
import StagedJoin.Failure

/-!
Options of a join. A table of specifications says which keys there are and what
each takes; options are valid when they are a keyword list without repeated keys,
every key is in the table, and every specification of a key takes its value.
-/
namespace StagedJoin

/-- Kinds of literal that are known when a join is built. -/
inductive LiteralKind where
  | atom
  | string
  | integer
  | float
  | boolean
  | stringList
  deriving DecidableEq, Repr, Inhabited

namespace LiteralKind

def all : List LiteralKind := [.atom, .string, .integer, .float, .boolean, .stringList]

def name : LiteralKind → String
  | .atom => "atom"
  | .string => "string"
  | .integer => "integer"
  | .float => "float"
  | .boolean => "boolean"
  | .stringList => "string_list"

def ofName? (name : String) : Option LiteralKind := all.find? (·.name = name)

def description : LiteralKind → String
  | .atom => "a compile time atom"
  | .string => "a compile time string"
  | .integer => "a compile time integer"
  | .float => "a compile time float"
  | .boolean => "a compile time boolean"
  | .stringList => "a list of compile time strings"

end LiteralKind

namespace Expr

def asString? : Expr → Option String
  | .literal (.string s) => some s
  | _ => none

def asLiteral? : Expr → Option Literal
  | .literal l => some l
  | _ => none

def literalKind? : Expr → Option LiteralKind
  | .atom _ => some .atom
  | .literal (.string _) => some .string
  | .literal (.integer _) => some .integer
  | .literal (.float _) => some .float
  | .literal (.boolean _) => some .boolean
  | .list items => if items.all (·.asString?.isSome) then some .stringList else none
  | _ => none

/-- A string that is given or deferred. -/
def stagedString? : Expr → Option (Staged String)
  | .literal (.string s) => some (.literal s)
  | .interpolate p => some (.deferred p)
  | _ => none

/-- An atom that is given or deferred. -/
def stagedAtom? : Expr → Option (Staged String)
  | .atom name => some (.literal name)
  | .interpolate p => some (.deferred p)
  | _ => none

/-- Strings that are given, one of them without brackets, or deferred. -/
def stagedStrings? : Expr → Option (Staged (List String))
  | .literal (.string s) => some (.literal [s])
  | .list items => some (.literal (items.filterMap asString?))
  | .interpolate p => some (.deferred p)
  | _ => none

/-- A value that is given or deferred; a list has literals only. -/
def stagedValue? : Expr → Option (Staged Value)
  | .literal l => some (.literal l.value)
  | .atom name => some (.literal (.atom name))
  | .interpolate p => some (.deferred p)
  | .list items =>
    (items.mapM asLiteral?).map fun literals => .literal (.list (literals.map Literal.value))
  | _ => none

end Expr

structure OptionSpec where
  name : String
  accepts : List LiteralKind := []
  interpolated : Bool := false
  /-- The value is a condition and may be any expression. -/
  isCondition : Bool := false
  deriving DecidableEq, Repr, Inhabited

namespace OptionSpec

def text (spec : OptionSpec) : String := "`" ++ spec.name ++ "`"

/-- What the option takes, in words. -/
def expected (spec : OptionSpec) : String :=
  String.intercalate " or "
    (spec.accepts.map LiteralKind.description ++
      if spec.interpolated then ["an interpolated value"] else [])

def takes (spec : OptionSpec) (value : Expr) : Bool :=
  spec.isCondition || (value.isInterpolated && spec.interpolated) ||
    match value.literalKind? with
    | some kind => spec.accepts.contains kind
    | none => false

def check (spec : OptionSpec) (value : Expr) : Except Failure Unit :=
  if spec.takes value then .ok ()
  else .error (.optionValue spec.name spec.expected value.text)

end OptionSpec

/-- Options that have been checked, in the order in which they were given. -/
structure JoinOptions where
  entries : OrderedMap Expr := .empty
  deriving Inhabited

namespace JoinOptions

def coreNames : List String := ["on", "as", "prefix", "hints"]

/-- The options that every join has. -/
def coreTable : List OptionSpec := [
  { name := "on", interpolated := true, isCondition := true },
  { name := "as", accepts := [.atom], interpolated := true },
  { name := "prefix", accepts := [.string], interpolated := true },
  { name := "hints", accepts := [.string, .stringList], interpolated := true }]

/-- The options of a subquery. -/
def subqueryTable : List OptionSpec :=
  [{ name := "prefix", accepts := [.string], interpolated := true }]

/-- Collects the pairs; fails with the first key that comes a second time. -/
def collect (entries : OrderedMap Expr) :
    List (String × Expr) → Except String (OrderedMap Expr)
  | [] => .ok entries
  | (key, value) :: rest =>
    if entries.contains key then .error key
    else collect (entries.insert key value) rest

/-- The first key that no specification names. -/
def unknownKey? (table : List OptionSpec) (entries : OrderedMap Expr) : Option String :=
  entries.keys.find? fun key => !table.any (·.name = key)

/-- Checks every given value against every specification of its key, in the order of the table. -/
def checkValues (entries : OrderedMap Expr) : List OptionSpec → Except Failure Unit
  | [] => .ok ()
  | spec :: rest =>
    match (entries.get? spec.name).elim (.ok ()) spec.check with
    | .error failure => .error failure
    | .ok () => checkValues entries rest

def ofPairs (table : List OptionSpec) (context : OptionContext) (pairs : List (String × Expr)) :
    Except Failure JoinOptions :=
  match collect .empty pairs with
  | .error key => .error (.options (.repeatedKey key) context key)
  | .ok entries =>
    match unknownKey? table entries with
    | some key => .error (.unknownOption key context)
    | none =>
      match checkValues entries table with
      | .error failure => .error failure
      | .ok () => .ok ⟨entries⟩

/-- Checks options against a table; no options at all are valid. -/
def ofExpr? (table : List OptionSpec) (context : OptionContext) (options : Option Expr) :
    Except Failure JoinOptions :=
  match options with
  | none => .ok {}
  | some e =>
    match e.asKeyword? with
    | none => .error (.options .notKeyword context e.text)
    | some pairs => ofPairs table context pairs

def isEmpty (o : JoinOptions) : Bool := o.entries.isEmpty

def on? (o : JoinOptions) : Option Expr := o.entries.get? "on"

def alias? (o : JoinOptions) : Option (Staged String) :=
  (o.entries.get? "as").bind Expr.stagedAtom?

def tablePrefix? (o : JoinOptions) : Option (Staged String) :=
  (o.entries.get? "prefix").bind Expr.stagedString?

def hints? (o : JoinOptions) : Option (Staged (List String)) :=
  (o.entries.get? "hints").bind Expr.stagedStrings?

/-- The values of all options but the core ones. -/
def extensions (o : JoinOptions) : OrderedMap (Staged Value) :=
  o.entries.filterMap fun key value =>
    if coreNames.contains key then none else value.stagedValue?

end JoinOptions

namespace Qualifier

/-- Reads a qualifier, which must be an atom and among the supported ones. -/
def ofExpr (supported : Option (List Qualifier)) (e : Expr) : Except Failure Qualifier :=
  match e with
  | .interpolate _ | .var _ => .error (.qualifier (.notCompileTime e.text) e.text)
  | .atom name =>
    match ofName? name with
    | none => .error (.qualifier (.unknown e.text) e.text)
    | some q =>
      match supported with
      | none => .ok q
      | some accepted =>
        if accepted.contains q then .ok q
        else .error (.qualifier (.unsupported q accepted) e.text)
  | _ => .error (.qualifier (.unknown e.text) e.text)

end Qualifier

end StagedJoin
