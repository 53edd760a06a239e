import StagedJoin.Condition.Compiler

/-!
The `on` option of a join as a condition. It is a boolean expression, a keyword
list of fields of the joined slot with their values, or an interpolation, which
is left for later. An expression that needs a second query is refused before any
compiler sees it.
-/
namespace StagedJoin

namespace Expr

def noSubqueries : String := "subqueries aren't supported"

def noExists : String := "`exists/1` isn't supported"

mutual

/-- The first part, from left to right and outermost first, that needs a query of its own. -/
def crossQuery? : Expr → Option (Expr × String)
  | .query q => some (.query q, noSubqueries)
  | .call function args =>
    if function = "exists" then some (.call function args, noExists)
    else if function = "subquery" then some (.call function args, noSubqueries)
    else crossQueryItem? args
  | .binary _ left right =>
    match left.crossQuery? with
    | some found => some found
    | none => right.crossQuery?
  | .not e => e.crossQuery?
  | .list items => crossQueryItem? items
  | .tuple items => crossQueryItem? items
  | .keyword pairs => crossQueryPair? pairs
  | .map pairs => crossQueryPair? pairs
  | _ => none

def crossQueryItem? : List Expr → Option (Expr × String)
  | [] => none
  | e :: rest =>
    match e.crossQuery? with
    | some found => some found
    | none => crossQueryItem? rest

def crossQueryPair? : List (String × Expr) → Option (Expr × String)
  | [] => none
  | (_, e) :: rest =>
    match e.crossQuery? with
    | some found => some found
    | none => crossQueryPair? rest

end

/-- Refuses an expression that needs a second query. -/
def rejectCrossQuery (e : Expr) : Except Failure Unit :=
  match e.crossQuery? with
  | none => .ok ()
  | some (part, reason) =>
    .error (.onClause (reason ++ ", got: `" ++ part.text ++ "`") part.text)

end Expr

namespace Term

/-- Conjoins a term to those before it. -/
def andThen (before : Option Term) (next : Term) : Term :=
  match before with
  | some t => .binary .and t next
  | none => next

end Term

/-- A conjunction in the making, with the parameters collected so far. -/
structure Conjunction where
  term : Option Term := none
  params : List Param := []
  deriving Inhabited

namespace Conjunction

/-- Conjoins `field == value`, where the value adds parameters of its own. -/
def addEquation (c : Conjunction) (slot : Nat) (name : String) (value : Compiled) : Conjunction :=
  ⟨some (Term.andThen c.term (.eq (.field slot name) value.1)), c.params ++ value.2⟩

def condition (c : Conjunction) : Condition :=
  match c.term with
  | some t => ⟨t, c.params⟩
  | none => .truth

end Conjunction

namespace Condition

/-- The value in `name: value`, given the number of parameters collected before. -/
def keywordValue (compile : ConditionCompiler) (ctx : Context) (slot count : Nat)
    (name : String) : Expr → Except Failure Compiled
  | .literal (.boolean b) => .ok (.typed (.literal (.boolean b)) (ctx.tag slot name), [])
  | .interpolate p => .ok (.param count, [⟨.deferred p, ctx.tag slot name⟩])
  | e => do
    e.rejectCrossQuery
    compile ctx count e

def keywordConjunction (compile : ConditionCompiler) (ctx : Context) (slot : Nat)
    (before : Conjunction) : List (String × Expr) → Except Failure Conjunction
  | [] => .ok before
  | (name, e) :: rest =>
    match keywordValue compile ctx slot before.params.length name e with
    | .error failure => .error failure
    | .ok value => keywordConjunction compile ctx slot (before.addEquation slot name value) rest

/-- `[name: value, ...]` as a conjunction of equations on the fields of a slot. -/
def ofKeyword (compile : ConditionCompiler) (ctx : Context) (slot : Nat)
    (pairs : List (String × Expr)) : Except Failure Condition := do
  return (← keywordConjunction compile ctx slot {} pairs).condition

/-- A runtime value in `name: value`; all but the booleans become parameters. -/
def runtimeValue (ctx : Context) (slot count : Nat) (name : String) : Value → Compiled
  | .boolean b => (.typed (.literal (.boolean b)) (ctx.tag slot name), [])
  | v => (.param count, [⟨.literal v, ctx.tag slot name⟩])

/-- A keyword list of runtime values as a conjunction of equations. -/
def ofValues (ctx : Context) (slot : Nat) (pairs : List (String × Value)) : Condition :=
  (pairs.foldl (fun (c : Conjunction) p =>
    c.addEquation slot p.1 (runtimeValue ctx slot c.params.length p.1 p.2)) {}).condition

def ofExpr (compile : ConditionCompiler) (ctx : Context) (e : Expr) : Except Failure Condition := do
  e.rejectCrossQuery
  let (term, params) ← compile ctx 0 e
  return ⟨term, params⟩

end Condition

namespace OnClause

/-- The `on` option of a join whose first slot is `slot`. -/
def ofExpr? (compile : ConditionCompiler) (ctx : Context) (slot : Nat) :
    Option Expr → Except Failure OnClause
  | none => .ok (.compiled .truth)
  | some (.interpolate p) => .ok (.deferred p none)
  | some (.keyword pairs) => do
    return .compiled (← Condition.ofKeyword compile ctx slot pairs)
  | some (.list []) => .ok (.compiled .truth)
  | some (.list items) =>
    let text := (Expr.list items).text
    .error (.onClause
      ("expected a boolean expression or a keyword list, got: `" ++ text ++ "`") text)
  | some e => do return .compiled (← Condition.ofExpr compile ctx e)

end OnClause

end StagedJoin
