import StagedJoin.JoinOptions
import StagedJoin.Scope
import StagedJoin.Source.Values

/-!
What a join reads, as written behind `in`: a table, a schema, a table read with a
schema, an interpolation, a query, a subquery, an association of a variable, or a
values list.
-/
namespace StagedJoin

/-- What is known where a source is read: the variables in view before the join,
those that the join adds, and the schemas. -/
structure SourceContext where
  scope : Scope
  vars : JoinVars
  schemas : List (Option String)
  view : SchemaView

def SourceContext.schema? (ctx : SourceContext) (slot : Nat) : Option String :=
  ctx.schemas[slot]?.join

/-- A source with the number of its slots, where that is known. -/
structure SizedSource where
  source : JoinSource
  arity : Option Nat := some 1

namespace JoinSource

def malformed {α : Type} (e : Expr) : Except Failure α := .error (.source e.text)

/-- A query behind `in` stands for its base and must not have joins. -/
def ofQuery (q : Query) : Except Failure SizedSource :=
  if q.hasJoins then
    .error (.sourceValue q.text "queries with joins must be wrapped in `subquery/1`")
  else .ok { source := .table q.base.source }

def ofSubquery (call : Expr) (inner : Expr) (options : Option Expr) :
    Except Failure SizedSource := do
  let options ← JoinOptions.ofExpr? JoinOptions.subqueryTable .subquery options
  match inner with
  | .query q => return ⟨.subquery (.literal q) options.tablePrefix?, some q.slotCount⟩
  | .interpolate p => return ⟨.subquery (.deferred p) options.tablePrefix?, none⟩
  | _ => malformed call

/-- The slot of the variable that owns an association. -/
def ownerSlot (ctx : SourceContext) : Expr → Except Failure Nat
  | .var name =>
    if ctx.vars.contains name then .error (.association (.selfReference name) name)
    else
      match ctx.scope.slot? name with
      | some slot => .ok slot
      | none => .error (.association (.ownerNotBound name) name)
  | other => .error (.association (.ownerNotBound other.text) other.text)

def associationField : Expr → Except Failure (Staged String)
  | .atom name => .ok (.literal name)
  | .literal (.string name) => .ok (.literal name)
  | .interpolate p => .ok (.deferred p)
  | .var name => .error (.association (.variable name) name)
  | other => .error (.association (.notAnAtom other.text) other.text)

/-- The owner of an association that is not found, in words. -/
def schemaOwner (schema : String) : String := "schema `" ++ schema ++ "`"

/-- Finds the association, unless its field or the schema of its owner is not known yet. -/
def resolveAssociation (ctx : SourceContext) (call : Expr) (owner : Nat) (field : Staged String) :
    Except Failure (Option ResolvedAssociation) :=
  match ctx.schema? owner, field with
  | some schema, .literal name =>
    match ctx.view.association? schema name with
    | some a => .ok (some a)
    | none => .error (.associationNotFound (schemaOwner schema) name call.text)
  | _, _ => .ok none

def ofAssociation (ctx : SourceContext) (call owner field : Expr) :
    Except Failure SizedSource := do
  let slot ← ownerSlot ctx owner
  let name ← associationField field
  let resolved ← resolveAssociation ctx call slot name
  return { source := .association ⟨slot, name, resolved⟩ }

/-- Reads a part of a values list, unless it is interpolated. -/
def stagedPart {α : Type} (read : Expr → Except Failure α) : Expr → Except Failure (Staged α)
  | .interpolate p => .ok (.deferred p)
  | e => do return .literal (← read e)

def ofValues (call rows types : Expr) : Except Failure SizedSource := do
  let rows ← stagedPart ValuesList.rowsOfExpr rows
  let columns ← stagedPart ValuesList.columnsOfExpr types
  match rows, columns with
  | .literal rs, .literal cs =>
    match ValuesList.check rs cs with
    | .ok list => return { source := .values (.checked list) }
    | .error fault => .error (.values fault call.text)
  | rows, columns => return { source := .values (.pending rows columns) }

/-- The source of a call, by the function and the number of its arguments. -/
def ofCall (ctx : SourceContext) (call : Expr) (function : String) (args : List Expr) :
    Except Failure SizedSource :=
  if function = "subquery" then
    match args with
    | [inner] => ofSubquery call inner none
    | [inner, options] => ofSubquery call inner (some options)
    | _ => malformed call
  else if function = "assoc" then
    match args with
    | [owner, field] => ofAssociation ctx call owner field
    | _ => malformed call
  else if function = "values" then
    match args with
    | [rows, types] => ofValues call rows types
    | _ => malformed call
  else malformed call

def ofExpr (ctx : SourceContext) (e : Expr) : Except Failure SizedSource :=
  match e with
  | .literal (.string name) => .ok { source := .table { table := some name } }
  | .schema name => .ok { source := .table { schema := some name } }
  | .tuple [.literal (.string name), .schema schema] =>
    .ok { source := .table { table := some name, schema := some schema } }
  | .interpolate p => .ok { source := .runtime p }
  | .query q => ofQuery q
  | .call function args => ofCall ctx e function args
  | other => malformed other

/-- The schema in each slot of a source, where it is known. -/
def slotSchemas (arity : Nat) : JoinSource → List (Option String)
  | .table ref => resizeSchemas arity [ref.schema]
  | .association a => resizeSchemas arity [a.resolved.map (·.related)]
  | .subquery (.literal q) _ => resizeSchemas arity q.slotSchemas
  | _ => resizeSchemas arity []

end JoinSource

end StagedJoin
