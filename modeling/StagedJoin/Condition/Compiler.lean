import StagedJoin.ColumnType.Parser
import StagedJoin.Scope

/-!
Compiling a boolean expression into a term. A compiler is given what is in view
and how many parameters have been collected, and answers with a term and the
parameters that it adds; those are numbered on from the given count. The standard
compiler takes comparisons, logic, arithmetic, lists, `is_nil/1` and `type/2`, and
types an interpolated operand after the field that it meets.
-/
namespace StagedJoin

/-- What is in view of a condition: variables, the schema in each slot where it
is known, and the schemas. -/
structure Context where
  scope : Scope
  schemas : List (Option String)
  view : SchemaView

namespace Context

def schema? (ctx : Context) (slot : Nat) : Option String := ctx.schemas[slot]?.join

/-- The type of a field, or a tag for it while its type is not known. -/
def tag (ctx : Context) (slot : Nat) (name : String) : TypeTag :=
  match (ctx.schema? slot).bind fun schema => ctx.view.fieldType? schema name with
  | some t => .type t
  | none => .field slot name

/-- The tag that an expression gives to the operand beside it. -/
def operandTag (ctx : Context) : Expr → TypeTag
  | .field owner name =>
    match ctx.scope.slot? owner with
    | some slot => ctx.tag slot name
    | none => .any
  | _ => .any

/-- The tag of what stands behind `in`: items are like the left operand, and any
other operand is an array of its type. -/
def membershipTag (ctx : Context) (left right : Expr) : TypeTag :=
  match right with
  | .list _ => ctx.operandTag left
  | _ =>
    match ctx.operandTag left with
    | .type t => .type (.array t)
    | _ => .any

def rightTag (ctx : Context) (op : Operator) (left right : Expr) : TypeTag :=
  if op = .mem then ctx.membershipTag left right else ctx.operandTag left

end Context

/-- A term with the parameters that it adds. -/
abbrev Compiled := Term × List Param

/-- Compiles an expression, given the number of parameters collected before. -/
abbrev ConditionCompiler := Context → Nat → Expr → Except Failure Compiled

namespace ConditionCompiler

def unsupported {α : Type} (e : Expr) (reason : String) : Except Failure α :=
  .error (.expression (.unsupported e.text reason) e.text)

def unbound {α : Type} (name site : String) : Except Failure α :=
  .error (.expression (.unboundVariable name) site)

def onlyCalls : String := "only `is_nil/1` and `type/2` may be called in a condition"

/-- The type named by the second argument of `type/2`. -/
def namedType (call named : Expr) : Except Failure ColumnType :=
  let parse (name : String) :=
    match ColumnType.parse name with
    | .ok t => .ok t
    | .error _ => .error (.expression (.unknownType name) named.text)
  match named with
  | .atom name => parse name
  | .literal (.string name) => parse name
  | _ => unsupported call "`type/2` expects a type name as its second argument"

mutual

/-- Compiles an expression whose interpolations are to have a given tag. -/
def compileTerm (ctx : Context) (count : Nat) (hint : TypeTag) : Expr → Except Failure Compiled
  | .literal l => .ok (.literal l.value, [])
  | .atom name => .ok (.literal (.atom name), [])
  | .field owner name =>
    match ctx.scope.slot? owner with
    | some slot => .ok (.field slot name, [])
    | none => unbound owner (Expr.field owner name).text
  | .interpolate p => .ok (.param count, [⟨.deferred p, hint⟩])
  | .binary op left right =>
    match compileTerm ctx count (ctx.operandTag right) left with
    | .error failure => .error failure
    | .ok (l, ps) =>
      match compileTerm ctx (count + ps.length) (ctx.rightTag op left right) right with
      | .error failure => .error failure
      | .ok (r, qs) => .ok (.binary op l r, ps ++ qs)
  | .not e =>
    match compileTerm ctx count .any e with
    | .error failure => .error failure
    | .ok (t, ps) => .ok (.not t, ps)
  | .list items =>
    match compileItems ctx count hint items with
    | .error failure => .error failure
    | .ok (ts, ps) => .ok (.list ts, ps)
  | .call function [e] =>
    if function = "is_nil" then
      match compileTerm ctx count .any e with
      | .error failure => .error failure
      | .ok (t, ps) => .ok (.isNil t, ps)
    else unsupported (.call function [e]) onlyCalls
  | .call function [e, named] =>
    if function = "type" then
      match namedType (.call function [e, named]) named with
      | .error failure => .error failure
      | .ok t =>
        match e with
        | .interpolate p => .ok (.param count, [⟨.deferred p, .type t⟩])
        | e =>
          match compileTerm ctx count .any e with
          | .error failure => .error failure
          | .ok (inner, ps) => .ok (.typed inner (.type t), ps)
    else unsupported (.call function [e, named]) onlyCalls
  | .call function args => unsupported (.call function args) onlyCalls
  | .var name =>
    match ctx.scope.slot? name with
    | none => unbound name name
    | some _ => unsupported (.var name) "a binding must be accessed through one of its fields"
  | other => unsupported other "it cannot be used in a condition"

def compileItems (ctx : Context) (count : Nat) (hint : TypeTag) :
    List Expr → Except Failure (List Term × List Param)
  | [] => .ok ([], [])
  | e :: rest =>
    match compileTerm ctx count hint e with
    | .error failure => .error failure
    | .ok (t, ps) =>
      match compileItems ctx (count + ps.length) hint rest with
      | .error failure => .error failure
      | .ok (ts, qs) => .ok (t :: ts, ps ++ qs)

end

/-- The compiler of conditions that is used unless another is supplied. -/
def standard : ConditionCompiler := fun ctx count e => compileTerm ctx count .any e

/-- A compiler that answers every expression with one term. -/
def constant (t : Term) : ConditionCompiler := fun _ _ _ => .ok (t, [])

end ConditionCompiler

end StagedJoin
