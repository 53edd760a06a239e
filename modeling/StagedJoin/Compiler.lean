import StagedJoin.Condition.Lowering
import StagedJoin.Config
import StagedJoin.Failure.Wording
import StagedJoin.Query.Append
import StagedJoin.Source

/-!
Building a join: an invocation is checked part by part against a query, and the
resulting join is appended to it. A failure keeps the invocation it belongs to.
-/
namespace StagedJoin

/-- `join(query, qualifier, binding, target, options)`. -/
structure Invocation where
  qualifier : Expr
  binding : Expr
  /-- `vars in source`, or a source alone. -/
  target : Expr
  options : Option Expr := none
  /-- Line and column in the caller's text. -/
  location : Option (Nat × Nat) := none

namespace Invocation

/-- Options as further arguments; a keyword list has no brackets. -/
def optionsText (options : Expr) : String :=
  match options.asKeyword? with
  | some pairs => String.join (pairs.map fun p => ", " ++ p.1 ++ ": " ++ p.2.text)
  | none => ", " ++ options.text

def text (i : Invocation) : String :=
  "join(query, " ++ i.qualifier.text ++ ", " ++ i.binding.text ++ ", " ++ i.target.text ++
    i.options.elim "" optionsText ++ ")"

end Invocation

/-- What joins are built and bound with. -/
structure Compiler where
  view : SchemaView
  config : Config := {}
  conditions : ConditionCompiler := ConditionCompiler.standard

/-- A failure with the invocation that failed. -/
structure InvocationFailure where
  cause : Failure
  invocation : Invocation

namespace InvocationFailure

def locatedCause (f : InvocationFailure) : Diagnostic :=
  match f.invocation.location with
  | some (line, column) => f.cause.diagnostic.withLocation line column
  | none => f.cause.diagnostic

def diagnostic (f : InvocationFailure) : Diagnostic :=
  f.locatedCause.withStatement f.invocation.text

end InvocationFailure

namespace ResolvedAssociation

/-- `related.relatedKey == owner.ownerKey`, with the related rows in `slot`. -/
def condition (a : ResolvedAssociation) (slot owner : Nat) : Condition :=
  ⟨.eq (.field slot a.relatedKey) (.field owner a.ownerKey), []⟩

end ResolvedAssociation

namespace JoinSource

/-- The condition of an association that has been found. -/
def naturalCondition? (slot : Nat) : JoinSource → Option Condition
  | .association a => a.resolved.map fun r => r.condition slot a.owner
  | _ => none

/-- The field of an association, if it is known, can name the join. -/
def inferredName? : JoinSource → Option String
  | .association a => a.field.literal?
  | _ => none

end JoinSource

namespace Query

/-- An association is named after its field where that name is free. -/
def inferAlias (q : Query) (source : JoinSource) : JoinAlias :=
  match source.inferredName? with
  | some name => if (q.aliasSlot? name).isSome then .none else .inferred name
  | none => .none

end Query

/-- A condition must not reach past the last slot of its join. -/
def checkLastSlot (slot? : Option Nat) (last : Nat) : Except Failure Unit :=
  match slot? with
  | some slot => if last < slot then .error (.layout (.pastLastSlot slot last)) else .ok ()
  | none => .ok ()

namespace Compiler

/-- The `on` clause of a join, behind the condition of its association. -/
def onClause (c : Compiler) (ctx : Context) (slot : Nat) (source : JoinSource)
    (on : Option Expr) : Except Failure OnClause := do
  let clause ← OnClause.ofExpr? c.conditions ctx slot on
  return match source.naturalCondition? slot with
    | some natural => clause.withNatural natural
    | none => clause

/-- The join of an invocation at the next slot of a query. -/
def build (c : Compiler) (q : Query) (i : Invocation) : Except Failure Join := do
  let qualifier ← Qualifier.ofExpr c.config.qualifiers i.qualifier
  let options ← JoinOptions.ofExpr? c.config.optionTable .join i.options
  let scope ← Scope.ofQuery q i.binding
  let (vars, sourceExpr) ← JoinVars.splitTarget i.target
  scope.checkFresh vars
  let sized ← JoinSource.ofExpr ⟨scope, vars, q.slotSchemas, c.view⟩ sourceExpr
  let arity := (sized.arity <|> vars.arity?).getD 1
  vars.checkArity arity i.target.text
  let scope ← scope.extend vars arity
  let schemas := sized.source.slotSchemas arity
  let on ← c.onClause ⟨scope, q.slotSchemas ++ schemas, c.view⟩ q.slotCount sized.source options.on?
  let j : Join := {
    qualifier := qualifier
    source := sized.source
    on := on
    joinAlias := match options.alias? with
      | some name => .explicit name
      | none => q.inferAlias sized.source
    tablePrefix := options.tablePrefix?
    hints := options.hints?
    extensions := options.extensions
    slot := q.slotCount
    arity := arity
    schemas := schemas }
  checkLastSlot on.maxSlot? j.lastSlot
  return j

/-- Appends the join of an invocation to a query. -/
def join (c : Compiler) (q : Query) (i : Invocation) : Except InvocationFailure Query :=
  match c.build q i with
  | .error cause => .error ⟨cause, i⟩
  | .ok j => (q.append j).mapError fun cause => ⟨cause, i⟩

end Compiler

end StagedJoin
