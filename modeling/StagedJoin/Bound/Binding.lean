import StagedJoin.Argument
import StagedJoin.Bound
import StagedJoin.Compiler

/-!
Binding a query to arguments. The joins are bound from left to right, each with
the aliases and schemas of the slots before it; everything deferred is looked up,
checked and put in place. A subquery takes fewer slots than the query that holds
it, so the number of slots bounds how deeply queries are bound inside each other.
-/
namespace StagedJoin

/-- What a query is bound with. -/
structure Binder where
  compiler : Compiler
  arguments : Arguments

/-- The slots that are bound so far. -/
structure BoundSlots where
  aliases : OrderedMap Nat
  schemas : List (Option String)

namespace Arguments

/-- The argument of a placeholder, which must have one. -/
def require (args : Arguments) (p : Placeholder) : Except Failure Argument :=
  match args.get? p with
  | some arg => .ok arg
  | .none => .error (.missingParameter p.text)

end Arguments

namespace Context

/-- A tag for a field becomes the type of the field, if that is known. -/
def resolve (ctx : Context) : TypeTag → TypeTag
  | .field slot name => ctx.tag slot name
  | other => other

end Context

namespace Binder

variable (b : Binder)

/-- The slots bound so far as the context of a condition without variables. -/
def context (slots : BoundSlots) : Context := ⟨{}, slots.schemas, b.compiler.view⟩

/-- Checks a value against the type of its tag, if that is known. -/
def checkType (ctx : Context) (tag : TypeTag) (v : Value) : Except Failure Unit :=
  match ctx.resolve tag with
  | .type t => if t.accepts v then .ok () else .error (.parameterType v.text t.name v.text)
  | _ => .ok ()

/-- The plain value of a parameter with a given tag. -/
def plainValue (args : Arguments) (tag : TypeTag) : Staged Value → Except Failure Value
  | .literal v => .ok v
  | .deferred p =>
    match args.require p with
    | .error failure => .error failure
    | .ok (.value v) => .ok v
    | .ok other => .error (.parameterType other.text tag.text p.text)

/-- The value of a parameter, checked against its tag. -/
def paramValue (ctx : Context) (args : Arguments) (tag : TypeTag) (value : Staged Value) :
    Except Failure Value := do
  let v ← plainValue args tag value
  checkType ctx tag v
  return v

def bindParam (ctx : Context) (args : Arguments) (p : Param) :
    Except Failure (Value × TypeTag) := do
  return (← paramValue ctx args p.tag p.value, ctx.resolve p.tag)

/-- A cell of a values list, whose tag must be a type. -/
def bindCell (ctx : Context) (cell : Param) : Except Failure (Value × ColumnType) := do
  let v ← paramValue ctx b.arguments cell.tag cell.value
  match cell.tag with
  | .type t => return (v, t)
  | _ => .error (.layout .untypedCell)

def sourceExpected : String :=
  "expected a table name, a schema, a `\x7btable, schema\x7d` tuple or a query without joins"

/-- The table that an argument stands for as the source of a join. -/
def runtimeTable (arg : Argument) : Except Failure TableRef :=
  match arg with
  | .value (.string name) => .ok { table := some name }
  | .queryable (.table name) => .ok { table := some name }
  | .value (.atom name) => .ok { schema := some name }
  | .queryable (.schema name) => .ok { schema := some name }
  | .queryable (.tableSchema t s) => .ok { table := some t, schema := some s }
  | .queryable (.query q) =>
    if q.hasJoins then
      .error (.sourceValue arg.text "queries with joins must be wrapped in `subquery/1`")
    else .ok q.base.source
  | _ => .error (.sourceValue arg.text sourceExpected)

/-- The query of a subquery; one that is supplied must fill the slots of its join. -/
def subqueryOf (arity : Nat) : Staged Query → Except Failure Query
  | .literal q => .ok q
  | .deferred p => do
    match ← b.arguments.require p with
    | .queryable (.query q) =>
      if q.slotCount = arity then return q
      else .error (.binding (.arityMismatch q.slotCount arity) p.text)
    | other => .error (.sourceValue other.text "`subquery/1` expects a query")

/-- A prefix; an undefined argument stands for none. -/
def bindPrefix : Option (Staged String) → Except Failure (Option String)
  | none => .ok none
  | some (.literal s) => .ok (some s)
  | some (.deferred p) => do
    match ← b.arguments.require p with
    | .value (.string s) => return some s
    | .value .undefined => return none
    | other => .error (.optionValue "prefix" "a string or nil" other.text)

def associationName : Staged String → Except Failure String
  | .literal name => .ok name
  | .deferred p => do
    match ← b.arguments.require p with
    | .value (.atom name) => return name
    | .value (.string name) => return name
    | other => .error (.association (.notAnAtom other.text) p.text)

/-- Finds an association that could not be found when its join was built. -/
def findAssociation (slots : BoundSlots) (owner : Nat) (name : String) :
    Except Failure ResolvedAssociation :=
  match slots.schemas[owner]?.join with
  | some schema =>
    match b.compiler.view.association? schema name with
    | some a => .ok a
    | none => .error (.associationNotFound (JoinSource.schemaOwner schema) name name)
  | none =>
    .error (.associationNotFound
      ("binding " ++ toString owner ++ ", its schema is unknown") name name)

/-- A part of a values list that was left for later; it must be a plain value. -/
def pendingPart {α : Type} (fault : String → ValuesFault) (read : Value → Except Failure α) :
    Staged α → Except Failure α
  | .literal a => .ok a
  | .deferred p => do
    match ← b.arguments.require p with
    | .value v => read v
    | other => .error (.values (fault other.text) p.text)

/-- The values list of a source, checked now if it has not been before. -/
def valuesList : ValuesSource → Except Failure ValuesList
  | .checked list => .ok list
  | .pending rows columns => do
    let rows ← b.pendingPart (.notARow 0) ValuesList.rowsOfValue rows
    let columns ← b.pendingPart .malformedTypes ValuesList.columnsOfValue columns
    match ValuesList.check rows columns with
    | .ok list => return list
    | .error fault => .error (.values fault "values(rows, types)")

/-- A bound source, with the condition of an association that has only now been found. -/
structure FoundSource where
  source : BoundSource
  lateCondition : Option Condition := none

def bindAssociation (slots : BoundSlots) (slot : Nat) (a : AssociationSource) :
    Except Failure FoundSource := do
  match a.resolved with
  | some r => return { source := .association a.owner r }
  | none =>
    let name ← b.associationName a.field
    let r ← b.findAssociation slots a.owner name
    return ⟨.association a.owner r, some (r.condition slot a.owner)⟩

def bindValues (slots : BoundSlots) (source : ValuesSource) : Except Failure FoundSource := do
  let list ← b.valuesList source
  let cells ← list.cells.mapM (b.bindCell (b.context slots))
  return { source := .values list.columns list.rowCount cells }

/-- Binds the source of a join; `inner` binds the query of a subquery. -/
def bindSource (inner : Query → Except Failure BoundQuery) (slots : BoundSlots) (j : Join) :
    Except Failure FoundSource := do
  match j.source with
  | .table ref => return { source := .table ref }
  | .runtime p => return { source := .table (← runtimeTable (← b.arguments.require p)) }
  | .subquery query tablePrefix =>
    let q ← b.subqueryOf j.arity query
    let boundPrefix ← b.bindPrefix tablePrefix
    return { source := .subquery (← inner q) boundPrefix }
  | .association a => b.bindAssociation slots j.slot a
  | .values source => b.bindValues slots source

/-- The condition of a dynamic argument. Its variables name the slots up to and
including those of the join. -/
def dynamicCondition (slots : BoundSlots) (j : Join) (d : DynamicCondition) :
    Except Failure Condition := do
  let scope ← Scope.resolve (j.slot + j.arity) slots.aliases (.list d.binding)
  Condition.ofExpr b.compiler.conditions ⟨scope, slots.schemas, b.compiler.view⟩ d.expr

/-- The condition that an argument stands for, with the arguments that its
parameters refer to. -/
def suppliedCondition (slots : BoundSlots) (j : Join) (p : Placeholder) :
    Except Failure (Condition × Arguments) := do
  match ← b.arguments.require p with
  | .dynamic d => return (← b.dynamicCondition slots j d, d.arguments)
  | .value (.map entries) =>
    let pairs := (OrderedMap.ofList entries).entries
    return (Condition.ofValues (b.context slots) j.slot pairs, b.arguments)
  | .value (.list []) => return (.truth, b.arguments)
  | .value (.boolean value) => return (⟨.literal (.boolean value), []⟩, b.arguments)
  | other =>
    .error (.onClause
      ("expected a dynamic expression, a keyword list or a boolean, got: `" ++ other.text ++ "`")
      p.text)

/-- Conjoins a condition behind another, if there is one. -/
def conjoin (first : Option Condition) (c : Condition) : Condition :=
  match first with
  | some natural => natural.and c
  | none => c

def onCondition (slots : BoundSlots) (j : Join) : Except Failure (Condition × Arguments) := do
  match j.on with
  | .compiled c => return (c, b.arguments)
  | .deferred p natural =>
    let (c, args) ← b.suppliedCondition slots j p
    return (conjoin natural c, args)

/-- Binds the `on` clause of a join, behind a condition that was found late. -/
def bindOn (slots : BoundSlots) (j : Join) (late : Option Condition) :
    Except Failure BoundCondition := do
  let (c, args) ← b.onCondition slots j
  let c := conjoin late c
  checkLastSlot c.maxSlot? j.lastSlot
  let ctx := b.context slots
  let params ← c.params.mapM (bindParam ctx args)
  return ⟨c.term.mapTags ctx.resolve, params⟩

/-- The alias of a join; one that is supplied must be free and is registered. -/
def bindAlias (slots : BoundSlots) (j : Join) : Except Failure (Option String × BoundSlots) := do
  match j.joinAlias with
  | .none => return (none, slots)
  | .explicit (.literal name) => return (some name, slots)
  | .inferred name => return (some name, slots)
  | .explicit (.deferred p) =>
    let name ← match ← b.arguments.require p with
      | .value (.atom name) => .ok name
      | .value (.string name) => .ok name
      | other => .error (.optionValue "as" "an atom or a string" other.text)
    if slots.aliases.contains name then .error (.duplicateAlias name p.text)
    return (some name, { slots with aliases := slots.aliases.insert name j.slot })

def hintTexts (arg : Argument) : List Value → Except Failure (List String)
  | [] => .ok []
  | .string s :: rest => do return s :: (← hintTexts arg rest)
  | _ :: _ => .error (.optionValue "hints" "a string or a list of strings" arg.text)

def bindHints : Option (Staged (List String)) → Except Failure (List String)
  | none => .ok []
  | some (.literal hints) => .ok hints
  | some (.deferred p) => do
    let arg ← b.arguments.require p
    match arg with
    | .value (.string s) => return [s]
    | .value (.list items) => hintTexts arg items
    | _ => .error (.optionValue "hints" "a string or a list of strings" arg.text)

def bindExtension (name : String) : Staged Value → Except Failure Value
  | .literal v => .ok v
  | .deferred p => do
    match ← b.arguments.require p with
    | .value v => return v
    | other => .error (.optionValue name "a plain value" other.text)

/-- Binds one join to the slots that come next. -/
def bindJoin (inner : Query → Except Failure BoundQuery) (slots : BoundSlots) (j : Join) :
    Except Failure (BoundJoin × BoundSlots) := do
  if j.slot ≠ slots.schemas.length then
    .error (.layout (.boundAt j.slot slots.schemas.length))
  let found ← b.bindSource inner slots j
  let slots := { slots with schemas := slots.schemas ++ found.source.slotSchemas j.arity }
  let on ← b.bindOn slots j found.lateCondition
  let (aliasName, slots) ← b.bindAlias slots j
  let tablePrefix ← b.bindPrefix j.tablePrefix
  let hints ← b.bindHints j.hints
  let extensions ← j.extensions.traverse b.bindExtension
  return (⟨j.qualifier, found.source, on, aliasName, tablePrefix, hints, extensions, j.slot,
    j.arity⟩, slots)

def bindJoins (inner : Query → Except Failure BoundQuery) (slots : BoundSlots) :
    List Join → Except Failure (List BoundJoin × BoundSlots)
  | [] => .ok ([], slots)
  | j :: rest =>
    match b.bindJoin inner slots j with
    | .error failure => .error failure
    | .ok (bound, slots) =>
      match bindJoins inner slots rest with
      | .error failure => .error failure
      | .ok (more, slots) => .ok (bound :: more, slots)

/-- Binds a query with no more than `depth` queries inside each other. -/
def bindWithin : Nat → Query → Except Failure BoundQuery
  | 0, _ => .error (.layout .nestedTooDeep)
  | depth + 1, q =>
    match b.bindJoins (bindWithin depth) ⟨q.aliases, [q.base.source.schema]⟩ q.joins with
    | .error failure => .error failure
    | .ok (joins, slots) => .ok ⟨q.base, joins, slots.aliases⟩

/-- Binds every deferred part of a query. -/
def bind (q : Query) : Except Failure BoundQuery := b.bindWithin q.slotCount q

end Binder

/-- Binds a query to arguments with the compiler that its conditions are compiled by. -/
def Query.bind (q : Query) (arguments : Arguments) (compiler : Compiler) :
    Except Failure BoundQuery :=
  Binder.bind ⟨compiler, arguments⟩ q

end StagedJoin
