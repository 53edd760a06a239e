import StagedJoin.Condition
import StagedJoin.Qualifier
import StagedJoin.Schema

/-!
Queries: a base, the joins appended to it, and the aliases that name their slots.
Slot 0 is the base; every join takes the next `arity` slots in the order of the
joins. A join is appended only at the slot that comes next and only under a name
that is free.
-/
namespace StagedJoin

/-- A table, a schema, or a schema read from another table. -/
structure TableRef where
  table : Option String := none
  schema : Option String := none
  deriving DecidableEq, Repr, Inhabited

namespace TableRef

def text : TableRef → String
  | ⟨some table, some schema⟩ => "\x7b" ++ Text.quoted table ++ ", " ++ schema ++ "\x7d"
  | ⟨some table, none⟩ => Text.quoted table
  | ⟨none, some schema⟩ => schema
  | ⟨none, none⟩ => "nil"

end TableRef

/-- A checked values list: cells row by row, in the order of the columns, each a parameter with
the type of its column as its tag. -/
structure ValuesList where
  columns : List (String × ColumnType)
  rowCount : Nat
  cells : List Param
  deriving Inhabited

abbrev ValuesRow := OrderedMap (Staged Value)

inductive ValuesSource where
  | checked (list : ValuesList)
  /-- Rows or types are supplied later and are checked then. -/
  | pending (rows : Staged (List ValuesRow)) (columns : Staged (List (String × ColumnType)))
  deriving Inhabited

structure AssociationSource where
  owner : Nat
  field : Staged String
  /-- Present once the schema of the owner's slot is known. -/
  resolved : Option ResolvedAssociation
  deriving DecidableEq, Inhabited

inductive JoinAlias where
  | none
  | explicit (name : Staged String)
  /-- Taken from the field of an association. -/
  | inferred (name : String)
  deriving DecidableEq, Inhabited

/-- The alias, if it is known before the query is bound. -/
def JoinAlias.name? : JoinAlias → Option String
  | .none => Option.none
  | .explicit (.literal name) => some name
  | .explicit (.deferred _) => Option.none
  | .inferred name => some name

inductive OnClause where
  | compiled (condition : Condition)
  /-- The condition of the association, if there is one, is conjoined in front of
  what is supplied. -/
  | deferred (placeholder : Placeholder) (natural : Option Condition)
  deriving Inhabited

namespace OnClause

def compiled? : OnClause → Option Condition
  | .compiled c => some c
  | .deferred .. => none

/-- The greatest slot that the conditions known so far refer to. -/
def maxSlot? : OnClause → Option Nat
  | .compiled c => c.maxSlot?
  | .deferred _ natural => natural.bind Condition.maxSlot?

def shift (offset : Nat) : OnClause → OnClause
  | .compiled c => .compiled (c.shift offset)
  | .deferred p natural => .deferred p (natural.map (Condition.shift offset))

/-- Puts the condition of an association in front. -/
def withNatural (natural : Condition) : OnClause → OnClause
  | .compiled c => .compiled (natural.and c)
  | .deferred p _ => .deferred p (some natural)

end OnClause

structure Base where
  source : TableRef := {}
  tablePrefix : Option String := none
  deriving DecidableEq, Repr, Inhabited

mutual

inductive JoinSource where
  | table (ref : TableRef)
  | runtime (placeholder : Placeholder)
  | subquery (query : Staged Query) (tablePrefix : Option (Staged String))
  | association (source : AssociationSource)
  | values (source : ValuesSource)

structure Join where
  qualifier : Qualifier
  source : JoinSource
  on : OnClause
  joinAlias : JoinAlias
  tablePrefix : Option (Staged String)
  hints : Option (Staged (List String))
  extensions : OrderedMap (Staged Value)
  /-- The first slot of the join. -/
  slot : Nat
  arity : Nat
  /-- The schema in each slot of the join, where it is known. -/
  schemas : List (Option String)

structure Query where
  base : Base
  joins : List Join
  aliases : OrderedMap Nat

end

/-- Cuts or fills a list of schemas to a number of slots. -/
def resizeSchemas (arity : Nat) (schemas : List (Option String)) : List (Option String) :=
  schemas.take arity ++ List.replicate (arity - schemas.length) none

@[simp] theorem length_resizeSchemas (arity : Nat) (schemas : List (Option String)) :
    (resizeSchemas arity schemas).length = arity := by
  simp only [resizeSchemas, List.length_append, List.length_take, List.length_replicate]
  omega

namespace JoinSource

def kind : JoinSource → String
  | .table _ => "table"
  | .runtime _ => "runtime"
  | .subquery .. => "subquery"
  | .association _ => "association"
  | .values _ => "values"

/-- Moves the owner of an association. A subquery has slots of its own. -/
def shift (offset : Nat) : JoinSource → JoinSource
  | .association a => .association { a with owner := shiftSlot offset a.owner }
  | other => other

end JoinSource

namespace Join

/-- The same join behind `offset` more slots. -/
def shift (offset : Nat) (j : Join) : Join :=
  { j with
    source := j.source.shift offset
    on := j.on.shift offset
    slot := j.slot + offset }

def withoutAlias (j : Join) : Join := { j with joinAlias := .none }

/-- The number of slots of all joins of a list. -/
def totalArity : List Join → Nat
  | [] => 0
  | j :: rest => j.arity + totalArity rest

/-- The last slot of the join. -/
def lastSlot (j : Join) : Nat := j.slot + j.arity - 1

end Join

namespace Query

def ofTableRef (ref : TableRef) : Query := ⟨{ source := ref }, [], .empty⟩

def ofTable (table : String) : Query := ofTableRef { table := some table }

def ofSchema (schema : String) : Query := ofTableRef { schema := some schema }

def ofTableSchema (table schema : String) : Query :=
  ofTableRef { table := some table, schema := some schema }

instance : Inhabited Query := ⟨ofTableRef {}⟩

/-- Names the base. -/
def withAlias (q : Query) (name : String) : Query :=
  { q with aliases := q.aliases.insert name 0 }

def withPrefix (q : Query) (tablePrefix : String) : Query :=
  { q with base := { q.base with tablePrefix := some tablePrefix } }

def aliasSlot? (q : Query) (name : String) : Option Nat := q.aliases.get? name

def hasJoins (q : Query) : Bool := !q.joins.isEmpty

/-- The number of slots. -/
def slotCount (q : Query) : Nat := 1 + Join.totalArity q.joins

/-- The schema in each slot, where it is known before the query is bound. -/
def slotSchemas (q : Query) : List (Option String) :=
  q.base.source.schema :: q.joins.flatMap Join.schemas

def slotSchema? (q : Query) (slot : Nat) : Option String := q.slotSchemas[slot]?.join

def joinText (j : Join) : String :=
  " " ++ j.qualifier.name ++ "_join(" ++ j.source.kind ++ ")"

def text (q : Query) : String :=
  "#Query<from " ++ q.base.source.text ++ String.join (q.joins.map joinText) ++ ">"

end Query

end StagedJoin
