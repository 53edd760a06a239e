import StagedJoin.ColumnType
import StagedJoin.OrderedMap

/-!
Schemas: the table each one reads, its typed fields and the associations that it
owns. Whatever answers names with schemas is a `SchemaView`; an association is
resolved only if both its ends are known to the view.
-/
namespace StagedJoin

inductive Cardinality where
  | one
  | many
  deriving DecidableEq, Repr, Inhabited

namespace Cardinality

def isMany : Cardinality → Bool
  | .one => false
  | .many => true

def name : Cardinality → String
  | .one => "one"
  | .many => "many"

def ofName? : String → Option Cardinality
  | "one" => some .one
  | "many" => some .many
  | _ => none

end Cardinality

/-- An association as its owner declares it: rows are related where the owner's
`ownerKey` equals the related schema's `relatedKey`. -/
structure Association where
  cardinality : Cardinality
  related : String
  ownerKey : String
  relatedKey : String
  deriving DecidableEq, Repr, Inhabited

/-- An association with both ends found. -/
structure ResolvedAssociation where
  owner : String
  field : String
  cardinality : Cardinality
  related : String
  relatedSource : String
  ownerKey : String
  relatedKey : String
  deriving DecidableEq, Repr, Inhabited

structure Schema where
  name : String
  source : String
  tablePrefix : Option String := none
  fields : OrderedMap ColumnType := .empty
  associations : OrderedMap Association := .empty
  deriving DecidableEq, Inhabited

namespace Schema

def withField (s : Schema) (name : String) (type : ColumnType) : Schema :=
  { s with fields := s.fields.insert name type }

def withAssociation (s : Schema) (field : String) (a : Association) : Schema :=
  { s with associations := s.associations.insert field a }

/-- Many rows of `related` point back at this schema's `id` with `relatedKey`. -/
def hasMany (s : Schema) (field related relatedKey : String) : Schema :=
  s.withAssociation field ⟨.many, related, "id", relatedKey⟩

/-- One row of `related` points back at this schema's `id` with `relatedKey`. -/
def hasOne (s : Schema) (field related relatedKey : String) : Schema :=
  s.withAssociation field ⟨.one, related, "id", relatedKey⟩

/-- This schema's `ownerKey` points at the `id` of `related`. -/
def belongsTo (s : Schema) (field related ownerKey : String) : Schema :=
  s.withAssociation field ⟨.one, related, ownerKey, "id"⟩

end Schema

/-- What is known about schemas, by name. -/
abbrev SchemaView := String → Option Schema

namespace SchemaView

def association? (view : SchemaView) (owner field : String) : Option ResolvedAssociation := do
  let schema ← view owner
  let a ← schema.associations.get? field
  let related ← view a.related
  return {
    owner := schema.name
    field := field
    cardinality := a.cardinality
    related := related.name
    relatedSource := related.source
    ownerKey := a.ownerKey
    relatedKey := a.relatedKey }

def fieldType? (view : SchemaView) (schema field : String) : Option ColumnType := do
  (← view schema).fields.get? field

end SchemaView

/-- Schemas held in memory under their own names. -/
structure Catalog where
  schemas : OrderedMap Schema := .empty
  deriving Inhabited

namespace Catalog

def empty : Catalog := {}

/-- Adds a schema in place of any other of its name. -/
def insert (c : Catalog) (s : Schema) : Catalog := ⟨c.schemas.insert s.name s⟩

def erase (c : Catalog) (name : String) : Catalog := ⟨c.schemas.erase name⟩

def size (c : Catalog) : Nat := c.schemas.size

def isEmpty (c : Catalog) : Bool := c.schemas.isEmpty

def view (c : Catalog) : SchemaView := c.schemas.get?

theorem view_insert (c : Catalog) (s : Schema) (name : String) :
    (c.insert s).view name = if name = s.name then some s else c.view name :=
  OrderedMap.get?_insert c.schemas s.name name s

end Catalog

end StagedJoin
