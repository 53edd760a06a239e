import StagedJoin.ColumnType.Json
import StagedJoin.Schema

/-!
Schemas and associations in JSON.
-/
namespace StagedJoin

namespace Cardinality

def toJson (c : Cardinality) : Json := .ofString c.name

def ofJson? : Decoder Cardinality := Json.asName? ofName?

end Cardinality

namespace Association

def toJson (a : Association) : Json :=
  .ofPairs [
    ("cardinality", a.cardinality.toJson),
    ("related", .ofString a.related),
    ("owner_key", .ofString a.ownerKey),
    ("related_key", .ofString a.relatedKey)]

def ofJson? : Decoder Association := fun depth j => do
  let f ← Json.asFields? ["cardinality", "related", "owner_key", "related_key"] true depth j
  return {
    cardinality := ← f.required? "cardinality" Cardinality.ofJson?
    related := ← f.required? "related" Json.asString?
    ownerKey := ← f.required? "owner_key" Json.asString?
    relatedKey := ← f.required? "related_key" Json.asString? }

end Association

namespace ResolvedAssociation

def toJson (a : ResolvedAssociation) : Json :=
  .ofPairs [
    ("owner", .ofString a.owner),
    ("field", .ofString a.field),
    ("cardinality", a.cardinality.toJson),
    ("related", .ofString a.related),
    ("related_source", .ofString a.relatedSource),
    ("owner_key", .ofString a.ownerKey),
    ("related_key", .ofString a.relatedKey)]

def fieldNames : List String :=
  ["owner", "field", "cardinality", "related", "related_source", "owner_key", "related_key"]

def ofJson? : Decoder ResolvedAssociation := fun depth j => do
  let f ← Json.asFields? fieldNames true depth j
  return {
    owner := ← f.required? "owner" Json.asString?
    field := ← f.required? "field" Json.asString?
    cardinality := ← f.required? "cardinality" Cardinality.ofJson?
    related := ← f.required? "related" Json.asString?
    relatedSource := ← f.required? "related_source" Json.asString?
    ownerKey := ← f.required? "owner_key" Json.asString?
    relatedKey := ← f.required? "related_key" Json.asString? }

end ResolvedAssociation

namespace Schema

def toJson (s : Schema) : Json :=
  .ofPairs [
    ("name", .ofString s.name),
    ("source", .ofString s.source),
    ("prefix", .ofOption .ofString s.tablePrefix),
    ("fields", .ofPairs (s.fields.entries.map fun f => (f.1, f.2.toJson))),
    ("associations", .ofPairs (s.associations.entries.map fun a => (a.1, a.2.toJson)))]

def ofJson? : Decoder Schema := fun depth j => do
  let f ← Json.asFields? ["name", "source", "prefix", "fields", "associations"] true depth j
  return {
    name := ← f.required? "name" Json.asString?
    source := ← f.required? "source" Json.asString?
    tablePrefix := ← f.optional? "prefix" Json.asString?
    fields := ← f.required? "fields" (Json.asMap? ColumnType.ofJson?)
    associations := ← f.required? "associations" (Json.asMap? Association.ofJson?) }

end Schema

end StagedJoin
