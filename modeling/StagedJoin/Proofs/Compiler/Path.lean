import StagedJoin.Proofs.Compiler.Failures
import StagedJoin.Proofs.Compiler.Relocation
import StagedJoin.Proofs.Query.Names

/-!
Joins along a path of associations. Each of them hangs on the last slot of the query
and reads the association from the schema that is known there, so a chain of them
follows the catalog: it goes through exactly as far as the catalog has a path, and
where the path ends the association is not found.
-/
namespace StagedJoin

/-! ## Paths in a catalog -/

namespace Catalog

/-- The catalogs that come from inserting and erasing schemas. -/
inductive Built : Catalog → Prop
  | empty : Built .empty
  | insert {catalog : Catalog} (h : Built catalog) (s : Schema) : Built (catalog.insert s)
  | erase {catalog : Catalog} (h : Built catalog) (name : String) : Built (catalog.erase name)

theorem view_erase (catalog : Catalog) (erased name : String) :
    (catalog.erase erased).view name = if name = erased then none else catalog.view name :=
  OrderedMap.get?_erase catalog.schemas erased name

/-- Whatever has been replaced or erased, a schema is found under its own name. -/
theorem Built.name_eq {catalog : Catalog} (h : catalog.Built) {name : String} {s : Schema}
    (hs : catalog.view name = some s) : s.name = name := by
  induction h with
  | empty => cases hs
  | insert _ inserted ih =>
    rw [view_insert] at hs
    split at hs
    · rename_i hname
      cases hs
      exact hname.symm
    · exact ih hs
  | erase _ erased ih =>
    rw [view_erase] at hs
    split at hs
    · cases hs
    · exact ih hs

end Catalog

/-- One association on the way, with the schema that it leads to. -/
structure Hop where
  field : String
  association : Association
  related : Schema

namespace Hop

/-- The association is declared by the owner, and its related schema is known. -/
structure From (view : SchemaView) (owner : Schema) (hop : Hop) : Prop where
  declared : owner.associations.get? hop.field = some hop.association
  found : view hop.association.related = some hop.related

def resolved (owner : Schema) (hop : Hop) : ResolvedAssociation where
  owner := owner.name
  field := hop.field
  cardinality := hop.association.cardinality
  related := hop.related.name
  relatedSource := hop.related.source
  ownerKey := hop.association.ownerKey
  relatedKey := hop.association.relatedKey

end Hop

namespace SchemaView

variable {view : SchemaView} {owner start last : Schema} {hops : List Hop} {hop : Hop}
  {field : String}

theorem association?_of_from (howner : view owner.name = some owner) (h : hop.From view owner) :
    view.association? owner.name hop.field = some (hop.resolved owner) := by
  simp only [association?, howner, h.declared, h.found, Option.bind_eq_bind, Option.bind_some]
  rfl

theorem association?_eq_none (howner : view owner.name = some owner)
    (h : ¬∃ hop : Hop, hop.From view owner ∧ hop.field = field) :
    view.association? owner.name field = none := by
  cases hdeclared : owner.associations.get? field with
  | none => simp [association?, howner, hdeclared]
  | some a =>
    cases hfound : view a.related with
    | none => simp [association?, howner, hdeclared, hfound]
    | some related => exact absurd ⟨⟨field, a, related⟩, ⟨hdeclared, hfound⟩, rfl⟩ h

/-- Every association on the way starts at the schema that the one before it has led to. -/
inductive Path (view : SchemaView) : Schema → List Hop → Schema → Prop
  | nil (s : Schema) : Path view s [] s
  | cons {s last : Schema} {hop : Hop} {hops : List Hop} (h : hop.From view s)
      (rest : Path view hop.related hops last) : Path view s (hop :: hops) last

/-- The schemas on the way, from the first to the last. -/
def schemasAlong (start : Schema) (hops : List Hop) : List Schema := start :: hops.map Hop.related

theorem schemasAlong_concat (start : Schema) (hops : List Hop) (hop : Hop) :
    schemasAlong start (hops ++ [hop]) = schemasAlong start hops ++ [hop.related] := by
  rw [schemasAlong, List.map_append, List.map_singleton]
  rfl

theorem length_schemasAlong (start : Schema) (hops : List Hop) :
    (schemasAlong start hops).length = hops.length + 1 := by
  rw [schemasAlong, List.length_cons, List.length_map]

theorem Path.snoc (h : view.Path start hops last) (hnext : hop.From view last) :
    view.Path start (hops ++ [hop]) hop.related := by
  induction h with
  | nil s => exact .cons hnext (.nil _)
  | cons hfirst _ ih => exact .cons hfirst (ih hnext)

theorem Path.getElem?_schemasAlong (h : view.Path start hops last) :
    (schemasAlong start hops)[hops.length]? = some last := by
  induction h with
  | nil s => rfl
  | cons _ _ ih => exact ih

/-- Where every schema is found under its own name, a path does not leave the schemas that are. -/
theorem Path.view_last (h : view.Path start hops last)
    (hnames : ∀ name s, view name = some s → s.name = name)
    (hstart : view start.name = some start) : view last.name = some last := by
  induction h with
  | nil s => exact hstart
  | cons hfirst _ ih =>
    refine ih ?_
    rw [hnames _ _ hfirst.found]
    exact hfirst.found

end SchemaView

/-! ## A join along an association -/

/-- `join(query, qualifier, [..., owner], var in assoc(owner, :field))`. -/
structure AssociationStep where
  qualifier : Expr
  var : String
  owner : String
  field : String
  location : Option (Nat × Nat) := none

namespace AssociationStep

def call (s : AssociationStep) : Expr := .call "assoc" [.var s.owner, .atom s.field]

def invocation (s : AssociationStep) : Invocation where
  qualifier := s.qualifier
  binding := .list [.ellipsis, .var s.owner]
  target := .binary .mem (.var s.var) s.call
  location := s.location

/-- The qualifier is one that the dialect has, and the owner has a name of its own. -/
structure Readable (config : Config) (s : AssociationStep) : Prop where
  qualifier : ∃ kind, Qualifier.ofExpr config.qualifiers s.qualifier = .ok kind
  named : s.owner ≠ wildcard
  apart : s.var ≠ s.owner

/-- The owner names the last slot. -/
def scope (s : AssociationStep) (q : Query) : Scope :=
  ⟨OrderedMap.empty.insert s.owner (q.slotCount - 1), q.slotCount⟩

/-- What fails where the association is not found on a schema. -/
def failure (s : AssociationStep) (schema : Schema) : InvocationFailure where
  cause := .associationNotFound (JoinSource.schemaOwner schema.name) s.field s.call.text
  invocation := s.invocation

/-- The join along an association that has been found. -/
def join (s : AssociationStep) (q : Query) (kind : Qualifier) (r : ResolvedAssociation) : Join where
  qualifier := kind
  source := .association ⟨q.slotCount - 1, .literal s.field, some r⟩
  on := .compiled (r.condition q.slotCount (q.slotCount - 1))
  joinAlias := if (q.aliasSlot? s.field).isSome then .none else .inferred s.field
  tablePrefix := none
  hints := none
  extensions := ({} : JoinOptions).extensions
  slot := q.slotCount
  arity := 1
  schemas := [some r.related]

variable {c : Compiler} {q : Query} {s : AssociationStep}

theorem scope_eq (h : s.Readable c.config) (q : Query) :
    Scope.ofQuery q s.invocation.binding = .ok (s.scope q) := by
  have hpos := q.slotCount_pos
  have hname : nameUnlessWildcard s.owner = some s.owner := if_neg h.named
  have hitems : BindingList.ofItems false [.ellipsis, .var s.owner] =
      .ok { trailing := [some s.owner] } := by
    simp only [BindingList.ofItems, Bool.false_eq_true, ↓reduceIte, hname]
    rfl
  have hcount : ¬q.slotCount < BindingList.positionalCount { trailing := [some s.owner] } := by
    simp only [BindingList.positionalCount, List.length_nil, List.length_singleton]
    omega
  simp only [Scope.ofQuery, Scope.resolve, invocation, Scope.ofItems, hitems, ok_bind,
    BindingList.resolve, hcount, ↓reduceIte]
  rfl

theorem checkFresh_eq (h : s.Readable c.config) (q : Query) :
    (s.scope q).checkFresh (.single (nameUnlessWildcard s.var)) = .ok () := by
  have hfree : (JoinVars.single (nameUnlessWildcard s.var)).names.find?
      (s.scope q).names.contains = none := by
    rw [List.find?_eq_none]
    intro name hname
    have hvar : name = s.var := by
      unfold nameUnlessWildcard at hname
      split at hname <;> simp_all [JoinVars.names, JoinVars.slots]
    have hne : s.var ≠ s.owner := h.apart
    simp [scope, OrderedMap.get?_insert, hvar, hne]
  rw [Scope.checkFresh, hfree]

theorem slot?_owner (s : AssociationStep) (q : Query) :
    (s.scope q).slot? s.owner = some (q.slotCount - 1) := OrderedMap.get?_insert_self _ _ _

theorem contains_owner (h : s.Readable c.config) :
    (JoinVars.single (nameUnlessWildcard s.var)).contains s.owner = false := by
  have hne : s.var ≠ s.owner := h.apart
  unfold nameUnlessWildcard
  split <;> simp [JoinVars.contains, JoinVars.names, JoinVars.slots, hne.symm]

/-- The association is looked up on the schema of the last slot. -/
theorem source_eq (h : s.Readable c.config) {schema : Schema}
    (hschema : q.slotSchemas[q.slotCount - 1]? = some (some schema.name)) :
    JoinSource.ofExpr
        ⟨s.scope q, .single (nameUnlessWildcard s.var), q.slotSchemas, c.view⟩ s.call =
      match c.view.association? schema.name s.field with
      | some r => .ok { source := .association ⟨q.slotCount - 1, .literal s.field, some r⟩ }
      | none => .error (s.failure schema).cause := by
  have howner : JoinSource.ownerSlot
      ⟨s.scope q, .single (nameUnlessWildcard s.var), q.slotSchemas, c.view⟩ (.var s.owner) =
        .ok (q.slotCount - 1) := by
    simp only [JoinSource.ownerSlot, contains_owner h, slot?_owner, Bool.false_eq_true, ↓reduceIte]
  change JoinSource.ofAssociation _ s.call (.var s.owner) (.atom s.field) = _
  simp only [JoinSource.ofAssociation, howner, ok_bind, JoinSource.associationField,
    JoinSource.resolveAssociation, SourceContext.schema?, hschema, Option.join_some]
  cases c.view.association? schema.name s.field <;> rfl

/-- Whether the join is built is decided by the association of the last schema. -/
theorem build_eq (h : s.Readable c.config) {kind : Qualifier}
    (hkind : Qualifier.ofExpr c.config.qualifiers s.qualifier = .ok kind) {schema : Schema}
    (hschema : q.slotSchemas[q.slotCount - 1]? = some (some schema.name)) :
    c.build q s.invocation =
      match c.view.association? schema.name s.field with
      | some r => .ok (s.join q kind r)
      | none => .error (s.failure schema).cause := by
  have htarget : JoinVars.splitTarget s.invocation.target =
      .ok (.single (nameUnlessWildcard s.var), s.call) := rfl
  have hqualifier : Qualifier.ofExpr c.config.qualifiers s.invocation.qualifier = .ok kind := hkind
  unfold Compiler.build
  simp only [hqualifier, ok_bind, scope_eq h, htarget, checkFresh_eq h, source_eq h hschema]
  cases c.view.association? schema.name s.field with
  | none => rfl
  | some r =>
    have hlast : checkLastSlot
        (OnClause.compiled (r.condition q.slotCount (q.slotCount - 1))).maxSlot?
        (q.slotCount + 1 - 1) = .ok () := by
      rw [checkLastSlot_eq_ok_iff, OnClause.forall_mem_maxSlot?]
      intro slot hslot
      have howner : q.slotCount - 1 < q.slotCount + 1 := by omega
      exact Nat.lt_succ_iff.mp (r.slots_condition_lt (Nat.lt_succ_self _) howner slot hslot)
    simp only [ok_bind, Scope.extend, checkFresh_eq h]
    -- What is left to fail is the check on the last slot of the condition.
    change (checkLastSlot
        (OnClause.compiled (r.condition q.slotCount (q.slotCount - 1))).maxSlot?
        (q.slotCount + 1 - 1) >>= _) = _
    rw [hlast]
    rfl

/-- Naming a join after its association never fails: a name that is taken is left alone. -/
theorem exists_append (s : AssociationStep) (q : Query) (kind : Qualifier)
    (r : ResolvedAssociation) : ∃ grown, q.append (s.join q kind r) = .ok grown := by
  have hfree : ∀ name ∈ (s.join q kind r).joinAlias.name?, q.aliases.get? name = none := by
    by_cases htaken : (q.aliasSlot? s.field).isSome
    · simp [join, htaken, JoinAlias.name?]
    · have hnone : q.aliases.get? s.field = none := Option.not_isSome_iff_eq_none.mp htaken
      simpa [join, htaken, JoinAlias.name?] using hnone
  exact ⟨_, Query.append_eq_ok_iff.mpr
    ⟨rfl, _, Query.registerAlias_eq_ok_iff.mpr ⟨hfree, rfl⟩, rfl⟩⟩

end AssociationStep

/-! ## What the joins along a path are -/

/-- `j` is the join of `hop` from its owner, at a slot, where `seen` are the fields before it. -/
structure Join.Takes (owner : Schema) (hop : Hop) (slot : Nat) (seen : List String) (j : Join) :
    Prop where
  slot_eq : j.slot = slot
  arity_eq : j.arity = 1
  schemas_eq : j.schemas = [some hop.related.name]
  source_eq : j.source = .association ⟨slot - 1, .literal hop.field, some (hop.resolved owner)⟩
  on_eq : j.on = .compiled ⟨.eq (.field slot hop.association.relatedKey)
    (.field (slot - 1) hop.association.ownerKey), []⟩
  /-- A field that has been on the way before gives no second alias. -/
  joinAlias_eq : j.joinAlias = if hop.field ∈ seen then .none else .inferred hop.field

/-- The join is named by its field exactly if the field is new. -/
theorem Join.Takes.name?_eq_some_iff {owner : Schema} {hop : Hop} {slot : Nat} {seen : List String}
    {j : Join} (h : j.Takes owner hop slot seen) {name : String} (hnew : name ∉ seen) :
    j.joinAlias.name? = some name ↔ name = hop.field := by
  rw [h.joinAlias_eq]
  split
  · rename_i hseen
    constructor
    · intro hname
      cases hname
    · rintro rfl
      exact absurd hseen hnew
  · exact Option.some_inj.trans eq_comm

/-- The query starts at a schema and has one join for each association on the way. -/
structure Query.Follows (q : Query) (start : Schema) (hops : List Hop) : Prop where
  base_eq : q.base = { source := { schema := some start.name } }
  slotCount_eq : q.slotCount = hops.length + 1
  length_joins : q.joins.length = hops.length
  slotSchemas_eq : q.slotSchemas =
    (SchemaView.schemasAlong start hops).map fun s => some s.name
  join_takes : ∀ k hop, hops[k]? = some hop → ∃ (j : Join) (owner : Schema),
    q.joins[k]? = some j ∧
    (SchemaView.schemasAlong start hops)[k]? = some owner ∧
      j.Takes owner hop (k + 1) ((hops.take k).map Hop.field)
  /-- A field names the slot where it is first taken. -/
  aliasSlot?_eq : ∀ name, q.aliasSlot? name = ((hops.map Hop.field).idxOf? name).map (· + 1)

namespace Query

variable {c : Compiler} {q : Query} {start last : Schema} {hops : List Hop} {hop : Hop}
  {s : AssociationStep}

theorem follows_ofSchema (start : Schema) : (ofSchema start.name).Follows start [] where
  base_eq := rfl
  slotCount_eq := rfl
  length_joins := rfl
  slotSchemas_eq := rfl
  join_takes := fun _ _ h => nomatch h
  aliasSlot?_eq := fun _ => rfl

/-- The last slot has the schema where the path ends. -/
theorem Follows.schema_last (h : q.Follows start hops) (hpath : c.view.Path start hops last) :
    q.slotSchemas[q.slotCount - 1]? = some (some last.name) := by
  rw [h.slotSchemas_eq, h.slotCount_eq, Nat.add_sub_cancel, List.getElem?_map,
    hpath.getElem?_schemasAlong]
  rfl

/-- A field is taken as an alias as soon as it has been on the way. -/
theorem Follows.isSome_aliasSlot? (h : q.Follows start hops) (name : String) :
    (q.aliasSlot? name).isSome ↔ name ∈ hops.map Hop.field := by
  rw [h.aliasSlot?_eq, Option.isSome_map, List.isSome_idxOf?]

/-- The alias of a hop is registered for its slot if its field is new there. -/
theorem Follows.aliasSlot?_eq_some_iff (h : q.Follows start hops) {k : Nat}
    (hk : hops[k]? = some hop) :
    q.aliasSlot? hop.field = some (k + 1) ↔ hop.field ∉ (hops.take k).map Hop.field := by
  obtain ⟨hlt, hget⟩ := List.getElem?_eq_some_iff.mp hk
  have hidx : q.aliasSlot? hop.field = some (k + 1) ↔
      (hops.map Hop.field).idxOf? hop.field = some k := by
    rw [h.aliasSlot?_eq, Option.map_eq_some_iff]
    simp
  rw [hidx, List.idxOf?_eq_some_iff]
  simp only [List.mem_map, List.mem_take_iff_getElem, List.getElem_map, List.length_map, hget]
  constructor
  · rintro ⟨_, -, hfirst⟩ ⟨_, ⟨i, hi, rfl⟩, hfield⟩
    exact hfirst i (by omega) hfield
  · intro hnew
    exact ⟨hlt, trivial, fun i hi hfield => hnew ⟨_, ⟨i, by omega, rfl⟩, hfield⟩⟩

theorem idxOf?_concat (names : List String) (added name : String) :
    (names ++ [added]).idxOf? name =
      (names.idxOf? name).or (if name = added then some names.length else none) := by
  rw [List.idxOf?, List.findIdx?_append]
  by_cases h : name = added
  · simp [h]
  · simp [h, Ne.symm h]

/-- The joins that are there and that of the next hop are those of the longer path. -/
theorem Follows.exists_takes {j : Join} (h : q.Follows start hops)
    (hlast : (SchemaView.schemasAlong start hops)[hops.length]? = some last)
    (hj : j.Takes last hop (hops.length + 1) (hops.map Hop.field)) {k : Nat} {next : Hop}
    (hk : (hops ++ [hop])[k]? = some next) : ∃ (i : Join) (owner : Schema),
      (q.joins ++ [j])[k]? = some i ∧
        (SchemaView.schemasAlong start (hops ++ [hop]))[k]? = some owner ∧
          i.Takes owner next (k + 1) (((hops ++ [hop]).take k).map Hop.field) := by
  have hlength := SchemaView.length_schemasAlong start hops
  rw [SchemaView.schemasAlong_concat]
  rcases Nat.lt_or_ge k hops.length with hlt | hge
  · rw [List.getElem?_append_left hlt] at hk
    have hjoins : k < q.joins.length := h.length_joins ▸ hlt
    have hschema : k < (SchemaView.schemasAlong start hops).length := by omega
    rw [List.getElem?_append_left hjoins, List.getElem?_append_left hschema,
      List.take_append_of_le_length (Nat.le_of_lt hlt)]
    exact h.join_takes k next hk
  · obtain ⟨hlt, -⟩ := List.getElem?_eq_some_iff.mp hk
    rw [List.length_append, List.length_singleton] at hlt
    obtain rfl : k = hops.length := by omega
    rw [List.getElem?_concat_length] at hk
    cases hk
    refine ⟨j, last, ?_, ?_, ?_⟩
    · rw [← h.length_joins]
      exact List.getElem?_concat_length
    · rwa [List.getElem?_append_left (by omega)]
    · rwa [List.take_left]

/-- The join of the next hop behind the others makes a query that follows the longer path. -/
theorem Follows.append {r : Query} {j : Join} (h : q.Follows start hops)
    (hlast : (SchemaView.schemasAlong start hops)[hops.length]? = some last)
    (hj : j.Takes last hop (hops.length + 1) (hops.map Hop.field)) (hr : q.append j = .ok r) :
    r.Follows start (hops ++ [hop]) := by
  have hslotCount := slotCount_append hr
  have hschemas := slotSchemas_append hr
  have haliases := aliasSlot?_append hr
  obtain ⟨-, aliases, -, rfl⟩ := append_eq_ok_iff.mp hr
  refine ⟨h.base_eq, ?_, ?_, ?_, fun k next hk => h.exists_takes hlast hj hk, fun name => ?_⟩
  · rw [hslotCount, h.slotCount_eq, hj.arity_eq, List.length_append, List.length_singleton]
  · rw [List.length_append, List.length_append, h.length_joins, List.length_singleton,
      List.length_singleton]
  · rw [hschemas, h.slotSchemas_eq, hj.schemas_eq, SchemaView.schemasAlong_concat, List.map_append]
    rfl
  · rw [haliases, List.map_append, List.map_singleton, idxOf?_concat, List.length_map,
      Option.map_or, ← h.aliasSlot?_eq name]
    cases htaken : q.aliasSlot? name with
    | some slot => rw [Option.some_or, Option.some_or]
    | none =>
      have hnew : name ∉ hops.map Hop.field := by
        rw [← h.isSome_aliasSlot?, htaken]
        exact Bool.false_ne_true
      simp only [hj.name?_eq_some_iff hnew, hj.slot_eq, Option.none_or]
      split <;> rfl

/-- One more step of the path is one more join. -/
theorem Follows.join (h : q.Follows start hops) (hpath : c.view.Path start hops last)
    (hknown : c.view last.name = some last) (hs : s.Readable c.config)
    (hhop : hop.From c.view last) (hfield : hop.field = s.field) :
    ∃ r, c.join q s.invocation = .ok r ∧ r.Follows start (hops ++ [hop]) := by
  obtain ⟨kind, hkind⟩ := hs.qualifier
  have hbuild := AssociationStep.build_eq hs hkind (h.schema_last hpath)
  rw [← hfield, SchemaView.association?_of_from hknown hhop] at hbuild
  obtain ⟨r, happend⟩ := s.exists_append q kind (hop.resolved last)
  have htakes : (s.join q kind (hop.resolved last)).Takes last hop (hops.length + 1)
      (hops.map Hop.field) := by
    have hslot : q.slotCount = hops.length + 1 := h.slotCount_eq
    refine ⟨hslot, rfl, rfl, ?_, ?_, ?_⟩
    · simp only [AssociationStep.join, hslot, hfield]
    · simp only [AssociationStep.join, hslot]
      rfl
    · simp only [AssociationStep.join, h.isSome_aliasSlot?, hfield]
  refine ⟨r, ?_, h.append hpath.getElem?_schemasAlong htakes happend⟩
  rw [Compiler.join, hbuild]
  dsimp only
  rw [happend]
  rfl

/-- Where the path does not go on, the association is not found. -/
theorem Follows.join_eq_error (h : q.Follows start hops) (hpath : c.view.Path start hops last)
    (hknown : c.view last.name = some last) (hs : s.Readable c.config)
    (hnone : ¬∃ hop : Hop, hop.From c.view last ∧ hop.field = s.field) :
    c.join q s.invocation = .error (s.failure last) := by
  obtain ⟨kind, hkind⟩ := hs.qualifier
  have hbuild := AssociationStep.build_eq hs hkind (h.schema_last hpath)
  rw [SchemaView.association?_eq_none hknown hnone] at hbuild
  rw [Compiler.join, hbuild]
  rfl

/-- Steps along a path add its joins, one for each step. -/
theorem Follows.foldlM_join {steps : List AssociationStep} {first : Schema} {more : List Hop}
    (h : q.Follows start hops) (hpath : c.view.Path start hops first)
    (hnames : ∀ name s, c.view name = some s → s.name = name)
    (hstart : c.view start.name = some start)
    (hsteps : ∀ s ∈ steps, s.Readable c.config) (hmore : c.view.Path first more last)
    (hfields : more.map Hop.field = steps.map AssociationStep.field) :
    ∃ r, (steps.map AssociationStep.invocation).foldlM c.join q = .ok r ∧
      r.Follows start (hops ++ more) := by
  induction hmore generalizing q hops steps with
  | nil first =>
    obtain rfl : steps = [] := List.map_eq_nil_iff.mp hfields.symm
    exact ⟨q, rfl, (List.append_nil hops).symm ▸ h⟩
  | @cons first last hop more hhop hrest ih =>
    cases steps with
    | nil => cases hfields
    | cons s steps =>
      obtain ⟨hfield, hfields⟩ := List.cons_eq_cons.mp hfields
      obtain ⟨hs, hsteps⟩ := List.forall_mem_cons.mp hsteps
      obtain ⟨q', hq', hfollows⟩ := h.join hpath (hpath.view_last hnames hstart) hs hhop hfield
      obtain ⟨r, hr, hgrown⟩ := ih hfollows (hpath.snoc hhop) hsteps hfields
      rw [List.append_assoc, List.singleton_append] at hgrown
      exact ⟨r, by rw [List.map_cons, List.foldlM_cons, hq', ok_bind, hr], hgrown⟩

end Query

/-! ## A chain of joins -/

namespace SchemaView

/-- The path with the fields of some steps ends before one of them. -/
structure Stuck (view : SchemaView) (start : Schema) (front : List AssociationStep)
    (s : AssociationStep) (last : Schema) : Prop where
  path : ∃ hops, view.Path start hops last ∧ hops.map Hop.field = front.map AssociationStep.field
  ends : ¬∃ hop : Hop, hop.From view last ∧ hop.field = s.field

/-- The fields of steps make up a path, or the path ends before one of them. -/
theorem path_or_stuck (view : SchemaView) (start : Schema) (steps : List AssociationStep) :
    (∃ hops last, view.Path start hops last ∧
        hops.map Hop.field = steps.map AssociationStep.field) ∨
      ∃ front s back last, steps = front ++ s :: back ∧ view.Stuck start front s last := by
  induction steps generalizing start with
  | nil => exact .inl ⟨[], start, .nil start, rfl⟩
  | cons s steps ih =>
    by_cases hhop : ∃ hop : Hop, hop.From view start ∧ hop.field = s.field
    · obtain ⟨hop, hfrom, hfield⟩ := hhop
      rcases ih hop.related with ⟨hops, last, hpath, hfields⟩ |
        ⟨front, t, back, last, rfl, ⟨hops, hpath, hfields⟩, hends⟩
      · exact .inl ⟨hop :: hops, last, .cons hfrom hpath, by
          rw [List.map_cons, List.map_cons, hfield, hfields]⟩
      · refine .inr ⟨s :: front, t, back, last, rfl, ⟨hop :: hops, .cons hfrom hpath, ?_⟩, hends⟩
        rw [List.map_cons, List.map_cons, hfield, hfields]
    · exact .inr ⟨[], s, steps, start, rfl, ⟨[], .nil start, rfl⟩, hhop⟩

end SchemaView

namespace Compiler

variable {c : Compiler} {start last : Schema} {steps front back : List AssociationStep}
  {s : AssociationStep}

/-- The joins of all steps, one after the other, on a query that reads a schema. -/
def joinSteps (c : Compiler) (start : Schema) (steps : List AssociationStep) :
    Except InvocationFailure Query :=
  (steps.map AssociationStep.invocation).foldlM c.join (Query.ofSchema start.name)

/-- Before the end of the path the joins are built; the first step behind it fails, and with it
all of them. -/
theorem joinSteps_of_stuck (hnames : ∀ name s, c.view name = some s → s.name = name)
    (hstart : c.view start.name = some start)
    (hsteps : ∀ t ∈ front ++ s :: back, t.Readable c.config)
    (h : c.view.Stuck start front s last) :
    c.joinSteps start (front ++ s :: back) = .error (s.failure last) ∧
      ∃ q, c.joinSteps start front = .ok q ∧ c.join q s.invocation = .error (s.failure last) := by
  obtain ⟨⟨hops, hpath, hfields⟩, hends⟩ := h
  obtain ⟨hfront, hs⟩ := List.forall_mem_append.mp hsteps
  obtain ⟨q, hq, hfollows⟩ := (Query.follows_ofSchema start).foldlM_join (.nil start) hnames hstart
    hfront hpath hfields
  rw [List.nil_append] at hfollows
  have hfail := hfollows.join_eq_error hpath (hpath.view_last hnames hstart)
    (hs s List.mem_cons_self) hends
  refine ⟨?_, q, hq, hfail⟩
  rw [joinSteps, List.map_append, List.foldlM_append, hq, ok_bind, List.map_cons, List.foldlM_cons,
    hfail, error_bind]

/-- Joins along associations, each on the last slot, are built as far as the catalog has a path
for their fields. They then have the schemas of the path in their slots, each with the association
of its owner and the condition on its keys, and each is named by its field unless one before it
is. Where the path ends, the first join behind it is the one that fails. -/
theorem joinSteps_follow_path {catalog : Catalog} (hcatalog : catalog.Built)
    (hview : c.view = catalog.view) (hstart : catalog.view start.name = some start)
    (hsteps : ∀ s ∈ steps, s.Readable c.config) :
    ((∃ r, c.joinSteps start steps = .ok r) ↔ ∃ hops last,
      catalog.view.Path start hops last ∧
        hops.map Hop.field = steps.map AssociationStep.field) ∧
    (∀ r, c.joinSteps start steps = .ok r → ∃ hops last,
      catalog.view.Path start hops last ∧
        hops.map Hop.field = steps.map AssociationStep.field ∧
        r.Follows start hops ∧
        ∀ k hop, hops[k]? = some hop →
          (r.aliasSlot? hop.field = some (k + 1) ↔ hop.field ∉ (hops.take k).map Hop.field)) ∧
    ∀ e, c.joinSteps start steps = .error e ↔ ∃ front s back last q,
      steps = front ++ s :: back ∧ catalog.view.Stuck start front s last ∧
        c.joinSteps start front = .ok q ∧ c.join q s.invocation = .error e ∧
        e = s.failure last ∧ e.diagnostic.code = "JOIN_011" := by
  rw [← hview] at hstart ⊢
  have hnames : ∀ name s, c.view name = some s → s.name = name := by
    rw [hview]
    exact fun name s => hcatalog.name_eq
  have hpath : ∀ hops last, c.view.Path start hops last →
      hops.map Hop.field = steps.map AssociationStep.field →
        ∃ r, c.joinSteps start steps = .ok r ∧ r.Follows start hops := by
    intro hops last hpath hfields
    exact (Query.follows_ofSchema start).foldlM_join (.nil start) hnames hstart hsteps hpath hfields
  have hstuck : ∀ front s back last, steps = front ++ s :: back → c.view.Stuck start front s last →
      c.joinSteps start steps = .error (s.failure last) ∧ ∃ q, c.joinSteps start front = .ok q ∧
        c.join q s.invocation = .error (s.failure last) := by
    rintro front s back last rfl hstuck
    exact joinSteps_of_stuck hnames hstart hsteps hstuck
  have hcases := c.view.path_or_stuck start steps
  refine ⟨⟨?_, ?_⟩, ?_, fun e => ⟨?_, ?_⟩⟩
  · rintro ⟨r, hr⟩
    refine hcases.resolve_right ?_
    rintro ⟨front, s, back, last, hsplit, hends⟩
    rw [(hstuck front s back last hsplit hends).1] at hr
    cases hr
  · rintro ⟨hops, last, hhops, hfields⟩
    obtain ⟨r, hr, -⟩ := hpath hops last hhops hfields
    exact ⟨r, hr⟩
  · intro r hr
    rcases hcases with ⟨hops, last, hhops, hfields⟩ | ⟨front, s, back, last, hsplit, hends⟩
    · obtain ⟨r', hr', hfollows⟩ := hpath hops last hhops hfields
      cases hr.symm.trans hr'
      exact ⟨hops, last, hhops, hfields, hfollows, fun k hop => hfollows.aliasSlot?_eq_some_iff⟩
    · rw [(hstuck front s back last hsplit hends).1] at hr
      cases hr
  · intro he
    rcases hcases with ⟨hops, last, hhops, hfields⟩ | ⟨front, s, back, last, hsplit, hends⟩
    · obtain ⟨r, hr, -⟩ := hpath hops last hhops hfields
      rw [hr] at he
      cases he
    · obtain ⟨hfail, q, hq, hjoin⟩ := hstuck front s back last hsplit hends
      rw [hfail] at he
      cases he
      exact ⟨front, s, back, last, q, hsplit, hends, hq, hjoin, rfl,
        InvocationFailure.code_diagnostic _⟩
  · rintro ⟨front, s, back, last, q, hsplit, hends, -, -, rfl, -⟩
    exact (hstuck front s back last hsplit hends).1

end Compiler

namespace Sample

def postSchema : Schema :=
  Schema.hasMany { name := "Post", source := "posts" } "comments" "Comment" "post_id"

def commentSchema : Schema :=
  Schema.belongsTo { name := "Comment", source := "comments" } "post" "Post" "post_id"

/-- Posts have been replaced, and users are gone. -/
def discussion : Catalog :=
  ((((Catalog.empty.insert { name := "Post", source := "drafts" }).insert
    { name := "User", source := "users" }).insert commentSchema).insert postSchema).erase "User"

theorem built_discussion : discussion.Built :=
  ((((Catalog.Built.empty.insert _).insert _).insert _).insert _).erase _

/-- `join(query, :inner, [..., o], x in assoc(o, :field))`. -/
def step (field : String) : AssociationStep where
  qualifier := .atom "inner"
  var := "x"
  owner := "o"
  field := field

theorem readable_step (field : String) : (step field).Readable {} where
  qualifier := ⟨.inner, rfl⟩
  named := (by decide : "o" ≠ wildcard)
  apart := (by decide : "x" ≠ "o")

def discussionCompiler : Compiler := { view := discussion.view }

/-- From the comments of a post back to the post and to its comments again. -/
def thread : List AssociationStep := ["comments", "post", "comments"].map step

theorem joinSteps_thread : ∃ r, discussionCompiler.joinSteps postSchema thread = .ok r ∧
    r.aliasSlot? "comments" = some 1 := by
  have hsteps : ∀ s ∈ thread, s.Readable discussionCompiler.config := by
    intro s hs
    obtain ⟨field, -, rfl⟩ := List.mem_map.mp hs
    exact readable_step field
  have hpostSchema : discussion.view postSchema.name = some postSchema := by decide
  obtain ⟨hok, hall, -⟩ :=
    Compiler.joinSteps_follow_path (c := discussionCompiler) built_discussion rfl hpostSchema hsteps
  have hcomments : Hop.From discussion.view postSchema
      ⟨"comments", ⟨.many, "Comment", "id", "post_id"⟩, commentSchema⟩ := ⟨by decide, by decide⟩
  have hpost : Hop.From discussion.view commentSchema
      ⟨"post", ⟨.one, "Post", "post_id", "id"⟩, postSchema⟩ := ⟨by decide, by decide⟩
  obtain ⟨r, hr⟩ := hok.mpr ⟨_, _, .cons hcomments (.cons hpost (.cons hcomments (.nil _))), rfl⟩
  obtain ⟨hops, last, -, hfields, -, hnamed⟩ := hall r hr
  have hfirst : (hops.map Hop.field)[0]? = some "comments" := by
    rw [hfields]
    rfl
  rw [List.getElem?_map, Option.map_eq_some_iff] at hfirst
  obtain ⟨hop, hget, hfield⟩ := hfirst
  rw [← hfield]
  exact ⟨r, hr, (hnamed 0 hop hget).mpr List.not_mem_nil⟩

end Sample

end StagedJoin
